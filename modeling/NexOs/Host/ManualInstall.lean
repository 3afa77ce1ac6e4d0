import NexOs.Host.InstallRuns

/-! A manual installation changes the two partitions it was told to use. -/
namespace NexOs.Host
open Bytes Storage Directory

section
variable {bytes : List UInt8} {report : DiskReport} {p q : PartitionReport}

theorem not_covers (h : inspectBytes bytes = .ok report) (hp : p ∈ report.partitions)
    (hq : q ∈ report.partitions) (hne : p.index ≠ q.index) (hi : p.Covers i) :
    ¬q.Covers i := by
  obtain ⟨hfine, rfl⟩ := inspected h
  obtain ⟨p', hp', rfl⟩ := mem_reportOf hp
  obtain ⟨q', hq', rfl⟩ := mem_reportOf hq
  have : Std.Symm Partition.Apart := ⟨fun _ _ h => h.symm⟩
  have hapart := hfine.table.tableFine.apart.forall hp' hq' fun h => hne (by rw [h])
  intro hi'
  obtain ⟨hlo, hhi⟩ := hi
  obtain ⟨hlo', hhi'⟩ := hi'
  dsimp only [reportPartition] at hlo hhi hlo' hhi'
  rcases hapart with hapart | hapart
  · omega
  · omega

end

/-- A manual installation without the BIOS stage that succeeds leaves an image of the same
length that differs from the old one inside the two selected partitions only. The table and
the other partitions are as they were, and the root passes the check. -/
theorem manual_install_exact (s : Surroundings) (request : InstallRequest)
    (listing : Listing FilePath FileEntry) (faults : Nat → Bool) {espIndex rootIndex : Nat}
    {bios : Bool} (hmode : request.mode = .manual espIndex rootIndex bios)
    (hbios : request.biosStage = false) {bytes : List UInt8} {report : DiskReport}
    (htarget : listing request.target = some (.file bytes))
    (hinspect : inspectBytes bytes = .ok report) {out : InstallReport} {t : HostFiles}
    (hok : install s request (start listing faults) = (.ok out, t)) :
    ∃ esp root bytes', findIndex report espIndex = .ok esp ∧ findIndex report rootIndex = .ok root ∧
      t.listing request.target = some (.file bytes') ∧ bytes'.length = bytes.length ∧
      (∀ i, ¬esp.Covers i → ¬root.Covers i → bytes'[i]? = bytes[i]?) ∧ TableKept bytes bytes' ∧
      (∀ p ∈ report.partitions, p.index ≠ espIndex → p.index ≠ rootIndex →
        p.contents bytes' = p.contents bytes) ∧
      ∃ r d, Nexfs.checkDetailed (diskOf (root.contents bytes')) = (.ok r, d) := by
  obtain ⟨staged, u, hrun, hfinal⟩ := Exec.bind_eq_ok hok
  obtain ⟨-, bytes', hcommitted⟩ := (stageAndCommit_start_ends s request listing faults).ok hrun
  have hquiet := finalVerification_quiet.ok hfinal
  obtain ⟨selection, files, esp, root, hselected, hesp, hroot, hbuilt⟩ := hcommitted.built hbios
  obtain ⟨horiginal, rfl, rfl⟩ := hselected.manual _ _ _ hmode
  rw [htarget] at horiginal
  cases horiginal
  have hreport := hselected.inspected
  rw [hinspect] at hreport
  cases hreport
  obtain ⟨verified, hverify⟩ := hcommitted.verified
  rw [← hesp, ← hroot] at hverify
  have hsame := hbuilt.sameOutside
  obtain ⟨hespMem, hespIndex⟩ := findIndex_mem hbuilt.esp_found
  obtain ⟨hrootMem, hrootIndex⟩ := findIndex_mem hbuilt.root_found
  refine ⟨esp, root, bytes', hbuilt.esp_found, hbuilt.root_found, ?_, hsame.length, ?_,
    hbuilt.tableKept hinspect, ?_, (hbuilt.verified hinspect hverify).2⟩
  · rw [hquiet.listing]
    exact hcommitted.file
  · intro i hi hi'
    exact hsame.agree i fun h => h.elim hi hi'
  · intro p hp hne hne'
    apply hsame.slice
    intro i hlo hhi hcovers
    rcases hcovers with hcovers | hcovers
    · exact not_covers hinspect hp hespMem (by rwa [hespIndex]) ⟨hlo, hhi⟩ hcovers
    · exact not_covers hinspect hp hrootMem (by rwa [hrootIndex]) ⟨hlo, hhi⟩ hcovers

/-- An installation into the two partitions of `sampleImage`. -/
theorem manual_install_exact_sample :
    ∃ out t esp root bytes',
      install sampleSurroundings sampleRequest (start sampleFiles fun _ => false) = (.ok out, t) ∧
      t.listing sampleRequest.target = some (.file bytes') ∧ bytes'.length = sampleImage.length ∧
      (∀ i, ¬PartitionReport.Covers esp i → ¬PartitionReport.Covers root i →
        bytes'[i]? = sampleImage[i]?) ∧ TableKept sampleImage bytes' := by
  obtain ⟨staged, t, hrun, hsame, -⟩ := stageAndCommit_sample fun n _ => rfl
  obtain ⟨-, bytes, hcommitted⟩ := (stageAndCommit_start_ends _ _ _ _).ok hrun
  have hpass : FinalCheckPasses sampleSurroundings sampleRequest staged t.faults t := by
    rw [hsame]
    exact ⟨rfl, rfl, fun h => by cases h⟩
  rcases finalVerification_run hcommitted with ⟨-, out, u, hfinal⟩ | ⟨hfault, -⟩
  · have hok : install sampleSurroundings sampleRequest (start sampleFiles fun _ => false) =
        (.ok out, u) := by
      rw [install, Exec.bind_of_ok hrun]
      exact hfinal
    obtain ⟨esp, root, bytes', -, -, hfile, hlen, hrest, hkept, -⟩ := manual_install_exact
      sampleSurroundings sampleRequest sampleFiles (fun _ => false) rfl rfl rfl
      inspectBytes_sampleImage hok
    exact ⟨out, u, esp, root, bytes', hok, hfile, hlen, hrest, hkept⟩
  · exact absurd hpass hfault

end NexOs.Host
