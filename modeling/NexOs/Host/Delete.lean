import NexOs.Host.Edit

/-! `diskutil partition-delete`, which takes a slot number for a position in the list
of partitions. -/
namespace NexOs.Host
open List hiding Vector
open Bytes Storage

def deletePlan (source : GuidSource) (counter : Nat) (report : DiskReport) (index : Nat) :
    LayoutPlan :=
  { layoutFromReport source counter report with
    partitions := (layoutFromReport source counter report).partitions.eraseIdx (index - 1) }

structure Deletable (source : GuidSource) (counter : Nat) (bytes : List UInt8) (report : DiskReport)
    (index : Nat) : Prop where
  inspectable : Inspectable bytes
  reported : ∃ r ∈ report.partitions, r.index = index
  dense : index - 1 < report.partitions.length
  writable : (deletePlan source counter report index).Writable

section
variable {source : GuidSource} {counter : Nat} {bytes : List UInt8} {index : Nat}

variable {report : DiskReport}

theorem deletePlan_unique :
    ∀ p ∈ (deletePlan source counter report index).partitions, ¬p.uniqueGuid.isZero := by
  intro p hp
  exact unique_of_generated layoutFromReport_generated p (mem_of_mem_eraseIdx hp)

theorem deletePlan_writable (h : (layoutFromReport source counter report).Writable) :
    (deletePlan source counter report index).Writable := by
  have hsub := (layoutFromReport source counter report).partitions.eraseIdx_sublist (index - 1)
  have hplans := h.fine.plans
  constructor
  · constructor
    · exact h.fine.total_ge
    · intro hkind
      exact hsub.length_le.trans (h.fine.mbr_count hkind)
    · intro hkind
      exact hsub.length_le.trans (h.fine.gpt_count hkind)
    · exact ⟨fun p hp => hplans.fits p (hsub.subset hp), hplans.apart.sublist hsub⟩
  · intro hkind p hp
    exact h.short hkind p (hsub.subset hp)

theorem partitionDelete_decides (hlt : bytes.length < 2 ^ 64)
    (hreport : reportOf bytes (tableOf (diskOf bytes)) = report) :
    Result.Decides (partitionDelete source counter bytes index)
      (Deletable source counter bytes report index)
      (layoutImage bytes (deletePlan source counter report index)) := by
  refine Result.Decides.congr (.bind inspectBytes_decides fun hinspect => .guard fun _ =>
    .guard fun _ => rewrite_decides ?_ hlt deletePlan_unique) ?_ ?_
  · exact hinspect.sectors
  · rw [hreport, any_eq_true]
    simp only [beq_iff_eq, length_layoutFromReport, not_le]
    exact ⟨fun h => ⟨h.1, h.2.1, h.2.2.1, h.2.2.2⟩,
      fun h => ⟨h.inspectable, h.reported, h.dense, h.writable⟩⟩
  · intro _
    rw [← hreport]
    rfl

theorem partitionDelete_places (hreport : reportOf bytes (tableOf (diskOf bytes)) = report)
    (hlt : bytes.length < 2 ^ 64) (h : Deletable source counter bytes report index) :
    ∃ report', inspectBytes (layoutImage bytes (deletePlan source counter report index)) =
        .ok report' ∧
      report'.partitions.map PartitionReport.place =
        (report.partitions.map PartitionReport.place).eraseIdx (index - 1) := by
  have hlen : bytes.length = 512 * (deletePlan source counter report index).totalSectors := by
    rw [← hreport]
    exact h.inspectable.sectors
  refine ⟨_, inspectBytes_layoutImage h.writable hlen hlt deletePlan_unique, ?_⟩
  rw [planTable_places h.writable.fine, ← @layoutFromReport_places source counter, deletePlan,
    eraseIdx_map]

/-- Deleting removes the partition with the given index and keeps every other one
exactly when no slot before that index is unused. -/
theorem partitionDelete_exact_iff {report : DiskReport} {bytes' : List UInt8}
    (hlt : bytes.length < 2 ^ 64) (hreport : inspectBytes bytes = .ok report)
    (hdelete : partitionDelete source counter bytes index = .ok bytes') :
    ∃ report', inspectBytes bytes' = .ok report' ∧
      ((∀ r ∈ report.partitions,
          r.place ∈ report'.partitions.map PartitionReport.place ↔ r.index ≠ index) ↔
        ∀ slot, 1 ≤ slot → slot ≤ index → ∃ r ∈ report.partitions, r.index = slot) := by
  obtain ⟨hinspect, hsame⟩ := inspectBytes_decides.of_eq_ok hreport
  obtain ⟨hdel, rfl⟩ := (partitionDelete_decides hlt hsame.symm).of_eq_ok hdelete
  obtain ⟨report', hread, hplaces⟩ := partitionDelete_places hsame.symm hlt hdel
  refine ⟨report', hread, ?_⟩
  obtain ⟨r, hr, rfl⟩ := hdel.reported
  have hdense := hdel.dense
  subst hsame
  have hpos := reportOf_index_pos hr
  rw [hplaces, eraseIdx_exact_iff (reportOf_indices hinspect) (reportOf_places hinspect) hdense]
  exact position_eq_iff (reportOf_indices hinspect) (fun _ h => reportOf_index_pos h) hpos

end

def sparsePlan (firstLba : Nat) : PartitionPlan where
  role := .data
  name := []
  firstLba := firstLba
  sectorCount := 2048
  uniqueGuid := Vector.replicate 16 1
  bootable := false

theorem sparsePlan_short (h : firstLba < 2 ^ 32) : (sparsePlan firstLba).Short :=
  ⟨h, show 2048 < 2 ^ 32 by decide⟩

def sparseFields : List (Nat × List UInt8) :=
  [(446, (sparsePlan 2048).entryBytes), (478, (sparsePlan 4096).entryBytes),
    (494, (sparsePlan 6144).entryBytes), (510, mbrSignature)]

theorem sparseFields_laid : Laid 512 sparseFields :=
  ⟨by decide, by unfold sparseFields Apart; decide⟩

def sparseSector : List UInt8 := writeFields (List.replicate 512 0) sparseFields

theorem mbrSlot_sparseSector {i : Nat} {p : PartitionPlan}
    (hp : (446 + i * 16, p.entryBytes) ∈ sparseFields) : mbrSlot sparseSector i = p.entryBytes := by
  have hslot := sparseFields_laid.slice_zeros hp
  rwa [p.length_entryBytes] at hslot

theorem mbrSlot_sparseSector_unused : mbrSlot sparseSector 1 = replicate 16 0 :=
  sparseFields_laid.slice_gap (by decide) (by decide)

theorem mbrOf_sparseSector : mbrOf sparseSector =
    [some (sparsePlan 2048).mbrPartition, none, some (sparsePlan 4096).mbrPartition,
      some (sparsePlan 6144).mbrPartition] := by
  rw [mbrOf, show range 4 = [0, 1, 2, 3] from rfl, map_cons, map_cons, map_cons, map_cons,
    mbrSlot_sparseSector_unused, @mbrSlot_sparseSector 2 (sparsePlan 4096) (by decide),
    @mbrSlot_sparseSector 3 (sparsePlan 6144) (by decide)]
  rfl

theorem mbrFine_sparseSector : MbrFine sparseSector := by
  constructor
  · exact sparseFields_laid.slice_zeros (f := (510, mbrSignature)) (by decide)
  · have hused : ∀ {i firstLba : Nat}, firstLba < 2 ^ 32 →
        (446 + i * 16, (sparsePlan firstLba).entryBytes) ∈ sparseFields →
        MbrEntryFine (mbrSlot sparseSector i) := by
      intro i firstLba hlt hmem
      rw [mbrSlot_sparseSector hmem]
      exact (sparsePlan_short hlt).entryFine (Nat.succ_pos 2047)
    intro i hi
    match i with
    | 0 => exact @hused 0 2048 (by decide) (by decide)
    | 1 =>
      rw [mbrSlot_sparseSector_unused]
      exact ⟨.inl rfl, iff_of_true rfl (by decide)⟩
    | 2 => exact @hused 2 4096 (by decide) (by decide)
    | 3 => exact @hused 3 6144 (by decide) (by decide)

def sparseImage : List UInt8 := sparseSector ++ List.replicate (512 * 131071) 0

def sparseTable : PartitionTable where
  kind := .mbr
  diskGuid := none
  partitions := [(sparsePlan 2048).partition 0, (sparsePlan 4096).partition 2,
    (sparsePlan 6144).partition 3]

theorem length_sparseSector : sparseSector.length = 512 := sparseFields_laid.length_zeros

theorem length_sparseImage : sparseImage.length = 512 * 131072 := by
  rw [sparseImage, length_append, length_replicate, length_sparseSector]

theorem readPartitionTable_sparseImage :
    readPartitionTable (diskOf sparseImage) = (.ok sparseTable, diskOf sparseImage) := by
  have hcount := sectorCount_diskOf length_sparseImage
  have hsector : sectorAt (diskOf sparseImage) 0 = sparseSector := by
    rw [sectorAt]
    dsimp only [diskOf, sectorSize]
    rw [sparseImage, slice_append_left (by rw [length_sparseSector]),
      slice_full _ length_sparseSector.symm]
  have hprot : ¬Protected (diskOf sparseImage) := by
    rw [Protected, hsector, mbrOf_sparseSector]
    decide
  have htable : tableOf (diskOf sparseImage) = sparseTable := by
    rw [tableOf, if_neg hprot, mbrTableOf, hsector, mbrOf_sparseSector]
    rfl
  rw [← htable]
  have hdecides := readMbrTable_decides 131072 (mbrOf sparseSector)
  rw [mbrOf_sparseSector] at hdecides
  obtain ⟨⟨hslots, hapart⟩, _⟩ := hdecides.of_eq_ok (b := sparseTable) rfl
  apply readPartitionTable_decides.run_ok
  constructor
  · exact Nat.le_refl 512
  · rw [diskOf, length_sparseImage]
    decide
  · rw [hsector]
    exact mbrFine_sparseSector
  · rw [if_neg hprot]
    constructor
    · rw [hsector, hcount, mbrOf_sparseSector]
      exact hslots
    · rw [hsector, mbrOf_sparseSector]
      exact hapart

theorem inspectBytes_sparseImage :
    inspectBytes sparseImage = .ok (reportOf sparseImage sparseTable) := by
  apply inspectBytes_of_read
  · apply ne_nil_of_length_pos
    rw [length_sparseImage]
    decide
  · rw [length_sparseImage]
  · exact readPartitionTable_sparseImage

theorem sparseImage_writable :
    (layoutFromReport sampleSource 0 (reportOf sparseImage sparseTable)).Writable := by
  have hcount := sectorCount_diskOf length_sparseImage
  have hlast : (layoutFromReport sampleSource 0 (reportOf sparseImage sparseTable)).last = 131071 := by
    rw [reportOf, hcount]
    decide
  constructor
  · constructor
    · exact hcount.ge
    · intro _
      decide
    · intro hkind
      cases hkind
    · rw [hlast]
      exact ((validatePartitions_decides _ 0).of_eq_ok (b := ()) rfl).1
  · intro _
    exact ((mbrEntries_decides _).of_eq_ok rfl).1

theorem sparseImage_deletable {index : Nat} (h : index = 1 ∨ index = 3) :
    Deletable sampleSource 0 sparseImage (reportOf sparseImage sparseTable) index := by
  refine ⟨(inspectBytes_decides.of_eq_ok inspectBytes_sparseImage).1, ?_, ?_,
    deletePlan_writable sparseImage_writable⟩
  · rcases h with rfl | rfl
    · exact ⟨_, .head _, rfl⟩
    · exact ⟨_, .tail _ (.head _), rfl⟩
  · rcases h with rfl | rfl <;> decide

theorem partitionDelete_sparseImage {index : Nat} (h : index = 1 ∨ index = 3) :
    partitionDelete sampleSource 0 sparseImage index = .ok (layoutImage sparseImage
      (deletePlan sampleSource 0 (reportOf sparseImage sparseTable) index)) := by
  have hsame := (inspectBytes_decides.of_eq_ok inspectBytes_sparseImage).2
  apply (partitionDelete_decides ?_ hsame.symm).eq_ok (sparseImage_deletable h)
  rw [length_sparseImage]
  decide

/-- Before the first unused slot a deletion is exact. -/
theorem partitionDelete_exact_first :
    ∃ report bytes' report', inspectBytes sparseImage = .ok report ∧
      partitionDelete sampleSource 0 sparseImage 1 = .ok bytes' ∧
      inspectBytes bytes' = .ok report' ∧
      ∀ r ∈ report.partitions,
        r.place ∈ report'.partitions.map PartitionReport.place ↔ r.index ≠ 1 := by
  have hlt : sparseImage.length < 2 ^ 64 := by
    rw [length_sparseImage]
    decide
  obtain ⟨report', hread, hexact⟩ := partitionDelete_exact_iff hlt inspectBytes_sparseImage
    (partitionDelete_sparseImage (.inl rfl))
  refine ⟨_, _, report', inspectBytes_sparseImage, partitionDelete_sparseImage (.inl rfl), hread,
    hexact.mpr ?_⟩
  intro slot hge hle
  obtain rfl : slot = 1 := by omega
  exact ⟨_, .head _, rfl⟩

/-- Behind an unused slot the next partition is deleted instead. -/
theorem partitionDelete_removes_other :
    ∃ report bytes' report', inspectBytes sparseImage = .ok report ∧
      report.partitions.map (fun r => (r.index, r.place)) =
        [(1, ⟨2048, 2048, .data⟩), (3, ⟨4096, 2048, .data⟩), (4, ⟨6144, 2048, .data⟩)] ∧
      partitionDelete sampleSource 0 sparseImage 3 = .ok bytes' ∧
      inspectBytes bytes' = .ok report' ∧
      report'.partitions.map PartitionReport.place =
        [⟨2048, 2048, .data⟩, ⟨4096, 2048, .data⟩] := by
  have hlt : sparseImage.length < 2 ^ 64 := by
    rw [length_sparseImage]
    decide
  have hsame := (inspectBytes_decides.of_eq_ok inspectBytes_sparseImage).2
  obtain ⟨report', hread, hplaces⟩ :=
    partitionDelete_places hsame.symm hlt (sparseImage_deletable (.inr rfl))
  exact ⟨_, _, report', inspectBytes_sparseImage, rfl, partitionDelete_sparseImage (.inr rfl), hread,
    hplaces⟩

end NexOs.Host
