import Mathlib.Tactic.IntervalCases
import NexOs.Storage.InstallerRuns

/-! The verifier of the guided installation against the general reader: what has to
hold of a verified disk for the reader to find exactly the expected table. -/
namespace NexOs.Storage
open List hiding Vector
open Bytes

/-- The general reader finds the expected partitions and no others. -/
def ReadsAs (expected : InstallerLayout) (d : Disk) : Prop :=
  ∃ table, readPartitionTable d = (.ok table, d) ∧ table.kind = .gpt ∧
    table.diskGuid = some expected.diskGuid ∧ table.partitions.map Partition.span = expected.spans

def slotAt (d : Disk) (header : GptHeader) (i : Nat) : List UInt8 :=
  entryAt header (entryArray d header) i

/-- What the reader tests and the verifier does not. -/
structure Unverified (expected : InstallerLayout) (d : Disk) (header : GptHeader) : Prop where
  last_lt : header.lastUsableLba < d.sectorCount
  entries_ge : 2 ≤ header.entriesLba
  entries_before : header.entriesLba + gptEntrySectors ≤ header.firstUsableLba
  first_ge : ∀ span ∈ expected.spans, header.firstUsableLba ≤ span.firstLba
  stop_le : ∀ span ∈ expected.spans, span.firstLba + span.sectorCount ≤ header.lastUsableLba + 1
  unique_ne : ∀ i < 3, ¬(guidAt (slotAt d header i) 16).isZero
  unused : ∀ i, 3 ≤ i → i < gptEntryCount → (guidAt (slotAt d header i) 0).isZero
  apart : expected.spans.Pairwise fun s t =>
    s.firstLba + s.sectorCount ≤ t.firstLba ∨ t.firstLba + t.sectorCount ≤ s.firstLba

section
variable {d : Disk} {expected : InstallerLayout} {header : GptHeader}

structure SlotsMatch (expected : InstallerLayout) (d : Disk) (header : GptHeader) : Prop where
  bios : EntryMatches biosBootTypeGuid expected.bios (slotAt d header 0)
  esp : EntryMatches espTypeGuid expected.esp (slotAt d header 1)
  root : EntryMatches nexfsTypeGuid expected.root (slotAt d header 2)

theorem PrimaryVerified.slotAt_eq (h : PrimaryVerified expected d header)
    (hsize : d.sectorSize = 512) (hi : i < 4) :
    slotAt d header i = slice (sectorAt d header.entriesLba) (i * 128) 128 := by
  rw [slotAt, entryAt, h.entry, entryArray_of_counts hsize h.count h.entry, sectorAt, hsize,
    slice_slice (by dsimp only [gptEntrySectors, gptEntrySize]; omega), slice_slice (by omega)]

theorem PrimaryVerified.slotsMatch (h : PrimaryVerified expected d header)
    (hsize : d.sectorSize = 512) : SlotsMatch expected d header := by
  have hsector := (h.sectors 0 (by decide)).2.2 rfl
  constructor
  · rw [h.slotAt_eq hsize (by decide)]
    exact hsector.bios
  · rw [h.slotAt_eq hsize (by decide)]
    exact hsector.esp
  · rw [h.slotAt_eq hsize (by decide)]
    exact hsector.root

variable {typeGuid : Guid} {span : PartitionSpan} {entry : List UInt8}

theorem EntryMatches.entryOf (h : EntryMatches typeGuid span entry) (header : GptHeader)
    (htype : ¬typeGuid.isZero) (i : Nat) :
    entryOf header entry i = some (entryPartition header entry i) ∧
      (entryPartition header entry i).span = span := by
  have hfirst := h.first_eq
  have hlast := h.last_eq
  have hpos := h.count_pos
  constructor
  · rw [Storage.entryOf, h.type_eq, if_neg htype]
  · dsimp only [entryPartition, Partition.span]
    rw [hfirst, hlast]
    congr 1
    omega

def otherPartitions (d : Disk) (header : GptHeader) : List Partition :=
  ((List.range 125).map fun i => entryOf header (slotAt d header (3 + i)) (3 + i)).reduceOption

theorem SlotsMatch.partitionsOf (h : SlotsMatch expected d header)
    (hcount : header.entryCount = gptEntryCount) :
    ∃ bios esp root, partitionsOf header (entryArray d header) =
        bios :: esp :: root :: otherPartitions d header ∧
      bios.span = expected.bios ∧ esp.span = expected.esp ∧ root.span = expected.root := by
  have ⟨hbt, het, hrt⟩ := typeGuids_ne_zero
  have ⟨hbios, hbiosSpan⟩ := h.bios.entryOf header hbt 0
  have ⟨hesp, hespSpan⟩ := h.esp.entryOf header het 1
  have ⟨hroot, hrootSpan⟩ := h.root.entryOf header hrt 2
  refine ⟨_, _, _, ?_, hbiosSpan, hespSpan, hrootSpan⟩
  have hrange : range gptEntryCount = 0 :: 1 :: 2 :: (range 125).map (3 + ·) := by
    decide
  rw [Storage.partitionsOf, hcount, hrange]
  change (entryOf header (slotAt d header 0) 0 :: entryOf header (slotAt d header 1) 1 ::
    entryOf header (slotAt d header 2) 2 :: ((range 125).map (3 + ·)).map fun i =>
      entryOf header (slotAt d header i) i).reduceOption = _
  rw [hbios, hesp, hroot, reduceOption_cons_of_some, reduceOption_cons_of_some,
    reduceOption_cons_of_some, map_map, otherPartitions, Function.comp_def]

theorem otherPartitions_eq_nil : otherPartitions d header = [] ↔
    ∀ i, 3 ≤ i → i < gptEntryCount → (guidAt (slotAt d header i) 0).isZero := by
  unfold otherPartitions
  rw [reduceOption, filterMap_eq_nil_iff]
  constructor
  · intro h i hge hi
    have hnone := h _ (mem_map_of_mem (mem_range.mpr (show i - 3 < 125 by
      dsimp only [gptEntryCount] at hi
      omega)))
    rw [show 3 + (i - 3) = i by omega] at hnone
    by_contra hused
    rw [entryOf, if_neg hused] at hnone
    cases hnone
  · intro h p hp
    obtain ⟨i, hi, rfl⟩ := mem_map.mp hp
    have := mem_range.mp hi
    rw [id, entryOf, if_pos (h (3 + i) (by omega) (by dsimp only [gptEntryCount]; omega))]

theorem EntryMatches.entryFine_iff (h : EntryMatches typeGuid span entry)
    (hpos : 0 < header.firstUsableLba) :
    EntryFine header entry ↔ ¬(guidAt entry 16).isZero ∧ header.firstUsableLba ≤ span.firstLba ∧
      span.firstLba + span.sectorCount ≤ header.lastUsableLba + 1 := by
  have hfirst := h.first_eq
  have hlast := h.last_eq
  have hcount := h.count_pos
  have hlt := h.last_lt
  constructor
  · intro hf
    have := hf.first_ge
    have := hf.last_le
    exact ⟨hf.unique, by omega, by omega⟩
  · rintro ⟨hunique, hge, hle⟩
    exact ⟨hunique, by omega, by omega, by omega, by omega⟩

theorem SlotsMatch.entriesFine (h : SlotsMatch expected d header)
    (hcount : header.entryCount = gptEntryCount) (hpos : 0 < header.firstUsableLba)
    (hopen : Unverified expected d header) : EntriesFine header (entryArray d header) := by
  obtain ⟨hbios, hesp, hroot⟩ := InstallerLayout.forall_spans.mp hopen.first_ge
  obtain ⟨hbios', hesp', hroot'⟩ := InstallerLayout.forall_spans.mp hopen.stop_le
  intro i hi hused
  by_cases hlow : i < 3
  · have hunique := hopen.unique_ne i hlow
    interval_cases i
    · exact (h.bios.entryFine_iff hpos).mpr ⟨hunique, hbios, hbios'⟩
    · exact (h.esp.entryFine_iff hpos).mpr ⟨hunique, hesp, hesp'⟩
    · exact (h.root.entryFine_iff hpos).mpr ⟨hunique, hroot, hroot'⟩
  · rw [hcount] at hi
    exact absurd (hopen.unused i (by omega) hi) hused

theorem Verified.protected (h : Verified expected d) : Protected d := by
  obtain ⟨entry, hmem, hcovers⟩ := any_eq_true.mp h.covers
  rw [Protected, any_eq_true]
  refine ⟨entry, hmem, ?_⟩
  cases entry with
  | none => cases hcovers
  | some entry => exact (Bool.and_eq_true_iff.mp hcovers).1

theorem noOverlap_of_spans {partitions : List Partition} {spans : List PartitionSpan}
    (hspans : partitions.map Partition.span = spans)
    (hlt : ∀ span ∈ spans, span.firstLba + span.sectorCount < 2 ^ 64)
    (hapart : spans.Pairwise fun s t =>
      s.firstLba + s.sectorCount ≤ t.firstLba ∨ t.firstLba + t.sectorCount ≤ s.firstLba) :
    NoOverlap partitions := by
  subst hspans
  constructor
  · intro p hp
    exact hlt p.span (mem_map_of_mem hp)
  · rw [pairwise_map] at hapart
    exact hapart

theorem Verified.gptFine (h : Verified expected d) (hcount : d.sectorCount < 2 ^ 64)
    (hopen : Unverified expected d (headerOf (sectorAt d 1))) :
    GptFine d (headerOf (sectorAt d 1)) ∧
      (gptTableOf d (headerOf (sectorAt d 1))).partitions.map Partition.span = expected.spans := by
  have hprimary := h.primary
  have hsector := hprimary.sectors 31 (by decide)
  have hslots := hprimary.slotsMatch h.size
  generalize headerOf (sectorAt d 1) = header at *
  have hbefore := hopen.entries_before
  have hentries := hopen.entries_ge
  have hlast := hopen.last_lt
  have hsectors : entrySectors d.sectorSize header = 32 := by
    rw [h.size]
    exact entrySectors_eq hprimary.count hprimary.entry
  have hbytes : header.entryCount * header.entrySize = 16384 := by
    rw [hprimary.count, hprimary.entry]
    decide
  have hinside : header.entriesLba + 32 ≤ d.sectorCount := by
    have hend := hsector.2.1
    rw [h.size] at hend
    rw [Disk.sectorCount, h.size, Nat.le_div_iff_mul_le (by decide)]
    calc (header.entriesLba + 32) * 512 = (header.entriesLba + 31) * 512 + 512 := by
          rw [Nat.succ_mul]
      _ ≤ d.bytes.length := hend
  have hlength : (entryArray d header).length = 16384 := by
    have hend := le_of_sectorCount hinside
    rw [Nat.add_mul] at hend
    rw [entryArray, hsectors, length_slice hend, h.size]
  obtain ⟨bios, esp, root, hparts, hbios, hesp, hroot⟩ := hslots.partitionsOf hprimary.count
  have hspans : (partitionsOf header (entryArray d header)).map Partition.span =
      expected.spans := by
    rw [hparts, otherPartitions_eq_nil.mpr hopen.unused, map_cons, map_cons, map_cons,
      map_nil, hbios, hesp, hroot, InstallerLayout.spans]
  have hstop : ∀ span ∈ expected.spans, span.firstLba + span.sectorCount < 2 ^ 64 := by
    intro span hspan
    have := hopen.stop_le span hspan
    omega
  refine ⟨?_, hspans⟩
  constructor
  · exact hprimary.current
  · rw [hprimary.backup]
    omega
  · exact hlast
  · exact hentries
  · rw [hbytes, h.size]
    decide
  · omega
  · rw [hsectors]
    exact hinside
  · rw [hsectors]
    exact hbefore
  · rw [hsectors, h.size]
    decide
  · rw [hbytes, slice_full]
    · exact hprimary.checksum
    · exact hlength.symm
  · exact hslots.entriesFine hprimary.count (by omega) hopen
  · exact noOverlap_of_spans hspans hstop hopen.apart

theorem Verified.unverified (h : Verified expected d) (hread : ReadsAs expected d) :
    Unverified expected d (headerOf (sectorAt d 1)) := by
  obtain ⟨table, hrun, _, _, hspans⟩ := hread
  obtain ⟨hdisk, rfl, _⟩ := readPartitionTable_decides.of_run_ok hrun
  have htable := hdisk.table
  rw [if_pos h.protected] at htable
  rw [tableOf, if_pos h.protected] at hspans
  have hfine := htable.table
  have hprimary := h.primary
  have hslots := hprimary.slotsMatch h.size
  generalize headerOf (sectorAt d 1) = header at *
  have hsectors : entrySectors d.sectorSize header = 32 := by
    rw [h.size]
    exact entrySectors_eq hprimary.count hprimary.entry
  have hbefore := hfine.before
  have hentries := hfine.entries_ge
  rw [hsectors] at hbefore
  obtain ⟨bios, esp, root, hparts, hbios, hesp, hroot⟩ := hslots.partitionsOf hprimary.count
  have hothers : otherPartitions d header = [] := by
    have hlength := congrArg length hspans
    rw [gptTableOf, hparts] at hlength
    simpa [InstallerLayout.spans] using hlength
  obtain ⟨hbt, het, hrt⟩ := typeGuids_ne_zero
  have hslot : ∀ (i : Nat) {typeGuid : Guid} {span : PartitionSpan}, i < 128 → ¬typeGuid.isZero →
      EntryMatches typeGuid span (slotAt d header i) →
      ¬(guidAt (slotAt d header i) 16).isZero ∧ header.firstUsableLba ≤ span.firstLba ∧
        span.firstLba + span.sectorCount ≤ header.lastUsableLba + 1 := by
    intro i typeGuid span hi hne hmatch
    apply (hmatch.entryFine_iff (by omega)).mp
    apply hfine.entries i (by rw [hprimary.count]; exact hi)
    change ¬(guidAt (slotAt d header i) 0).isZero
    rw [hmatch.type_eq]
    exact hne
  have hb := hslot 0 (by decide) hbt hslots.bios
  have he := hslot 1 (by decide) het hslots.esp
  have hr := hslot 2 (by decide) hrt hslots.root
  constructor
  · exact hfine.last
  · exact hentries
  · exact hbefore
  · simp only [InstallerLayout.spans, forall_mem_cons, not_mem_nil, false_imp_iff,
      implies_true, and_true]
    exact ⟨hb.2.1, he.2.1, hr.2.1⟩
  · simp only [InstallerLayout.spans, forall_mem_cons, not_mem_nil, false_imp_iff,
      implies_true, and_true]
    exact ⟨hb.2.2, he.2.2, hr.2.2⟩
  · intro i hi
    interval_cases i
    · exact hb.1
    · exact he.1
    · exact hr.1
  · exact otherPartitions_eq_nil.mp hothers
  · rw [← hspans, pairwise_map]
    exact hfine.apart.apart

/-- A disk that the verifier accepts reads as the expected table exactly when the points
that it does not test are in order too. -/
theorem verified_reads_iff (d : Disk) (expected : InstallerLayout) (hcount : d.sectorCount < 2 ^ 64)
    (hverify : verifyGuidedInstallerGpt expected d = (.ok (), d)) :
    ReadsAs expected d ↔ Unverified expected d (headerOf (sectorAt d 1)) := by
  have h : Verified expected d := ((verifyGuidedInstallerGpt_accepts d expected () d).mp hverify).1
  constructor
  · exact h.unverified
  · intro hopen
    obtain ⟨hfine, hspans⟩ := h.gptFine hcount hopen
    have hdisk : TableDisk d := by
      constructor
      · exact h.size.ge
      · exact h.mbr_on
      · exact h.mbr
      · rw [if_pos h.protected]
        exact ⟨h.header_on, h.header, hfine⟩
    refine ⟨tableOf d, readPartitionTable_decides.run_ok hdisk, ?_, ?_, ?_⟩
    · rw [tableOf, if_pos h.protected]
      rfl
    · rw [tableOf, if_pos h.protected]
      exact congrArg some h.primary.guid
    · rw [tableOf, if_pos h.protected]
      exact hspans

end

/-! ## Samples -/

def sampleLayout : InstallerLayout := guidedLayout 262144 sampleGuids.disk

def sampleDisk (others : List GptRow) : Disk :=
  (Disk.zeroed 262144 512).putAll
    (gptWrites 262144 sampleLayout.diskGuid (installerRows sampleGuids sampleLayout ++ others))

variable {others : List GptRow}

theorem sampleDisk_image (h : others.length ≤ 125) :
    GptImage (sampleDisk others) 262144 sampleLayout.diskGuid
      (installerRows sampleGuids sampleLayout ++ others) := by
  apply gptImage_putAll rfl (sectorCount_zeroed 262144) (by decide)
  rw [length_append]
  change 3 + others.length ≤ 128
  omega

theorem sampleDisk_verified (h : others.length ≤ 125) :
    verifyGuidedInstallerGpt sampleLayout (sampleDisk others) = (.ok (), sampleDisk others) := by
  have hmatch := (guidedLayout_fine (le_refl 262144) sampleGuids.disk).rowsMatch (by decide)
    sampleGuids
  have hrows : RowsMatch sampleLayout (installerRows sampleGuids sampleLayout ++ others) :=
    ⟨hmatch.bios, hmatch.esp, hmatch.root⟩
  exact (verifyGuidedInstallerGpt_accepts _ _).run_ok
    ((sampleDisk_image h).verified hrows (by decide) (by decide))

/-- The guided table itself. -/
theorem verified_reads_iff_guided :
    verifyGuidedInstallerGpt sampleLayout (sampleDisk []) = (.ok (), sampleDisk []) ∧
      (ReadsAs sampleLayout (sampleDisk []) ↔
        Unverified sampleLayout (sampleDisk []) (headerOf (sectorAt (sampleDisk []) 1))) := by
  have hverify := sampleDisk_verified (show ([] : List GptRow).length ≤ 125 by decide)
  have hcount := (sampleDisk_image (show ([] : List GptRow).length ≤ 125 by decide)).count
  exact ⟨hverify, verified_reads_iff _ _ (by rw [hcount]; decide) hverify⟩

def overlappingRow : GptRow :=
  ⟨nexfsTypeGuid, Vector.replicate 16 5, sampleLayout.root.firstLba, sampleLayout.root.last, []⟩

/-- The verifier accepts a table with a fourth entry over the root partition, and the
reader does not find the expected table. -/
theorem verifier_accepts_overlap :
    verifyGuidedInstallerGpt sampleLayout (sampleDisk [overlappingRow]) =
        (.ok (), sampleDisk [overlappingRow]) ∧
      ¬ReadsAs sampleLayout (sampleDisk [overlappingRow]) := by
  have hverify := sampleDisk_verified (show [overlappingRow].length ≤ 125 by decide)
  have himage := sampleDisk_image (show [overlappingRow].length ≤ 125 by decide)
  refine ⟨hverify, ?_⟩
  intro hread
  have hverified := ((verifyGuidedInstallerGpt_accepts _ _ () _).mp hverify).1
  have hunused := (hverified.unverified hread).unused 3 (by decide) (by decide)
  rw [himage.primaryHeader (by decide) (by decide), slotAt, himage.entryArray_eq, entryAt] at hunused
  have hslot : slice (gptEntries (installerRows sampleGuids sampleLayout ++ [overlappingRow]))
      (3 * 128) 128 = overlappingRow.bytes := slice_gptEntries_used rfl
  dsimp only [gptHeaderOf] at hunused
  rw [hslot] at hunused
  exact typeGuids_ne_zero.2.2 hunused

end NexOs.Storage
