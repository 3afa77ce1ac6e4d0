import NexOs.Lib.Chunks
import NexOs.Storage.GptEncode
import NexOs.Storage.Windows

/-! A disk that carries a GUID partition table, and that every reader finds the
table there. -/
namespace NexOs.Storage
open List Bytes

/-- The entry array: the used slots first and zeros behind them. -/
def gptEntries (rows : List GptRow) : List UInt8 :=
  rows.flatMap GptRow.bytes ++ List.replicate (128 * (gptEntryCount - rows.length)) 0

variable {rows : List GptRow} {first last : Nat} {header : GptHeader}

theorem length_rows (rows : List GptRow) : (rows.flatMap GptRow.bytes).length = 128 * rows.length :=
  length_flatMap_chunks fun row _ => row.length_bytes

theorem length_gptEntries (h : rows.length ≤ gptEntryCount) : (gptEntries rows).length = 16384 := by
  rw [gptEntries, length_append, length_rows, length_replicate]
  dsimp only [gptEntryCount] at h ⊢
  omega

theorem slice_gptEntries_used {row : GptRow} (hi : rows[i]? = some row) :
    slice (gptEntries rows) (i * 128) 128 = row.bytes := by
  have hlt : i < rows.length := (List.getElem?_eq_some_iff.mp hi).1
  rw [gptEntries, slice_append_left (by rw [length_rows]; omega), Nat.mul_comm]
  exact slice_flatMap_chunks (fun row _ => row.length_bytes) hi

theorem slice_gptEntries_unused (hge : rows.length ≤ i) (hlt : i < gptEntryCount) :
    slice (gptEntries rows) (i * 128) 128 = replicate 128 0 := by
  have hlen := length_rows rows
  rw [gptEntries, slice_append_right (by omega), slice_replicate]
  omega

/-! ## What the entries decode to -/

namespace GptRow

def partition (row : GptRow) (i : Nat) : Partition where
  index := i + 1
  firstLba := row.firstLba
  sectorCount := row.lastLba - row.firstLba + 1
  bootable := false
  mbrType := none
  typeGuid := some row.typeGuid
  uniqueGuid := some row.uniqueGuid
  attributes := 0
  name := decodeGptName (slice row.bytes 56 72)

structure Fine (first last : Nat) (row : GptRow) : Prop where
  type_ne : ¬row.typeGuid.isZero
  unique_ne : ¬row.uniqueGuid.isZero
  first_ge : first ≤ row.firstLba
  ordered : row.firstLba ≤ row.lastLba
  last_le : row.lastLba ≤ last

theorem le_attributes (row : GptRow) : le row.bytes 48 8 = 0 := by
  apply le_of_slice_zero
  apply row.fields_laid.slice_gap (by decide)
  intro f hf
  rcases mem_append.mp hf with hfixed | hname
  · clear hf
    revert f
    simp
  · exact .inl (row.nameFields_range hname).1

variable {row : GptRow}

theorem Fine.entryOf (h : row.Fine first last) (hlast : last < 2 ^ 64)
    (hentry : header.entrySize = gptEntrySize) (i : Nat) :
    entryOf header row.bytes i = some (row.partition i) := by
  have hl := h.last_le
  have ho := h.ordered
  unfold Storage.entryOf entryPartition entryLast
  rw [row.guidAt_type, if_neg h.type_ne, row.guidAt_unique, row.le_first (by omega),
    row.le_last (by omega), row.le_attributes, hentry]
  rfl

theorem Fine.entryFine (h : row.Fine first last) (hpos : 0 < first) (hlast : last < 2 ^ 64)
    (hfirst : header.firstUsableLba = first) (hlast' : header.lastUsableLba = last) :
    EntryFine header row.bytes := by
  have hl := h.last_le
  have ho := h.ordered
  have hf := h.first_ge
  have hfield : le row.bytes 32 8 = row.firstLba := row.le_first (by omega)
  have hfield' : entryLast row.bytes = row.lastLba := row.le_last (by omega)
  constructor
  · rw [row.guidAt_unique]
    exact h.unique_ne
  all_goals omega

end GptRow

structure RowsFine (first last : Nat) (rows : List GptRow) : Prop where
  count_le : rows.length ≤ gptEntryCount
  fine : ∀ row ∈ rows, row.Fine first last
  apart : rows.Pairwise fun r s => r.lastLba < s.firstLba ∨ s.lastLba < r.firstLba

def rowPartitions (rows : List GptRow) : List Partition :=
  rows.zipIdx.map fun p => p.1.partition p.2

theorem reduceOption_slots {α β : Type} (xs : List α) (f : α → Nat → β) (n : Nat) :
    ((range n).map fun i => xs[i]?.map fun x => f x i).reduceOption =
      (xs.take n).zipIdx.map fun p => f p.1 p.2 := by
  induction n with
  | zero => rfl
  | succ n ih =>
    rw [range_succ, map_append, reduceOption_append, ih, take_add_one, zipIdx_append]
    cases hx : xs[n]? with
    | none => simp [hx]
    | some x =>
      have hlt : n < xs.length := (List.getElem?_eq_some_iff.mp hx).1
      simp [hx, Nat.min_eq_left hlt.le]

section

theorem isZero_guidAt_zeros : (guidAt (replicate 128 0) 0).isZero := by
  decide +kernel

variable (h : RowsFine first last rows)
include h

theorem entryOf_slot (hlast : last < 2 ^ 64) (hentry : header.entrySize = gptEntrySize)
    (hi : i < gptEntryCount) :
    entryOf header (entryAt header (gptEntries rows) i) i =
      rows[i]?.map fun row => row.partition i := by
  rw [entryAt, hentry]
  cases hrow : rows[i]? with
  | none =>
    rw [slice_gptEntries_unused (getElem?_eq_none_iff.mp hrow) hi, entryOf,
      if_pos isZero_guidAt_zeros, Option.map_none]
  | some row =>
    rw [slice_gptEntries_used hrow]
    exact (h.fine row (mem_of_getElem? hrow)).entryOf hlast hentry i

theorem partitionsOf_gptEntries (hlast : last < 2 ^ 64) (hcount : header.entryCount = gptEntryCount)
    (hentry : header.entrySize = gptEntrySize) :
    partitionsOf header (gptEntries rows) = rowPartitions rows := by
  have hslots := reduceOption_slots rows GptRow.partition gptEntryCount
  rw [take_of_length_le h.count_le] at hslots
  rw [partitionsOf, hcount, rowPartitions, ← hslots]
  apply congrArg reduceOption
  apply map_congr_left
  intro i hi
  exact entryOf_slot h hlast hentry (mem_range.mp hi)

theorem entriesFine_gptEntries (hpos : 0 < first) (hlast : last < 2 ^ 64)
    (hcount : header.entryCount = gptEntryCount) (hentry : header.entrySize = gptEntrySize)
    (hfirst : header.firstUsableLba = first) (hlast' : header.lastUsableLba = last) :
    EntriesFine header (gptEntries rows) := by
  intro i hi hused
  rw [hcount] at hi
  rw [entryAt, hentry] at hused ⊢
  cases hrow : rows[i]? with
  | none =>
    rw [slice_gptEntries_unused (getElem?_eq_none_iff.mp hrow) hi] at hused
    exact absurd isZero_guidAt_zeros hused
  | some row =>
    rw [slice_gptEntries_used hrow]
    exact (h.fine row (mem_of_getElem? hrow)).entryFine hpos hlast hfirst hlast'

theorem noOverlap_rowPartitions (hlast : last + 1 < 2 ^ 64) : NoOverlap (rowPartitions rows) := by
  have hmem : ∀ p ∈ rows.zipIdx, p.1.Fine first last := fun p hp =>
    h.fine p.1 (fst_mem_of_mem_zipIdx hp)
  constructor
  · intro p hp
    obtain ⟨slot, hslot, rfl⟩ := mem_map.mp hp
    have hl := (hmem slot hslot).last_le
    have ho := (hmem slot hslot).ordered
    dsimp only [GptRow.partition]
    omega
  · have hrows : rows.zipIdx.Pairwise fun p q =>
        p.1.lastLba < q.1.firstLba ∨ q.1.lastLba < p.1.firstLba := by
      rw [← pairwise_map (f := Prod.fst)
        (R := fun r s : GptRow => r.lastLba < s.firstLba ∨ s.lastLba < r.firstLba),
        zipIdx_map_fst]
      exact h.apart
    unfold rowPartitions
    rw [pairwise_map]
    apply hrows.imp_of_mem
    intro p q hp hq hpq
    have hop := (hmem p hp).ordered
    have hoq := (hmem q hq).ordered
    dsimp only [GptRow.partition, Partition.Apart]
    omega

end

/-! ## Disks -/

/-- The last address that partitions may use on a disk of `total` sectors: behind it
lie the backup entries and the backup header. -/
def gptLastUsable (total : Nat) : Nat := total - 34

/-- Both copies of the table are on the disk, with the protective MBR in front. -/
structure GptImage (d : Disk) (total : Nat) (guid : Guid) (rows : List GptRow) : Prop where
  size : d.sectorSize = 512
  count : d.sectorCount = total
  mbr : ∃ sectors, 0 < sectors ∧ sectors < 2 ^ 32 ∧ sectorAt d 0 = protectiveMbr sectors
  header : sectorAt d 1 = gptHeader 1 (total - 1) gptFirstUsableLba
    (gptLastUsable total) guid 2 (crc32 (gptEntries rows))
  entries : slice d.bytes (2 * 512) 16384 = gptEntries rows
  backup : sectorAt d (total - 1) = gptHeader (total - 1) 1 gptFirstUsableLba
    (gptLastUsable total) guid (total - 33) (crc32 (gptEntries rows))
  backupEntries : slice d.bytes ((total - 33) * 512) 16384 = gptEntries rows

def gptTable (guid : Guid) (rows : List GptRow) : PartitionTable where
  kind := .gpt
  diskGuid := some guid
  partitions := rowPartitions rows

variable {d : Disk} {total : Nat} {guid : Guid}

theorem mul_sectorCount_le (d : Disk) : d.sectorSize * d.sectorCount ≤ d.bytes.length :=
  Nat.mul_div_le _ _

def gptHeaderOf (current backup : Nat) (total : Nat) (guid : Guid) (entries : Nat)
    (crc : UInt32) : GptHeader where
  revision := 0x00010000
  headerSize := 92
  currentLba := current
  backupLba := backup
  firstUsableLba := gptFirstUsableLba
  lastUsableLba := gptLastUsable total
  diskGuid := guid
  entriesLba := entries
  entryCount := gptEntryCount
  entrySize := gptEntrySize
  entriesCrc32 := crc.toNat

theorem entrySectors_eq (hcount : header.entryCount = gptEntryCount)
    (hentry : header.entrySize = gptEntrySize) : entrySectors 512 header = 32 := by
  rw [entrySectors, hcount, hentry]
  rfl

theorem gptHeaderOf_bytes (current backup total : Nat) (guid : Guid) (entries : Nat)
    (crc : UInt32) : (gptHeaderOf current backup total guid entries crc).entryCount *
      (gptHeaderOf current backup total guid entries crc).entrySize = 16384 := by
  have hbytes : gptEntryCount * gptEntrySize = 16384 := by decide
  exact hbytes

theorem gptLastUsable_lt (h : 34 ≤ total) : gptLastUsable total < total := by
  rw [gptLastUsable]
  omega

theorem gptFirst_le_last (h : 68 ≤ total) : gptFirstUsableLba ≤ gptLastUsable total := by
  dsimp only [gptFirstUsableLba, gptLastUsable]
  omega

variable (h : GptImage d total guid rows)
include h

theorem GptImage.entryArray_eq (current backup : Nat) (crc : UInt32) :
    entryArray d (gptHeaderOf current backup total guid 2 crc) = gptEntries rows := by
  have hentries := h.entries
  rw [entryArray, h.size, entrySectors_eq rfl rfl]
  exact hentries

theorem GptImage.primaryHeader (hmin : 68 ≤ total) (hlt : total < 2 ^ 64) :
    headerOf (sectorAt d 1) =
      gptHeaderOf 1 (total - 1) total guid 2 (crc32 (gptEntries rows)) := by
  have hlast := gptLastUsable_lt (show 34 ≤ total by omega)
  rw [h.header, headerOf_gptHeader (by decide) (by omega) (by decide) (by omega) (by decide),
    gptHeaderOf]

theorem GptImage.protected : Protected d := by
  obtain ⟨sectors, _, hbound, hmbr⟩ := h.mbr
  rw [Protected, hmbr]
  rfl

variable (hrows : RowsFine gptFirstUsableLba (gptLastUsable total) rows) (hmin : 68 ≤ total)
  (hlt : total < 2 ^ 64)
include hrows hmin hlt

theorem GptImage.gptFine :
    GptFine d (gptHeaderOf 1 (total - 1) total guid 2 (crc32 (gptEntries rows))) := by
  have hsectors : entrySectors d.sectorSize (gptHeaderOf 1 (total - 1) total guid 2
      (crc32 (gptEntries rows))) = 32 := by
    rw [h.size]
    exact entrySectors_eq rfl rfl
  have hlast := gptLastUsable_lt (show 34 ≤ total by omega)
  have hfull := slice_full (gptEntries rows) (length_gptEntries hrows.count_le).symm
  constructor
  · rfl
  · rw [h.count]
    dsimp only [gptHeaderOf]
    omega
  · rw [h.count]
    exact hlast
  · exact le_refl 2
  · rw [h.size]
    dsimp only [gptHeaderOf]
    decide
  · rw [hsectors]
    dsimp only [gptHeaderOf]
    decide
  · rw [hsectors, h.count]
    dsimp only [gptHeaderOf]
    omega
  · rw [hsectors]
    exact le_refl 34
  · rw [hsectors, h.size]
    decide
  · rw [h.entryArray_eq, gptHeaderOf_bytes, hfull]
    rfl
  · rw [h.entryArray_eq]
    exact entriesFine_gptEntries hrows (by decide) (by omega) rfl rfl rfl rfl
  · rw [h.entryArray_eq, partitionsOf_gptEntries hrows (by omega) rfl rfl]
    exact noOverlap_rowPartitions hrows (by omega)

theorem GptImage.tableDisk : TableDisk d := by
  obtain ⟨sectors, hpos, hbound, hmbr⟩ := h.mbr
  have hcount := mul_sectorCount_le d
  rw [h.size, h.count] at hcount
  have hlast := gptLastUsable_lt (show 34 ≤ total by omega)
  have hfine := h.gptFine hrows hmin hlt
  constructor
  · rw [h.size]
  · rw [h.size]
    omega
  · rw [hmbr]
    exact mbrFine_protectiveMbr hpos hbound
  · rw [if_pos h.protected]
    constructor
    · rw [h.size]
      omega
    · rw [h.header]
      exact headerFine_gptHeader (by decide) (by omega) (by decide) (by omega) (by decide) (by omega)
        (gptFirst_le_last hmin)
    · rw [h.primaryHeader hmin hlt]
      exact hfine

theorem GptImage.read_ok : readPartitionTable d = (.ok (gptTable guid rows), d) := by
  have hlast := gptLastUsable_lt (show 34 ≤ total by omega)
  rw [readPartitionTable_decides.run_ok (h.tableDisk hrows hmin hlt), tableOf,
    if_pos h.protected, h.primaryHeader hmin hlt, gptTableOf, h.entryArray_eq,
    partitionsOf_gptEntries hrows (by omega) rfl rfl]
  rfl

theorem GptImage.backup_decodes :
    ∃ header, parseGptHeader (sectorAt d (total - 1)) = .ok header ∧
      header.diskGuid = guid ∧
      header.entriesLba * 512 + 16384 ≤ d.bytes.length ∧
      (crc32 (slice d.bytes (header.entriesLba * 512) 16384)).toNat = header.entriesCrc32 ∧
      decodeGptEntries header (slice d.bytes (header.entriesLba * 512) 16384) =
        .ok (rowPartitions rows) := by
  have hlast := gptLastUsable_lt (show 34 ≤ total by omega)
  have hcount := mul_sectorCount_le d
  rw [h.size, h.count] at hcount
  have hlen := length_gptEntries hrows.count_le
  refine ⟨gptHeaderOf (total - 1) 1 total guid (total - 33)
    (crc32 (gptEntries rows)), ?_, rfl, ?_, ?_, ?_⟩
  · have hfine : HeaderFine (sectorAt d (total - 1)) := by
      rw [h.backup]
      exact headerFine_gptHeader (by omega) (by decide) (by decide) (by omega) (by omega) (by omega)
        (gptFirst_le_last hmin)
    have hsector : 92 ≤ (sectorAt d (total - 1)).length := by
      rw [h.backup, length_gptHeader]
      decide
    rw [(parseGptHeader_decides hsector).eq_ok hfine, h.backup,
      headerOf_gptHeader (by omega) (by decide) (by decide) (by omega) (by omega), gptHeaderOf]
  · dsimp only [gptHeaderOf]
    omega
  · dsimp only [gptHeaderOf]
    rw [h.backupEntries]
  · have hfine : EntriesFine (gptHeaderOf (total - 1) 1 total guid
        (total - 33) (crc32 (gptEntries rows))) (gptEntries rows) :=
      entriesFine_gptEntries hrows (by decide) (by omega) rfl rfl rfl rfl
    have hbackup : slice d.bytes ((gptHeaderOf (total - 1) 1 total guid
        (total - 33) (crc32 (gptEntries rows))).entriesLba * 512) 16384 =
        gptEntries rows := h.backupEntries
    have hcover := (gptHeaderOf_bytes (total - 1) 1 total guid (total - 33)
      (crc32 (gptEntries rows))).le.trans hlen.ge
    have hsmall : gptEntryCount ≤ 4096 := by decide
    rw [hbackup, (decodeGptEntries_decides hsmall (le_refl 128) hsmall hcover).eq_ok hfine,
      partitionsOf_gptEntries hrows (by omega) rfl rfl]

end NexOs.Storage
