import NexOs.Storage.GptImage
import NexOs.Storage.Sectors

/-! Writing both copies of a GUID partition table, a sector at a time. -/
namespace NexOs.Storage
open List Bytes

def entrySectorOf (rows : List GptRow) (i : Nat) : List UInt8 := slice (gptEntries rows) (i * 512) 512

def entryWrites (total : Nat) (sector : Nat → List UInt8) : List (Nat × List UInt8) :=
  (List.range gptEntrySectors).flatMap fun i => [(2 + i, sector i), (total - 33 + i, sector i)]

def headerWrites (total : Nat) (guid : Guid) (crc : UInt32) : List (Nat × List UInt8) :=
  [(0, protectiveMbr (min (total - 1) (2 ^ 32 - 1))),
    (1, gptHeader 1 (total - 1) gptFirstUsableLba (gptLastUsable total) guid 2 crc),
    (total - 1, gptHeader (total - 1) 1 gptFirstUsableLba (gptLastUsable total) guid (total - 33) crc)]

def gptWrites (total : Nat) (guid : Guid) (rows : List GptRow) : List (Nat × List UInt8) :=
  entryWrites total (entrySectorOf rows) ++ headerWrites total guid (crc32 (gptEntries rows))

variable {total : Nat} {guid : Guid} {rows : List GptRow} {sector : Nat → List UInt8} {d : Disk}

theorem mem_entryWrites : w ∈ entryWrites total sector ↔
      ∃ i < gptEntrySectors, w = (2 + i, sector i) ∨ w = (total - 33 + i, sector i) := by
  simp [entryWrites]

theorem entryWrites_nodup (hmin : 68 ≤ total) :
    ((entryWrites total sector).map Prod.fst).Nodup := by
  unfold entryWrites
  rw [map_flatMap, nodup_flatMap]
  constructor
  · intro i hi
    simp only [map_cons, map_nil, nodup_cons, mem_singleton, not_mem_nil,
      not_false_eq_true, nodup_nil, and_true]
    omega
  · apply pairwise_lt_range.imp_of_mem
    intro i j hi hj hlt
    have := mem_range.mp hj
    dsimp only [gptEntrySectors] at this
    simp only [map_cons, map_nil, disjoint_cons_left,
      mem_cons, not_mem_nil, or_false, disjoint_nil_left, and_true]
    omega

theorem gptWrites_nodup (hmin : 68 ≤ total) : ((gptWrites total guid rows).map Prod.fst).Nodup := by
  unfold gptWrites
  rw [map_append, nodup_append]
  refine ⟨entryWrites_nodup hmin, ?_, ?_⟩
  · simp only [headerWrites, map_cons, map_nil, nodup_cons, mem_cons,
      not_mem_nil, or_false, not_false_eq_true, nodup_nil, and_true]
    omega
  · intro a ha b hb
    obtain ⟨w, hw, rfl⟩ := mem_map.mp ha
    obtain ⟨i, hi, hcase⟩ := mem_entryWrites.mp hw
    have hlba : w.1 = 2 + i ∨ w.1 = total - 33 + i := by
      rcases hcase with rfl | rfl
      · exact .inl rfl
      · exact .inr rfl
    dsimp only [gptEntrySectors] at hi
    simp only [headerWrites, map_cons, map_nil, mem_cons, not_mem_nil, or_false] at hb
    omega

theorem length_entrySectorOf (hcount : rows.length ≤ gptEntryCount)
    (hi : i < gptEntrySectors) : (entrySectorOf rows i).length = 512 := by
  apply length_slice
  rw [length_gptEntries hcount]
  dsimp only [gptEntrySectors] at hi
  omega

theorem gptWrites_distinct (hsize : d.sectorSize = 512) (hcount : d.sectorCount = total)
    (hmin : 68 ≤ total) (hrows : rows.length ≤ gptEntryCount) :
    Distinct d (gptWrites total guid rows) := by
  constructor
  · intro w hw
    rw [hsize]
    rcases mem_append.mp hw with hentry | hheader
    · obtain ⟨i, hi, rfl | rfl⟩ := mem_entryWrites.mp hentry
      · exact length_entrySectorOf hrows hi
      · exact length_entrySectorOf hrows hi
    · simp only [headerWrites, mem_cons, not_mem_nil, or_false] at hheader
      rcases hheader with rfl | rfl | rfl
      · exact length_protectiveMbr
      · exact length_gptHeader
      · exact length_gptHeader
  · intro w hw
    rw [hcount]
    rcases mem_append.mp hw with hentry | hheader
    · obtain ⟨i, hi, rfl | rfl⟩ := mem_entryWrites.mp hentry
      · dsimp only [gptEntrySectors] at hi ⊢
        omega
      · dsimp only [gptEntrySectors] at hi ⊢
        omega
    · simp only [headerWrites, mem_cons, not_mem_nil, or_false] at hheader
      rcases hheader with rfl | rfl | rfl
      · omega
      · omega
      · exact Nat.sub_lt (by omega) (by decide)
  · exact gptWrites_nodup hmin

theorem flatMap_entrySectorOf (hcount : rows.length ≤ gptEntryCount) :
    (range gptEntrySectors).flatMap (entrySectorOf rows) = gptEntries rows := by
  have hlen := length_gptEntries hcount
  have hslices : ∀ n, (range n).flatMap (entrySectorOf rows) =
      slice (gptEntries rows) 0 (n * 512) := by
    intro n
    induction n with
    | zero => simp [slice]
    | succ n ih =>
      rw [range_succ, flatMap_append, ih, flatMap_singleton, Nat.succ_mul, slice_add,
        Nat.zero_add, entrySectorOf]
  rw [hslices, slice_full _ (hlen ▸ rfl)]

theorem gptImage_putAll (hsize : d.sectorSize = 512) (hcount : d.sectorCount = total)
    (hmin : 68 ≤ total) (hrows : rows.length ≤ gptEntryCount) :
    GptImage (d.putAll (gptWrites total guid rows)) total guid rows := by
  have hd : Distinct d (gptWrites total guid rows) := gptWrites_distinct hsize hcount hmin hrows
  have hsize' : (d.putAll (gptWrites total guid rows)).sectorSize = 512 := by
    rw [Disk.sectorSize_putAll, hsize]
  have harray : ∀ start, (∀ i < gptEntrySectors, (start + i, entrySectorOf rows i) ∈
      gptWrites total guid rows) →
      slice (d.putAll (gptWrites total guid rows)).bytes (start * 512) 16384 = gptEntries rows := by
    intro start hmem
    have hsectors := slice_eq_sectors (d.putAll (gptWrites total guid rows)) start gptEntrySectors
    rw [hsize'] at hsectors
    rw [show 16384 = gptEntrySectors * 512 from rfl, hsectors, ← flatMap_entrySectorOf hrows]
    apply flatMap_congr
    intro i hi
    exact hd.sectorAt_putAll (hmem i (mem_range.mp hi))
  have hheaders : ∀ w ∈ headerWrites total guid (crc32 (gptEntries rows)),
      sectorAt (d.putAll (gptWrites total guid rows)) w.1 = w.2 := by
    intro w hw
    exact hd.sectorAt_putAll (mem_append_right _ hw)
  constructor
  · exact hsize'
  · rw [Disk.sectorCount_putAll hd.takes, hcount]
  · refine ⟨min (total - 1) (2 ^ 32 - 1), ?_, ?_, hheaders _ mem_cons_self⟩
    · exact Nat.lt_min.mpr ⟨by omega, by decide⟩
    · exact Nat.lt_of_le_of_lt (Nat.min_le_right _ _) (by decide)
  · exact hheaders _ (mem_cons_of_mem _ mem_cons_self)
  · exact harray 2 fun i hi => mem_append_left _ (mem_entryWrites.mpr ⟨i, hi, .inl rfl⟩)
  · exact hheaders _ (mem_cons_of_mem _ (mem_cons_of_mem _ mem_cons_self))
  · exact harray (total - 33) fun i hi =>
      mem_append_left _ (mem_entryWrites.mpr ⟨i, hi, .inr rfl⟩)

end NexOs.Storage
