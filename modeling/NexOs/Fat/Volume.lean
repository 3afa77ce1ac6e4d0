import NexOs.Lib.Hoare
import NexOs.Storage.Fat32
import NexOs.Storage.Sectors

/-! The two parts of a FAT32 volume, its allocation table and its clusters, and what
the primitive operations do to them. -/
namespace NexOs.Storage
open Bytes Exec

/-- What a volume holds: the entry of each cluster and its bytes. -/
structure Volume where
  fat : Nat → Nat
  data : Nat → List UInt8

namespace Fat32

/-- The layout that `mount` accepts, on the device it was found on. -/
structure Geometry (fs : Fat32) (d : Disk) : Prop where
  sector : d.sectorSize = fs.bytesPerSector
  sector_ge : 512 ≤ fs.bytesPerSector
  sector_le : fs.bytesPerSector ≤ 4096
  sector_mod : fs.bytesPerSector % 32 = 0
  cluster_pos : 0 < fs.sectorsPerCluster
  cluster_le : fs.sectorsPerCluster ≤ 128
  reserved_pos : 0 < fs.reservedSectors
  fats_pos : 0 < fs.fatCount
  fats_le : fs.fatCount ≤ 2
  data_start : fs.firstDataSector = fs.reservedSectors + fs.fatCount * fs.sectorsPerFat
  data_end : fs.firstDataSector + fs.totalClusters * fs.sectorsPerCluster ≤ fs.totalSectors
  total_le : fs.totalSectors ≤ d.sectorCount
  total_lt : fs.totalSectors < 2 ^ 32
  capacity : (fs.totalClusters + 2) * 4 ≤ fs.sectorsPerFat * fs.bytesPerSector
  clusters_ge : fat32MinClusters ≤ fs.totalClusters
  root : fs.validCluster fs.rootCluster

variable (fs : Fat32) (d : Disk)

def fatLba (copy cluster : Nat) : Nat :=
  fs.reservedSectors + copy * fs.sectorsPerFat + cluster * 4 / fs.bytesPerSector

def fatOffset (cluster : Nat) : Nat := cluster * 4 % fs.bytesPerSector

def fatEntry (copy cluster : Nat) : Nat :=
  le (sectorAt d (fs.fatLba copy cluster)) (fs.fatOffset cluster) 4 &&& fatEntryMask

def dataLba (cluster : Nat) : Nat := fs.firstDataSector + (cluster - 2) * fs.sectorsPerCluster

def clusterBytes (cluster : Nat) : List UInt8 :=
  slice d.bytes (fs.dataLba cluster * fs.bytesPerSector) (fs.bytesPerSector * fs.sectorsPerCluster)

/-- The device holds the volume, in every copy of the FAT. -/
structure Holds (v : Volume) : Prop where
  geometry : fs.Geometry d
  fat : ∀ copy < fs.fatCount, ∀ c, fs.validCluster c → fs.fatEntry d copy c = v.fat c
  data : ∀ c, fs.validCluster c → fs.clusterBytes d c = v.data c

variable {fs d} {v : Volume}

/-! ## Where things lie -/

namespace Geometry
variable (h : fs.Geometry d)
include h

variable {c copy c' : Nat}

theorem fat_quotient_lt (hc : fs.validCluster c) :
    c * 4 / fs.bytesPerSector < fs.sectorsPerFat := by
  have hcap := h.capacity
  have hlt := hc.2
  have hge := h.sector_ge
  rw [Nat.div_lt_iff_lt_mul (by omega)]
  omega

theorem fatOffset_mod (c : Nat) : fs.fatOffset c % 4 = 0 ∧ fs.fatOffset c + 4 ≤ fs.bytesPerSector := by
  have hge := h.sector_ge
  have hmod := h.sector_mod
  have hlt : fs.fatOffset c < fs.bytesPerSector := Nat.mod_lt _ (by omega)
  have hoff : fs.fatOffset c % 4 = 0 := by
    rw [fatOffset, Nat.mod_mod_of_dvd _ (Nat.dvd_of_mod_eq_zero (by omega))]
    omega
  omega

theorem fatLba_lt (hcopy : copy < fs.fatCount) (hc : fs.validCluster c) :
    fs.fatLba copy c < fs.firstDataSector := by
  have hq := h.fat_quotient_lt hc
  have hmul := Nat.mul_le_mul_right fs.sectorsPerFat (Nat.succ_le_of_lt hcopy)
  rw [Nat.succ_mul] at hmul
  rw [fatLba, h.data_start]
  omega

theorem fatLba_inj (hcopy : copy < fs.fatCount) (hcopy' : copy' < fs.fatCount)
    (hc : fs.validCluster c) (hc' : fs.validCluster c')
    (hsame : fs.fatLba copy c = fs.fatLba copy' c') :
    copy = copy' ∧ c * 4 / fs.bytesPerSector = c' * 4 / fs.bytesPerSector := by
  have hq := h.fat_quotient_lt hc
  have hq' := h.fat_quotient_lt hc'
  have hle := h.fats_le
  unfold fatLba at hsame
  generalize c * 4 / fs.bytesPerSector = q at hsame hq ⊢
  generalize c' * 4 / fs.bytesPerSector = q' at hsame hq' ⊢
  have hcases : ∀ k, k < fs.fatCount → k = 0 ∨ k = 1 := by omega
  rcases hcases copy hcopy with rfl | rfl <;> rcases hcases copy' hcopy' with rfl | rfl <;> omega

theorem dataLba_end (hc : fs.validCluster c) :
    fs.dataLba c + fs.sectorsPerCluster ≤ fs.totalSectors := by
  have hend := h.data_end
  have hmul := Nat.mul_le_mul_right fs.sectorsPerCluster (show c - 2 + 1 ≤ fs.totalClusters by
    have := hc.2
    have := hc.1
    omega)
  rw [Nat.add_mul] at hmul
  unfold dataLba
  omega

omit h in
theorem dataLba_apart (hc : fs.validCluster c) (hc' : fs.validCluster c') (hne : c ≠ c') :
    fs.dataLba c + fs.sectorsPerCluster ≤ fs.dataLba c' ∨
      fs.dataLba c' + fs.sectorsPerCluster ≤ fs.dataLba c := by
  have hstep : ∀ a b : Nat, a < b → a * fs.sectorsPerCluster + fs.sectorsPerCluster ≤
      b * fs.sectorsPerCluster := by
    intro a b hab
    have := Nat.mul_le_mul_right fs.sectorsPerCluster (Nat.succ_le_of_lt hab)
    rwa [Nat.succ_mul] at this
  have := hc.1
  have := hc'.1
  unfold dataLba
  rcases Nat.lt_or_gt_of_ne hne with hlt | hgt
  · have := hstep (c - 2) (c' - 2) (by omega)
    omega
  · have := hstep (c' - 2) (c - 2) (by omega)
    omega

theorem sector_end (hlba : lba < fs.totalSectors) :
    lba * fs.bytesPerSector + fs.bytesPerSector ≤ d.bytes.length := by
  have hend := lt_sectorCount_end (Nat.lt_of_lt_of_le hlba h.total_le)
  rwa [h.sector] at hend

theorem firstData_le : fs.firstDataSector ≤ fs.totalSectors :=
  (Nat.le_add_right _ _).trans h.data_end

theorem clusterLba_ok (hc : fs.validCluster c) : fs.clusterLba c = .ok (fs.dataLba c) := by
  have hend := h.dataLba_end hc
  have hlt := h.total_lt
  unfold dataLba at hend
  unfold clusterLba
  rw [Result.ensure_pos hc, Result.bind_ok, checkedSub_eq hc.1, Option.bind_some, checkedMulU32,
    if_pos (by omega), Result.okOr_some, Result.bind_ok, checkedAdd_eq (by omega)]
  rfl

end Geometry

/-! ## Requests -/

section
variable {lba : Nat} {bytes : List UInt8}

section
variable (h : fs.Geometry d) (hlba : lba < fs.totalSectors)
include h hlba

theorem Geometry.readSector_run : fs.readSector lba d = (.ok (sectorAt d lba), d) := by
  have hend := h.sector_end hlba
  have hrun := readSectors_run lba 1 (by rw [h.sector, Nat.one_mul]; exact hend)
  rw [Nat.one_mul, h.sector] at hrun
  rw [readSector, hrun, sectorAt, h.sector]

theorem Geometry.length_sectorAt : (sectorAt d lba).length = fs.bytesPerSector := by
  have hend := h.sector_end hlba
  rw [← h.sector] at hend ⊢
  exact Storage.length_sectorAt hend

theorem Geometry.takes_sector (hlen : bytes.length = fs.bytesPerSector) : d.Takes (lba, bytes) := by
  constructor
  · rw [h.sector, hlen, Nat.mod_self]
  · rw [h.sector, hlen]
    exact h.sector_end hlba

end

theorem Geometry.put (h : fs.Geometry d) (htakes : d.Takes (lba, bytes)) :
    fs.Geometry (d.put lba bytes) := by
  have hcount : (d.put lba bytes).sectorCount = d.sectorCount := by
    have hlen := Disk.length_put htakes
    rw [Disk.sectorCount, hlen]
    rfl
  exact { h with total_le := h.total_le.trans hcount.ge }

end

/-! ## One sector of the FAT -/

/-- The entry with its upper four bits kept. -/
def mergeEntry (previous value : Nat) : Nat := (previous &&& 0xf0000000) ||| (value &&& fatEntryMask)

theorem mergeEntry_lt (h : previous < 2 ^ 32) :
    mergeEntry previous value < 2 ^ 32 := by
  apply Nat.or_lt_two_pow
  · exact Nat.lt_of_le_of_lt Nat.and_le_left h
  · exact Nat.lt_of_le_of_lt Nat.and_le_right (by decide)

theorem mergeEntry_and (previous value : Nat) :
    mergeEntry previous value &&& fatEntryMask = value &&& fatEntryMask := by
  rw [mergeEntry, Nat.and_or_distrib_right, Nat.and_assoc, Nat.and_assoc, Nat.and_self,
    show 0xf0000000 &&& fatEntryMask = 0 by decide, Nat.and_zero, Nat.zero_or]

def entrySector (fs : Fat32) (d : Disk) (value copy cluster : Nat) : List UInt8 :=
  let sector := sectorAt d (fs.fatLba copy cluster)
  splice sector (fs.fatOffset cluster)
    (leBytes 4 (mergeEntry (le sector (fs.fatOffset cluster) 4) value))

section
variable {c copy value : Nat}

section
variable (h : fs.Geometry d) (hcopy : copy < fs.fatCount) (hc : fs.validCluster c)
include h hcopy hc

theorem Geometry.fatLba_lt_total : fs.fatLba copy c < fs.totalSectors :=
  Nat.lt_of_lt_of_le (h.fatLba_lt hcopy hc) h.firstData_le

theorem Geometry.length_entrySector :
    (fs.entrySector d value copy c).length = fs.bytesPerSector := by
  have hlen := h.length_sectorAt (h.fatLba_lt_total hcopy hc)
  have hoff := (h.fatOffset_mod c).2
  rw [entrySector, length_splice (by rw [hlen]; exact hoff), hlen]

end

theorem Geometry.takes_entrySector (h : fs.Geometry d) (hcopy : copy < fs.fatCount)
    (hc : fs.validCluster c) :
    d.Takes (fs.fatLba copy c, fs.entrySector d value copy c) :=
  h.takes_sector (h.fatLba_lt_total hcopy hc) (h.length_entrySector hcopy hc)

theorem Geometry.checkedCluster (h : fs.Geometry d) (hc : fs.validCluster c) :
    checkedMul c 4 = some (c * 4) := by
  have hlt := hc.2
  have hend := h.data_end
  have htotal := h.total_lt
  have hpos := Nat.mul_le_mul_left fs.totalClusters h.cluster_pos
  exact checkedMul_eq (by omega)

variable (h : fs.Geometry d) (hcopy : copy < fs.fatCount) (hc : fs.validCluster c)
include h hcopy hc

theorem writeFatCopy_run :
    fs.writeFatCopy (c * 4 / fs.bytesPerSector) (fs.fatOffset c) value copy d =
      (.ok (), d.put (fs.fatLba copy c) (fs.entrySector d value copy c)) := by
  have hlba := h.fatLba_lt_total hcopy hc
  have hlt := h.total_lt
  have hlen := h.length_sectorAt hlba
  have hoff := (h.fatOffset_mod c).2
  have hsector : fs.reservedSectors + copy * fs.sectorsPerFat + c * 4 / fs.bytesPerSector =
      fs.fatLba copy c := rfl
  have hsmall : fs.reservedSectors + copy * fs.sectorsPerFat < 2 ^ 64 :=
    Nat.lt_of_le_of_lt (Nat.le_add_right _ (c * 4 / fs.bytesPerSector)) (by omega)
  unfold writeFatCopy
  rw [checkedMul_eq (show copy * fs.sectorsPerFat < 2 ^ 64 by omega), okOr_some,
    pure_bind_run, checkedAdd_eq hsmall, Option.bind_some, checkedAdd_eq (by omega), hsector,
    okOr_some, pure_bind_run, bind_of_ok (h.readSector_run hlba),
    getLe_eq (by omega), lift_ok_bind, copyFromSlice_eq (by omega) (length_leBytes ..)]
  exact Disk.writeSectors_run (h.takes_entrySector hcopy hc)

theorem Geometry.fatEntry_put (hcopy' : copy' < fs.fatCount)
    (hc' : fs.validCluster c') :
    fs.fatEntry (d.put (fs.fatLba copy c) (fs.entrySector d value copy c)) copy' c' =
      if copy' = copy ∧ c' = c then value &&& fatEntryMask else fs.fatEntry d copy' c' := by
  have htakes := @takes_entrySector _ _ _ _ value h hcopy hc
  have hlen : (fs.entrySector d value copy c).length = d.sectorSize :=
    (h.length_entrySector hcopy hc).trans h.sector.symm
  have hsector := h.length_sectorAt (h.fatLba_lt_total hcopy hc)
  have hoff := h.fatOffset_mod c
  have hoff' := h.fatOffset_mod c'
  have hinside : fs.fatOffset c + (leBytes 4 (mergeEntry
      (le (sectorAt d (fs.fatLba copy c)) (fs.fatOffset c) 4) value)).length ≤
      (sectorAt d (fs.fatLba copy c)).length := by
    rw [length_leBytes]
    omega
  unfold fatEntry
  by_cases hsame : fs.fatLba copy' c' = fs.fatLba copy c
  · obtain ⟨rfl, hquot⟩ := h.fatLba_inj hcopy' hcopy hc' hc hsame
    rw [hsame, sectorAt_put_self htakes hlen, entrySector]
    by_cases hcluster : c' = c
    · subst hcluster
      rw [if_pos ⟨rfl, rfl⟩, le_splice_self (by rwa [length_leBytes] at hinside)
        (mergeEntry_lt (le_lt _ _ 4)), mergeEntry_and]
    · rw [if_neg fun hand => hcluster hand.2, le_splice_of_disjoint hinside]
      have hdiv := Nat.div_add_mod (c * 4) fs.bytesPerSector
      have hdiv' := Nat.div_add_mod (c' * 4) fs.bytesPerSector
      rw [length_leBytes]
      unfold fatOffset at hoff hoff' ⊢
      rw [hquot] at hdiv'
      omega
  · rw [sectorAt_put_of_ne htakes hlen hsame, if_neg]
    rintro ⟨rfl, rfl⟩
    exact hsame rfl

theorem Geometry.clusterBytes_put_fat (c' : Nat) :
    fs.clusterBytes (d.put (fs.fatLba copy c) (fs.entrySector d value copy c)) c' =
      fs.clusterBytes d c' := by
  have htakes := @takes_entrySector _ _ _ _ value h hcopy hc
  apply slice_splice_of_disjoint htakes.inside
  right
  have hlt := h.fatLba_lt hcopy hc
  have hle : fs.fatLba copy c + 1 ≤ fs.dataLba c' :=
    Nat.le_trans hlt (Nat.le_add_right fs.firstDataSector _)
  have hmul := Nat.mul_le_mul_right fs.bytesPerSector hle
  rw [Nat.add_mul, Nat.one_mul] at hmul
  rw [h.sector, h.length_entrySector hcopy hc]
  exact hmul

end

/-! ## The primitive operations -/

/-! Entries on a device whose copies of the FAT need not agree. -/

theorem Geometry.readFatEntry_run (h : fs.Geometry d) (hc : fs.validCluster c) :
    fs.readFatEntry c d = (.ok (fs.fatEntry d 0 c), d) := by
  have hlba := h.fatLba_lt_total h.fats_pos hc
  have hlt := h.total_lt
  have hoff := (h.fatOffset_mod c).2
  have hlen := h.length_sectorAt hlba
  have hsector : fs.reservedSectors + c * 4 / fs.bytesPerSector = fs.fatLba 0 c := by
    rw [fatLba, Nat.zero_mul, Nat.add_zero]
  unfold readFatEntry
  rw [ensure_bind_pos hc, h.checkedCluster hc, okOr_some, pure_bind_run,
    checkedAdd_eq (by omega), hsector, okOr_some, pure_bind_run,
    bind_of_ok (h.readSector_run hlba), getLe_eq (by rw [hlen]; exact hoff)]
  rfl

/-- What is left of a device once an entry was written to the first `copies` copies of its FAT. -/
structure EntryWritten (fs : Fat32) (d : Disk) (c value copies : Nat) (d' : Disk) : Prop where
  geometry : fs.Geometry d'
  fat : ∀ copy < fs.fatCount, ∀ c', fs.validCluster c' → fs.fatEntry d' copy c' =
    if copy < copies ∧ c' = c then value &&& fatEntryMask else fs.fatEntry d copy c'
  data : ∀ c', fs.clusterBytes d' c' = fs.clusterBytes d c'
  others : ∀ lba, (∀ copy < fs.fatCount, lba ≠ fs.fatLba copy c) → sectorAt d' lba = sectorAt d lba

theorem EntryWritten.put (h : EntryWritten fs d c value k d')
    (hk : k < fs.fatCount) (hc : fs.validCluster c) : EntryWritten fs d c value (k + 1)
      (d'.put (fs.fatLba k c) (fs.entrySector d' value k c)) := by
  have hg := h.geometry
  have htakes : d'.Takes (fs.fatLba k c, fs.entrySector d' value k c) := hg.takes_entrySector hk hc
  have hlen : (fs.entrySector d' value k c).length = d'.sectorSize :=
    (hg.length_entrySector hk hc).trans hg.sector.symm
  refine ⟨hg.put htakes, ?_, ?_, ?_⟩
  · intro copy hcopy c' hc'
    rw [hg.fatEntry_put hk hc hcopy hc', h.fat copy hcopy c' hc']
    by_cases hcopy' : copy = k
    · simp only [hcopy', Nat.lt_irrefl, Nat.lt_succ_self, false_and, if_false]
    · have hiff : copy < k + 1 ↔ copy < k := by omega
      rw [if_neg fun hand => hcopy' hand.1]
      simp only [hiff]
  · intro c'
    rw [hg.clusterBytes_put_fat hk hc, h.data c']
  · intro lba hlba
    rw [sectorAt_put_of_ne htakes hlen (hlba k hk), h.others lba hlba]

theorem Geometry.writeFatEntry_run (h : fs.Geometry d) (hc : fs.validCluster c)
    (value : Nat) : ∃ d', fs.writeFatEntry c value d = (.ok (), d') ∧
      EntryWritten fs d c value fs.fatCount d' := by
  have hloop : Ends ((List.range fs.fatCount).forM (fs.writeFatCopy
      (c * 4 / fs.bytesPerSector) (fs.fatOffset c) value)) d
      (fun _ d' => EntryWritten fs d c value fs.fatCount d') fun _ _ => False := by
    apply Ends.forM_range (EntryWritten fs d c value)
    · refine ⟨h, ?_, fun _ => rfl, fun _ _ => rfl⟩
      intro copy _ c' _
      rw [if_neg fun hand => Nat.not_lt_zero _ hand.1]
    · intro k hk t ht
      exact Ends.of_ok (writeFatCopy_run ht.geometry hk hc) (ht.put hk hc)
  obtain ⟨_, d', hrun, hwritten⟩ := hloop.returns
  refine ⟨d', ?_, hwritten⟩
  unfold writeFatEntry
  rw [ensure_bind_pos hc, h.checkedCluster hc]
  exact hrun

theorem Holds.sectorAt_eq (h : fs.Holds d v) (hc : fs.validCluster c)
    (hk : k < fs.sectorsPerCluster) : sectorAt d (fs.dataLba c + k) =
      slice (v.data c) (k * fs.bytesPerSector) fs.bytesPerSector := by
  have hmul := Nat.mul_le_mul_left fs.bytesPerSector (Nat.succ_le_of_lt hk)
  rw [Nat.mul_succ, Nat.mul_comm _ k] at hmul
  rw [← h.data c hc, clusterBytes, slice_slice hmul, sectorAt, h.geometry.sector, Nat.add_mul]

end Fat32

end NexOs.Storage
