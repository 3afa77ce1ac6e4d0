import NexOs.Fat.Slots
import NexOs.Lib.Accepts

/-! Which boot sectors `mount` accepts, and the geometry that it finds. -/
namespace NexOs.Storage
open Bytes

namespace Fat32

/-! ## The fields of a boot sector -/

def bootTotal (boot : List UInt8) : Nat :=
  if le boot 19 2 = 0 then le boot 32 4 else le boot 19 2

def bootFirstData (boot : List UInt8) : Nat := le boot 14 2 + le boot 16 1 * le boot 36 4

def bootClusters (boot : List UInt8) : Nat := (bootTotal boot - bootFirstData boot) / le boot 13 1

def bootVolume (boot : List UInt8) : Fat32 where
  bytesPerSector := le boot 11 2
  sectorsPerCluster := le boot 13 1
  reservedSectors := le boot 14 2
  fatCount := le boot 16 1
  sectorsPerFat := le boot 36 4
  totalSectors := bootTotal boot
  rootCluster := le boot 44 4
  firstDataSector := bootFirstData boot
  totalClusters := bootClusters boot

structure BootFine (sectorSize sectorCount : Nat) (boot : List UInt8) : Prop where
  signature : slice boot 510 2 = [0x55, 0xaa]
  sector : le boot 11 2 = sectorSize
  sector_power : isPowerOfTwo (le boot 11 2) = true
  cluster_pos : le boot 13 1 ≠ 0
  cluster_power : isPowerOfTwo (le boot 13 1) = true
  cluster_le : le boot 13 1 ≤ 128
  reserved_pos : le boot 14 2 ≠ 0
  fats : 1 ≤ le boot 16 1 ∧ le boot 16 1 ≤ 2
  root_entries : le boot 17 2 = 0
  fat16 : le boot 22 2 = 0
  fat_pos : le boot 36 4 ≠ 0
  total_pos : bootTotal boot ≠ 0
  version : le boot 42 2 = 0
  root_ge : 2 ≤ le boot 44 4
  total_le : bootTotal boot ≤ sectorCount
  data_le : bootFirstData boot ≤ bootTotal boot
  clusters_ge : fat32MinClusters ≤ bootClusters boot
  capacity : bootClusters boot + 2 ≤ le boot 36 4 * le boot 11 2 / 4
  root_lt : le boot 44 4 < bootClusters boot + 2

theorem bootTotal_lt (boot : List UInt8) : bootTotal boot < 2 ^ 32 := by
  have hlong := le_lt boot 32 4
  have hshort := le_lt boot 19 2
  unfold bootTotal
  split <;> omega

theorem bootClusters_le (boot : List UInt8) :
    bootClusters boot ≤ bootTotal boot - bootFirstData boot :=
  Nat.div_le_self ..

theorem checkedMulU32_decides {a b : Nat} {e : StorageError} :
    Result.Decides (Result.okOr (checkedMulU32 a b) e) (a * b < 2 ^ 32) (a * b) :=
  .okOr_ite

theorem checkedAddU32_decides {a b : Nat} {e : StorageError} :
    Result.Decides (Result.okOr (checkedAddU32 a b) e) (a + b < 2 ^ 32) (a + b) :=
  .okOr_ite

theorem checkedSub_decides {a b : Nat} {e : StorageError} :
    Result.Decides (Result.okOr (checkedSub a b) e) (b ≤ a) (a - b) :=
  .okOr_ite

theorem parseBoot_decides (sectorSize sectorCount : Nat) {boot : List UInt8}
    (hlen : 512 ≤ boot.length) : Result.Decides (parseBoot sectorSize sectorCount boot)
      (BootFine sectorSize sectorCount boot) (bootVolume boot) := by
  have hsector := le_lt boot 11 2
  have hfat := le_lt boot 36 4
  have htotal := bootTotal_lt boot
  have hclusters := bootClusters_le boot
  have hiff : BootFine sectorSize sectorCount boot ↔
      ¬(boot.length < 512 ∨ slice boot 510 2 ≠ [0x55, 0xaa]) ∧
      ¬(le boot 11 2 ≠ sectorSize ∨ isPowerOfTwo (le boot 11 2) = false ∨
        le boot 13 1 = 0 ∨ isPowerOfTwo (le boot 13 1) = false ∨ le boot 13 1 > 128 ∨
        le boot 14 2 = 0 ∨ ¬(1 ≤ le boot 16 1 ∧ le boot 16 1 ≤ 2) ∨ le boot 17 2 ≠ 0 ∨
        le boot 22 2 ≠ 0 ∨ le boot 36 4 = 0 ∨ bootTotal boot = 0 ∨ le boot 42 2 ≠ 0 ∨
        le boot 44 4 < 2 ∨ bootTotal boot > sectorCount) ∧
      le boot 16 1 * le boot 36 4 < 2 ^ 32 ∧ bootFirstData boot < 2 ^ 32 ∧
      bootFirstData boot ≤ bootTotal boot ∧
      ¬(bootClusters boot < fat32MinClusters ∨
        le boot 36 4 * le boot 11 2 / 4 < bootClusters boot + 2) ∧
      ¬le boot 44 4 ≥ bootClusters boot + 2 := by
    constructor
    · intro h
      have hdata := h.data_le
      refine ⟨?_, ?_, ?_, ?_, hdata, ?_, Nat.not_le.mpr h.root_lt⟩
      · simp [h.signature, hlen]
      · simp only [not_or, not_not, not_lt, Bool.not_eq_false]
        exact ⟨h.sector, h.sector_power, h.cluster_pos, h.cluster_power, h.cluster_le,
          h.reserved_pos, h.fats, h.root_entries, h.fat16, h.fat_pos, h.total_pos, h.version,
          h.root_ge, h.total_le⟩
      · unfold bootFirstData at hdata
        omega
      · omega
      · have := h.clusters_ge
        have := h.capacity
        omega
    · intro ⟨hsig, hfields, _, _, hdata, hcap, hroot⟩
      simp only [not_or, not_not, not_lt, Bool.not_eq_false] at hsig hfields hcap
      obtain ⟨hsize, hpower, hspc, hspc', hspcle, hres, hfats, hentries, hfat16, hspf, htot, hver,
        hrootge, hle⟩ := hfields
      exact ⟨hsig.2, hsize, hpower, hspc, hspc', hspcle, hres, hfats, hentries, hfat16, hspf, htot,
        hver, hrootge, hle, hdata, hcap.1, hcap.2, Nat.not_le.mp hroot⟩
  rw [hiff]
  refine .guard fun _ => ?_
  rw [getLe_eq (by omega), getLe_eq (by omega), getLe_eq (by omega), getLe_eq (by omega),
    getLe_eq (by omega), getLe_eq (by omega), getLe_eq (by omega), getLe_eq (by omega),
    getLe_eq (by omega), getLe_eq (by omega), getLe_eq (by omega)]
  refine .guard fun hfields => ?_
  refine .bind checkedMulU32_decides fun _ => ?_
  refine .bind checkedAddU32_decides fun hdata => ?_
  refine .bind checkedSub_decides fun hle => ?_
  have hmul := Nat.mul_le_mul hfat.le hsector.le
  rw [checkedMul_eq (by omega)]
  refine .guard fun _ => ?_
  have hlimit : bootClusters boot + 2 < 2 ^ 32 := by
    simp only [not_or] at hfields
    have hspf := hfields.2.2.2.2.2.2.2.2.2.1
    have hone := Nat.mul_le_mul (not_not.mp hfields.2.2.2.2.2.2.1).1
      (Nat.one_le_iff_ne_zero.mpr hspf)
    unfold bootFirstData at hclusters
    omega
  have hadd : (addU32 (bootClusters boot) 2 : Result StorageError Nat) =
      .ok (bootClusters boot + 2) := if_pos hlimit
  refine .bind_ok hadd (Result.Decides.congr (.guard fun _ => .of_ok (a := bootVolume boot) rfl)
    (and_iff_left trivial) fun _ => rfl)

/-! ## The geometry of a mounted volume -/

theorem isPowerOfTwo_mod (h : isPowerOfTwo n = true) (hn : 512 ≤ n) : n % 32 = 0 := by
  by_contra hmod
  have hand : n &&& (n - 1) = 0 := by
    have hboth := Bool.and_eq_true_iff.mp h
    exact of_decide_eq_true hboth.2
  have hdiv : (n - 1) / 32 = n / 32 := by omega
  -- what lies above the five lowest bits survives the subtraction
  have hhigh : (n &&& (n - 1)) >>> 5 = n / 32 := by
    rw [Nat.shiftRight_and_distrib, Nat.shiftRight_eq_div_pow, Nat.shiftRight_eq_div_pow]
    exact (congrArg (n / 32 &&& ·) hdiv).trans (Nat.and_self _)
  omega

theorem BootFine.geometry (h : BootFine d.sectorSize d.sectorCount (sectorAt d 0))
    (hsize : 512 ≤ d.sectorSize ∧ d.sectorSize ≤ 4096) : (bootVolume (sectorAt d 0)).Geometry d where
  sector := h.sector.symm
  sector_ge := hsize.1.trans h.sector.ge
  sector_le := h.sector.le.trans hsize.2
  sector_mod := isPowerOfTwo_mod h.sector_power (hsize.1.trans h.sector.ge)
  cluster_pos := Nat.pos_of_ne_zero h.cluster_pos
  cluster_le := h.cluster_le
  reserved_pos := Nat.pos_of_ne_zero h.reserved_pos
  fats_pos := h.fats.1
  fats_le := h.fats.2
  data_start := rfl
  data_end := by
    have hdata := h.data_le
    have hmul := Nat.div_mul_le_self (bootTotal (sectorAt d 0) - bootFirstData (sectorAt d 0))
      (le (sectorAt d 0) 13 1)
    change bootFirstData _ + bootClusters _ * le _ 13 1 ≤ bootTotal _
    unfold bootClusters
    omega
  total_le := h.total_le
  total_lt := bootTotal_lt _
  capacity := by
    have hcap := h.capacity
    change (bootClusters _ + 2) * 4 ≤ le _ 36 4 * le _ 11 2
    omega
  clusters_ge := h.clusters_ge
  root := ⟨h.root_ge, h.root_lt⟩

theorem mount_decides (d : Disk) : Exec.Decides mount d
    ((512 ≤ d.sectorSize ∧ d.sectorSize ≤ 4096) ∧ 1 ≤ d.sectorCount ∧
      BootFine d.sectorSize d.sectorCount (sectorAt d 0)) (bootVolume (sectorAt d 0)) := by
  apply Exec.Decides.bind_ok rfl
  refine .guard fun hsize => ?_
  refine Exec.Decides.congr (.bind (readSector_decides d 0) fun hon =>
    .lift (parseBoot_decides _ _ ?_)) ?_ fun _ => rfl
  · rw [length_sectorAt hon]
    exact hsize.1
  · refine and_congr_left fun _ => ?_
    rw [Disk.sectorCount, Nat.le_div_iff_mul_le (by omega)]
    omega

theorem geometry_of_mount (h : mount d = (.ok fs, d')) : d' = d ∧ fs.Geometry d := by
  obtain ⟨⟨hsize, -, hfine⟩, rfl, rfl⟩ := ((mount_decides d).accepts fs d').mp h
  exact ⟨rfl, hfine.geometry hsize⟩

end Fat32

end NexOs.Storage
