import Mathlib.Data.Set.Lattice
import Mathlib.Order.CompletePartialOrder
import NexOs.Fat.Mount

/-! What the geometry that `mount` accepts is good for: where the areas of the volume lie, and
which links an entry of the FAT can hold. Nothing is assumed of the contents of the device. -/
namespace NexOs.Storage.Fat32
open Bytes Exec

/-! ## A large volume -/

/-- A boot sector for 268435448 clusters of one sector, three more than a FAT32 can have. -/
def largeBoot : List UInt8 :=
  writeFields (List.replicate 512 0)
    [(11, leBytes 2 512), (13, [1]), (14, leBytes 2 1), (16, [1]), (32, leBytes 4 270532601),
      (36, leBytes 4 2097152), (44, leBytes 4 2), (510, [0x55, 0xaa])]

def largeDisk : Disk where
  sectorSize := 512
  bytes := largeBoot ++ List.replicate (512 * 270532600) 0
  log := []

theorem length_largeBoot : largeBoot.length = 512 := by decide +kernel

theorem sectorCount_largeDisk : largeDisk.sectorCount = 270532601 := by
  have hlength : largeDisk.bytes.length = 512 * 270532601 := by
    rw [largeDisk, List.length_append, length_largeBoot, List.length_replicate]
  rw [Disk.sectorCount, hlength]
  exact Nat.mul_div_cancel_left _ (by decide)

theorem slice_largeBoot (rest : List UInt8) :
    slice (largeBoot ++ rest) (0 * 512) 512 = largeBoot := by
  rw [slice_append_left length_largeBoot.ge, slice_full _ length_largeBoot.symm]

theorem sectorAt_largeDisk : sectorAt largeDisk 0 = largeBoot := slice_largeBoot _

theorem bootFine_largeBoot : BootFine 512 270532601 largeBoot where
  signature := by decide +kernel
  sector := by decide +kernel
  sector_power := by decide +kernel
  cluster_pos := by decide +kernel
  cluster_power := by decide +kernel
  cluster_le := by decide +kernel
  reserved_pos := by decide +kernel
  fats := by decide +kernel
  root_entries := by decide +kernel
  fat16 := by decide +kernel
  fat_pos := by decide +kernel
  total_pos := by decide +kernel
  version := by decide +kernel
  root_ge := by decide +kernel
  total_le := by decide +kernel
  data_le := by decide +kernel
  clusters_ge := by decide +kernel
  capacity := by decide +kernel
  root_lt := by decide +kernel

theorem mount_largeDisk : mount largeDisk = (.ok (bootVolume largeBoot), largeDisk) := by
  obtain ⟨r, hrun, hdec⟩ := mount_decides largeDisk
  rw [sectorAt_largeDisk, sectorCount_largeDisk] at hdec
  rw [hrun, hdec.eq_ok ⟨⟨by decide, by decide⟩, by decide, bootFine_largeBoot⟩]

theorem validCluster_largeDisk (hc : 2 ≤ c ∧ c < 268435450) :
    (bootVolume largeBoot).validCluster c := by
  exact hc

/-! ## Areas -/

/-- The parts of a volume that are reached on their own. -/
inductive Area where
  | reserved
  | fat (copy : Nat)
  | cluster (c : Nat)

section
variable (fs : Fat32)

def Area.Present : Area → Prop
  | .reserved => True
  | .fat copy => copy < fs.fatCount
  | .cluster c => fs.validCluster c

def Area.start : Area → Nat
  | .reserved => 0
  | .fat copy => fs.reservedSectors + copy * fs.sectorsPerFat
  | .cluster c => fs.dataLba c

def Area.length : Area → Nat
  | .reserved => fs.reservedSectors
  | .fat _ => fs.sectorsPerFat
  | .cluster _ => fs.sectorsPerCluster

def Area.sectors (area : Area) : Set Nat :=
  Set.Ico (area.start fs) (area.start fs + area.length fs)

end

variable {fs : Fat32} {d : Disk}

section
variable (h : fs.Geometry d)
include h

theorem Geometry.fat_end (hcopy : copy < fs.fatCount) :
    fs.reservedSectors + copy * fs.sectorsPerFat + fs.sectorsPerFat ≤ fs.firstDataSector := by
  have hmul : (copy + 1) * fs.sectorsPerFat ≤ fs.fatCount * fs.sectorsPerFat :=
    Nat.mul_le_mul_right _ hcopy
  rw [Nat.succ_mul] at hmul
  have hstart := h.data_start
  omega

theorem Geometry.area_end {area : Area} (harea : area.Present fs) :
    area.start fs + area.length fs ≤ fs.totalSectors := by
  have hdata := h.firstData_le
  cases area with
  | reserved =>
    have hstart := h.data_start
    simp only [Area.start, Area.length]
    omega
  | fat copy => exact (h.fat_end harea).trans hdata
  | cluster c => exact h.dataLba_end harea

theorem Geometry.area_apart {area area' : Area} (harea : area.Present fs)
    (harea' : area'.Present fs) (hne : area ≠ area') :
    area.start fs + area.length fs ≤ area'.start fs ∨
      area'.start fs + area'.length fs ≤ area.start fs := by
  have hstart := h.data_start
  have hbehind (c : Nat) : fs.firstDataSector ≤ fs.dataLba c := Nat.le_add_right _ _
  have hfats (copy copy' : Nat) (hlt : copy < copy') :
      fs.reservedSectors + copy * fs.sectorsPerFat + fs.sectorsPerFat ≤
        fs.reservedSectors + copy' * fs.sectorsPerFat := by
    have hmul : (copy + 1) * fs.sectorsPerFat ≤ copy' * fs.sectorsPerFat :=
      Nat.mul_le_mul_right _ hlt
    rw [Nat.succ_mul] at hmul
    omega
  cases area with
  | reserved =>
    left
    cases area' with
    | reserved => exact absurd rfl hne
    | fat copy => simp [Area.start, Area.length]
    | cluster c =>
      have hc := hbehind c
      simp only [Area.start, Area.length]
      omega
  | fat copy =>
    cases area' with
    | reserved =>
      right
      simp [Area.start, Area.length]
    | fat copy' =>
      have hcopies : copy ≠ copy' := fun heq => hne (heq ▸ rfl)
      rcases Nat.lt_or_gt_of_ne hcopies with hlt | hgt
      · exact .inl (hfats copy copy' hlt)
      · exact .inr (hfats copy' copy hgt)
    | cluster c => exact .inl ((h.fat_end harea).trans (hbehind c))
  | cluster c =>
    cases area' with
    | reserved =>
      right
      have hc := hbehind c
      simp only [Area.start, Area.length]
      omega
    | fat copy => exact .inr ((h.fat_end harea').trans (hbehind c))
    | cluster c' => exact Geometry.dataLba_apart harea harea' fun heq => hne (heq ▸ rfl)

theorem Geometry.totalClusters_lt : fs.totalClusters + 2 < 2 ^ 32 := by
  have hend := h.data_end
  have hlt := h.total_lt
  have hstart := h.data_start
  have hreserved := h.reserved_pos
  have hmul : fs.totalClusters * 1 ≤ fs.totalClusters * fs.sectorsPerCluster :=
    Nat.mul_le_mul_left _ h.cluster_pos
  have hfat : 0 < fs.fatCount * fs.sectorsPerFat := by
    have hcapacity : 0 < fs.sectorsPerFat * fs.bytesPerSector :=
      Nat.lt_of_lt_of_le (by omega) h.capacity
    exact Nat.mul_pos h.fats_pos (Nat.pos_of_mul_pos_right hcapacity)
  omega

/-- A volume on which no access by a cluster number can leave its area or overflow. -/
structure Safe (fs : Fat32) (d : Disk) : Prop where
  clusters_lt : fs.totalClusters + 2 < 2 ^ 32
  read : ∀ c, fs.validCluster c → fs.readFatEntry c d = (.ok (fs.fatEntry d 0 c), d)
  write : ∀ c value, fs.validCluster c → ∃ d', fs.writeFatEntry c value d = (.ok (), d') ∧
    ∀ lba, (∀ copy < fs.fatCount, lba ≠ fs.fatLba copy c) → sectorAt d' lba = sectorAt d lba
  lba : ∀ c, fs.validCluster c → fs.clusterLba c = .ok (fs.dataLba c)
  refused : ∀ c value, ¬fs.validCluster c →
    fs.readFatEntry c d = (Result.fail .corruptFilesystem, d) ∧
      fs.writeFatEntry c value d = (Result.fail .corruptFilesystem, d) ∧
      fs.clusterLba c = Result.fail .corruptFilesystem
  fat : ∀ copy < fs.fatCount, ∀ c, fs.validCluster c →
    fs.fatLba copy c ∈ (Area.fat copy).sectors fs ∧ fs.fatOffset c + 4 ≤ fs.bytesPerSector
  disjoint : ∀ area area' : Area, area.Present fs → area'.Present fs → area ≠ area' →
    Disjoint (area.sectors fs) (area'.sectors fs)
  inside : ∀ area : Area, area.Present fs → area.sectors fs ⊆ Set.Ico 0 fs.totalSectors
  device : fs.totalSectors ≤ d.sectorCount

theorem Geometry.safe : Safe fs d where
  clusters_lt := h.totalClusters_lt
  read := fun c hc => h.readFatEntry_run hc
  write := by
    intro c value hc
    obtain ⟨d', hrun, hwritten⟩ := h.writeFatEntry_run hc value
    exact ⟨d', hrun, hwritten.others⟩
  lba := fun c hc => h.clusterLba_ok hc
  refused := by
    intro c value hc
    refine ⟨?_, ?_, ?_⟩
    · rw [readFatEntry, ensure_bind_neg hc]
      rfl
    · rw [writeFatEntry, ensure_bind_neg hc]
      rfl
    · rw [clusterLba, Result.ensure_neg hc]
      rfl
  fat := by
    intro copy hcopy c hc
    have hquotient := h.fat_quotient_lt hc
    refine ⟨⟨Nat.le_add_right _ _, ?_⟩, (h.fatOffset_mod c).2⟩
    exact Nat.add_lt_add_left hquotient _
  disjoint := by
    intro area area' harea harea' hne
    rw [Set.disjoint_left]
    intro sector hsector hsector'
    have hapart := h.area_apart harea harea' hne
    simp only [Area.sectors, Set.mem_Ico] at hsector hsector'
    omega
  inside := by
    intro area harea sector hsector
    exact ⟨Nat.zero_le _, Nat.lt_of_lt_of_le hsector.2 (h.area_end harea)⟩
  device := h.total_le

end

/-- Whatever the device holds, a volume that is mounted is safe. -/
theorem mount_safe {d' : Disk} (h : mount d = (.ok fs, d')) : d' = d ∧ Safe fs d := by
  obtain ⟨hsame, hgeometry⟩ := geometry_of_mount h
  exact ⟨hsame, hgeometry.safe⟩

theorem mount_safe_large : ∃ fs, mount largeDisk = (.ok fs, largeDisk) ∧ Safe fs largeDisk :=
  ⟨_, mount_largeDisk, (mount_safe mount_largeDisk).2⟩

/-! ## Links -/

theorem and_fatEntryMask_eq_iff (n : Nat) : n &&& fatEntryMask = n ↔ n < 2 ^ 28 := by
  have hmask : n &&& fatEntryMask = n % 2 ^ 28 := Nat.and_two_pow_sub_one_eq_mod n 28
  rw [hmask, Nat.mod_eq_iff_lt (by decide)]

/-- A link that was written is read and followed as that link exactly if its number is below the
end marks. Every other entry reads as before. -/
theorem link_kept_iff {d' : Disk} (h : mount d = (.ok fs, d')) {a b : Nat}
    (ha : fs.validCluster a) (hb : fs.validCluster b) :
    (∃ d₁, fs.writeFatEntry a b d = (.ok (), d₁) ∧ fs.readFatEntry a d₁ = (.ok b, d₁) ∧
      fs.LinksTo d₁ a b ∧
      ∀ c, fs.validCluster c → c ≠ a → (fs.readFatEntry c d₁).1 = (fs.readFatEntry c d).1) ↔
    b < fatEocMin := by
  obtain ⟨_, hgeometry⟩ := geometry_of_mount h
  obtain ⟨d₁, hrun, hwritten⟩ := hgeometry.writeFatEntry_run ha b
  have hentry : fs.fatEntry d₁ 0 a = b &&& fatEntryMask := by
    rw [hwritten.fat 0 hgeometry.fats_pos a ha, if_pos ⟨hgeometry.fats_pos, rfl⟩]
  have hread := hwritten.geometry.readFatEntry_run ha
  constructor
  · rintro ⟨d₂, hrun', hread', hlinks, -⟩
    obtain rfl : d₁ = d₂ := congrArg Prod.snd (hrun.symm.trans hrun')
    have hkept : fs.fatEntry d₁ 0 a = b := by
      rw [hread, Prod.mk.injEq] at hread'
      exact Except.ok.inj hread'.1
    by_contra hend
    have hdone := clusterChainFrom_end hwritten.geometry ha (hkept ▸ Nat.not_lt.mp hend) 0 []
    rw [hlinks 0 []] at hdone
    cases hdone
  · intro hlink
    have hkept : fs.fatEntry d₁ 0 a = b :=
      hentry.trans ((and_fatEntryMask_eq_iff b).mpr (Nat.lt_trans hlink (by decide)))
    refine ⟨d₁, hrun, hkept ▸ hread, ?_, ?_⟩
    · have hlinks := linksTo_of_entry hwritten.geometry ha (hkept ▸ hb) (hkept ▸ hlink)
      rwa [hkept] at hlinks
    · intro c hc hne
      rw [hwritten.geometry.readFatEntry_run hc, hgeometry.readFatEntry_run hc,
        hwritten.fat 0 hgeometry.fats_pos c hc, if_neg fun hand => hne hand.2]

theorem link_kept_large : ∃ fs d₁, mount largeDisk = (.ok fs, largeDisk) ∧
    fs.writeFatEntry 2 3 largeDisk = (.ok (), d₁) ∧ fs.LinksTo d₁ 2 3 := by
  have hvalid : (bootVolume largeBoot).validCluster 2 := validCluster_largeDisk (by decide)
  have hvalid' : (bootVolume largeBoot).validCluster 3 := validCluster_largeDisk (by decide)
  obtain ⟨d₁, hrun, _, hlinks, _⟩ :=
    (link_kept_iff mount_largeDisk hvalid hvalid').mpr (by decide)
  exact ⟨_, d₁, mount_largeDisk, hrun, hlinks⟩

/-- A link to the cluster whose number is the first end mark ends the chain. -/
theorem link_lost : ∃ d fs d₁, mount d = (.ok fs, d) ∧ fs.validCluster 2 ∧
    fs.validCluster 0x0ffffff8 ∧ fs.writeFatEntry 2 0x0ffffff8 d = (.ok (), d₁) ∧
    fs.clusterChain 2 d₁ = (.ok [2], d₁) := by
  obtain ⟨_, hgeometry⟩ := geometry_of_mount mount_largeDisk
  have hvalid : (bootVolume largeBoot).validCluster 2 := validCluster_largeDisk (by decide)
  obtain ⟨d₁, hrun, hwritten⟩ := hgeometry.writeFatEntry_run hvalid 0x0ffffff8
  refine ⟨largeDisk, _, d₁, mount_largeDisk, hvalid, validCluster_largeDisk (by decide), hrun, ?_⟩
  have hentry : fatEocMin ≤ (bootVolume largeBoot).fatEntry d₁ 0 2 := by
    rw [hwritten.fat 0 hgeometry.fats_pos 2 hvalid]
    decide
  exact clusterChainFrom_end hwritten.geometry hvalid hentry _ []

/-! ## Chains -/

/-- The volume on a device, whose FAT is read in its first copy. -/
def contents (fs : Fat32) (d : Disk) : Volume := ⟨fs.fatEntry d 0, fs.clusterBytes d⟩

/-- `clusterChainFrom` beside a counter of the reads of FAT entries. -/
def countedChainFrom (fs : Fat32) : Nat → Nat → List Nat → Exec (Disk × Nat) StorageError (List Nat)
  | 0, _, _ => Exec.fail .corruptFilesystem
  | fuel + 1, current, chain => do
    let next ← Exec.zoom Prod.fst (fun d s => (d, s.2 + 1)) (fs.readFatEntry current)
    if next ≥ fatEocMin then
      pure (chain ++ [current])
    else do
      Exec.ensure (fs.validCluster next) .corruptFilesystem
      countedChainFrom fs fuel next (chain ++ [current])

def countedChain (fs : Fat32) (firstCluster : Nat) : Exec (Disk × Nat) StorageError (List Nat) := do
  Exec.ensure (fs.validCluster firstCluster) .corruptFilesystem
  fs.countedChainFrom fs.totalClusters firstCluster []

theorem countedChainFrom_run (fuel c : Nat) (acc : List Nat) (d : Disk) (n : Nat) :
    ∃ k ≤ fuel, fs.countedChainFrom fuel c acc (d, n) =
      ((fs.clusterChainFrom fuel c acc d).1, ((fs.clusterChainFrom fuel c acc d).2, n + k)) := by
  induction fuel generalizing c acc d n with
  | zero => exact ⟨0, Nat.le_refl 0, rfl⟩
  | succ fuel ih =>
    rcases hread : fs.readFatEntry c d with ⟨r, d'⟩
    have hcounted : zoom Prod.fst (fun d s => (d, s.2 + 1)) (fs.readFatEntry c) (d, n) =
        (r, (d', n + 1)) := by
      rw [zoom, hread]
    unfold countedChainFrom clusterChainFrom
    cases r with
    | error e =>
      rw [bind_of_error hread, bind_of_error hcounted]
      exact ⟨1, Nat.le_add_left 1 fuel, rfl⟩
    | ok next =>
      rw [bind_of_ok hread, bind_of_ok hcounted]
      by_cases hend : next ≥ fatEocMin
      · rw [if_pos hend, if_pos hend]
        exact ⟨1, Nat.le_add_left 1 fuel, rfl⟩
      rw [if_neg hend, if_neg hend]
      by_cases hnext : fs.validCluster next
      · obtain ⟨k, hk, hrun⟩ := ih next (acc ++ [c]) d' (n + 1)
        rw [ensure_bind_pos hnext, ensure_bind_pos hnext, hrun]
        exact ⟨k + 1, Nat.succ_le_succ hk, by rw [Nat.add_assoc, Nat.add_comm 1]⟩
      · rw [ensure_bind_neg hnext, ensure_bind_neg hnext]
        exact ⟨1, Nat.le_add_left 1 fuel, rfl⟩

/-- Whatever the FAT holds, `cluster_chain` returns the chain from the first cluster, which has no
cluster twice, and otherwise says that there is none; its reads are at most as many as there are
clusters. -/
theorem clusterChain_exact {d' : Disk} (h : mount d = (.ok fs, d')) (first : Nat) :
    (∀ n, ∃ reads ≤ fs.totalClusters,
      fs.countedChain first (d, n) = ((fs.clusterChain first d).1, (d, n + reads))) ∧
    (∀ chain, (fs.clusterChain first d).1 = .ok chain ↔ fs.IsChain (fs.contents d) first chain) ∧
    (∀ chain, fs.IsChain (fs.contents d) first chain → chain.Nodup) ∧
    ((¬∃ chain, fs.IsChain (fs.contents d) first chain) →
      (fs.clusterChain first d).1 = Result.fail .corruptFilesystem) := by
  obtain ⟨_, hgeometry⟩ := geometry_of_mount h
  have hcases := hgeometry.clusterChain_cases (v := fs.contents d) (fun _ _ => rfl) first
  have hkept : (fs.clusterChain first d).2 = d := by
    rcases hcases with ⟨_, _, hrun⟩ | ⟨hrun, _⟩ <;> rw [hrun]
  refine ⟨fun n => ?_, fun chain => ⟨fun hok => ?_, fun hchain => ?_⟩,
    fun chain hchain => hchain.linked.nodup, fun hnone => ?_⟩
  · unfold countedChain
    unfold clusterChain at hkept ⊢
    by_cases hfirst : fs.validCluster first
    · rw [ensure_bind_pos hfirst] at hkept ⊢
      rw [ensure_bind_pos hfirst]
      obtain ⟨k, hk, hrun⟩ := fs.countedChainFrom_run fs.totalClusters first [] d n
      exact ⟨k, hk, by rw [hrun, hkept]⟩
    · rw [ensure_bind_neg hfirst, ensure_bind_neg hfirst]
      exact ⟨0, Nat.zero_le _, rfl⟩
  · rcases hcases with ⟨cs, hcs, hrun⟩ | ⟨hrun, _⟩
    · rw [hrun] at hok
      cases hok
      exact hcs
    · rw [hrun] at hok
      cases hok
  · rcases hcases with ⟨cs, hcs, hrun⟩ | ⟨_, hnone⟩
    · rw [hrun, hcs.linked.unique hchain.linked]
    · exact absurd hchain (hnone chain)
  · rcases hcases with ⟨cs, hcs, _⟩ | ⟨hrun, _⟩
    · exact absurd ⟨cs, hcs⟩ hnone
    · rw [hrun]

theorem clusterChain_exact_large : ∃ fs, mount largeDisk = (.ok fs, largeDisk) ∧
    ∀ chain, (fs.clusterChain 2 largeDisk).1 = .ok chain ↔
      fs.IsChain (fs.contents largeDisk) 2 chain :=
  ⟨_, mount_largeDisk, (clusterChain_exact mount_largeDisk 2).2.1⟩

end NexOs.Storage.Fat32
