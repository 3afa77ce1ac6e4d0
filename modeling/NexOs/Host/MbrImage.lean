import NexOs.Host.Layout

/-! The boot sector that carries a planned MBR, and what the reader finds in it. -/
namespace NexOs.Host
open List Bytes Storage Result

namespace PartitionPlan

def entryBytes (p : PartitionPlan) : List UInt8 :=
  [if p.bootable then 0x80 else 0, 0xff, 0xff, 0xff, p.role.mbrType, 0xff, 0xff, 0xff] ++
    leBytes 4 p.firstLba ++ leBytes 4 p.sectorCount

structure Short (p : PartitionPlan) : Prop where
  first_lt : p.firstLba < 2 ^ 32
  count_lt : p.sectorCount < 2 ^ 32

def mbrPartition (p : PartitionPlan) : MbrPartition where
  bootable := p.bootable
  partitionType := p.role.mbrType
  firstLba := p.firstLba
  sectorCount := p.sectorCount

def partition (p : PartitionPlan) (i : Nat) : Partition where
  index := i + 1
  firstLba := p.firstLba
  sectorCount := p.sectorCount
  bootable := p.bootable
  mbrType := some p.role.mbrType
  typeGuid := none
  uniqueGuid := none
  attributes := 0
  name := []

@[simp] theorem length_entryBytes (p : PartitionPlan) : p.entryBytes.length = 16 := by
  simp [entryBytes]

theorem byteAt_status (p : PartitionPlan) :
    byteAt p.entryBytes 0 = if p.bootable then 0x80 else 0 := rfl

theorem byteAt_type (p : PartitionPlan) : byteAt p.entryBytes 4 = p.role.mbrType := rfl

variable {role : PartitionRole}

theorem mbrType_ne_zero : role.mbrType ≠ 0 := by
  cases role <;> decide

theorem mbrType_ne_protective : role.mbrType ≠ 0xee := by
  cases role <;> decide

variable {p : PartitionPlan}

theorem Short.le_first (h : p.Short) : le p.entryBytes 8 4 = p.firstLba := by
  have hslice : slice p.entryBytes 8 4 = leBytes 4 p.firstLba := by
    rw [entryBytes, slice_append_left (by simp)]
    exact slice_full _ (by simp)
  rw [le, hslice]
  exact ofLe_leBytes_of_lt h.first_lt

theorem Short.le_count (h : p.Short) : le p.entryBytes 12 4 = p.sectorCount := by
  have hslice : slice p.entryBytes 12 4 = leBytes 4 p.sectorCount := by
    exact slice_full _ (by simp)
  rw [le, hslice]
  exact ofLe_leBytes_of_lt h.count_lt

theorem Short.entryFine (h : p.Short) (hpos : 0 < p.sectorCount) : MbrEntryFine p.entryBytes := by
  constructor
  · rw [byteAt_status]
    cases p.bootable
    · exact .inl rfl
    · exact .inr rfl
  · rw [h.le_count]
    exact iff_of_false mbrType_ne_zero hpos.ne'

theorem Short.entryOf (h : p.Short) : mbrEntryOf p.entryBytes = some p.mbrPartition := by
  have hboot : decide ((if p.bootable then (0x80 : UInt8) else 0) = 0x80) = p.bootable := by
    cases p.bootable <;> rfl
  rw [mbrEntryOf, byteAt_type, if_neg mbrType_ne_zero, h.le_first, h.le_count, byteAt_status]
  simp only [hboot]
  rfl

end PartitionPlan

theorem mbrEntries_decides (plans : List PartitionPlan) :
    Decides (plans.mapM mbrEntry) (∀ p ∈ plans, p.Short)
      (plans.map PartitionPlan.entryBytes) := by
  apply Decides.mapM
  intro p _
  refine Decides.congr (.guard fun _ => .guard fun _ => .of_ok rfl) ?_ fun _ => rfl
  exact ⟨fun h => ⟨h.1, h.2.1⟩, fun h => ⟨h.first_lt, h.count_lt, trivial⟩⟩

def mbrSector (plans : List PartitionPlan) : List UInt8 :=
  writeFields (List.replicate sectorSize 0) (mbrFields (plans.map PartitionPlan.entryBytes))

variable {plans : List PartitionPlan}

theorem mem_mbrFields : f ∈ mbrFields (plans.map PartitionPlan.entryBytes) ↔
      (∃ i p, plans[i]? = some p ∧ f = (446 + i * 16, p.entryBytes)) ∨ f = (510, mbrSignature) := by
  simp only [mbrFields, mem_append, mem_map, Prod.exists, mem_zipIdx_iff_getElem?,
    getElem?_map, Option.map_eq_some_iff, mem_singleton]
  apply or_congr_left
  constructor
  · rintro ⟨_, i, ⟨p, hp, rfl⟩, rfl⟩
    exact ⟨i, p, hp, rfl⟩
  · rintro ⟨i, p, hp, rfl⟩
    exact ⟨_, i, ⟨p, hp, rfl⟩, rfl⟩

section
variable (h : plans.length ≤ 4)
include h

theorem mbrFields_laid : Laid sectorSize (mbrFields (plans.map PartitionPlan.entryBytes)) := by
  refine ⟨?_, pairwise_append.mpr ⟨?_, pairwise_singleton _ _, ?_⟩⟩
  · intro f hf
    rcases mem_mbrFields.mp hf with ⟨i, p, hp, rfl⟩ | rfl
    · have hi := (List.getElem?_eq_some_iff.mp hp).1
      dsimp only [sectorSize]
      rw [p.length_entryBytes]
      omega
    · decide
  · rw [pairwise_map, zipIdx_map, pairwise_map, pairwise_iff_getElem]
    intro i j hi hj hlt
    left
    simp only [Prod.map, id, getElem_zipIdx, PartitionPlan.length_entryBytes]
    omega
  · intro f hf g hg
    left
    rw [mem_singleton.mp hg]
    simp only [mem_map, Prod.exists, mem_zipIdx_iff_getElem?, getElem?_map,
      Option.map_eq_some_iff] at hf
    obtain ⟨_, i, ⟨p, hp, rfl⟩, rfl⟩ := hf
    have hi := (List.getElem?_eq_some_iff.mp hp).1
    rw [p.length_entryBytes]
    omega

@[simp] theorem length_mbrSector : (mbrSector plans).length = 512 := by
  exact (mbrFields_laid h).length_zeros

variable {i : Nat}

theorem mbrSlot_used (hp : plans[i]? = some p) : mbrSlot (mbrSector plans) i = p.entryBytes := by
  have hslot := (mbrFields_laid h).slice_zeros (mem_mbrFields.mpr (.inl ⟨i, p, hp, rfl⟩))
  rwa [p.length_entryBytes] at hslot

theorem mbrSlot_unused (hi : i < 4) (hge : plans.length ≤ i) :
    mbrSlot (mbrSector plans) i = replicate 16 0 := by
  apply (mbrFields_laid h).slice_gap (by dsimp only [sectorSize]; omega)
  intro f hf
  rcases mem_mbrFields.mp hf with ⟨j, p, hp, rfl⟩ | rfl
  · have hj := (List.getElem?_eq_some_iff.mp hp).1
    rw [p.length_entryBytes]
    right
    omega
  · left
    omega

theorem mbrSlot_mbrSector (hi : i < 4) :
    mbrSlot (mbrSector plans) i =
      (plans[i]?.map PartitionPlan.entryBytes).getD (replicate 16 0) := by
  cases hp : plans[i]? with
  | none => exact mbrSlot_unused h hi (getElem?_eq_none_iff.mp hp)
  | some p => exact mbrSlot_used h hp

def planPartitions (plans : List PartitionPlan) : List Partition :=
  plans.zipIdx.map fun p => p.1.partition p.2

variable (hshort : ∀ p ∈ plans, p.Short)
include hshort

theorem mbrOf_mbrSector : mbrOf (mbrSector plans) =
      (range 4).map fun i => plans[i]?.map PartitionPlan.mbrPartition := by
  apply map_congr_left
  intro i hi
  rw [mbrSlot_mbrSector h (mem_range.mp hi)]
  cases hp : plans[i]? with
  | none => rfl
  | some p => exact (hshort p (mem_of_getElem? hp)).entryOf

theorem mbrPartitionsOf_mbrSector :
    mbrPartitionsOf (mbrOf (mbrSector plans)) = planPartitions plans := by
  have hslots : (mbrOf (mbrSector plans)).zipIdx =
      (range 4).map fun i => (plans[i]?.map PartitionPlan.mbrPartition, i) := by
    rw [mbrOf_mbrSector h hshort]
    rfl
  rw [mbrPartitionsOf, hslots, map_map, planPartitions, ← take_of_length_le h,
    ← reduceOption_slots, take_of_length_le h]
  congr 1
  apply map_congr_left
  intro i _
  exact Option.map_map _ _ _

theorem mbrFine_mbrSector (hpos : ∀ p ∈ plans, 0 < p.sectorCount) : MbrFine (mbrSector plans) := by
  constructor
  · exact (mbrFields_laid h).slice_zeros (mem_mbrFields.mpr (.inr rfl))
  · intro i hi
    rw [mbrSlot_mbrSector h hi]
    cases hp : plans[i]? with
    | none => exact ⟨.inl rfl, iff_of_true rfl (by decide)⟩
    | some p =>
      have hmem := mem_of_getElem? hp
      exact (hshort p hmem).entryFine (hpos p hmem)

theorem mem_mbrOf_mbrSector {entry : MbrPartition}
    (hentry : some entry ∈ mbrOf (mbrSector plans)) : ∃ p ∈ plans, entry = p.mbrPartition := by
  rw [mbrOf_mbrSector h hshort] at hentry
  obtain ⟨i, _, hi⟩ := mem_map.mp hentry
  obtain ⟨p, hp, hentry⟩ := Option.map_eq_some_iff.mp hi
  exact ⟨p, mem_of_getElem? hp, hentry.symm⟩

end

theorem noOverlap_planPartitions (h : PlansFine first last plans) :
    NoOverlap (planPartitions plans) := by
  constructor
  · intro q hq
    obtain ⟨slot, hslot, rfl⟩ := mem_map.mp hq
    exact (h.fits slot.1 (fst_mem_of_mem_zipIdx hslot)).stop_lt
  · have hpairs : plans.zipIdx.Pairwise fun p q => p.1.Apart q.1 := by
      rw [← pairwise_map (f := Prod.fst) (R := PartitionPlan.Apart), zipIdx_map_fst]
      exact h.apart
    rw [planPartitions, pairwise_map]
    exact hpairs

section
variable {d : Disk} {total : Nat}

theorem not_protected (h : plans.length ≤ 4) (hshort : ∀ p ∈ plans, p.Short)
    (hsector : sectorAt d 0 = mbrSector plans) : ¬Protected d := by
  intro hprot
  rw [Protected, hsector, any_eq_true] at hprot
  obtain ⟨entry, hmem, hentry⟩ := hprot
  cases entry with
  | none => exact absurd hentry (by decide)
  | some entry =>
    obtain ⟨p, _, rfl⟩ := mem_mbrOf_mbrSector h hshort hmem
    exact PartitionPlan.mbrType_ne_protective (of_decide_eq_true hentry)

theorem mbrDisk (h : plans.length ≤ 4) (hshort : ∀ p ∈ plans, p.Short)
    (hplans : PlansFine 1 (total - 1) plans) (hcount : d.sectorCount = total) (hpos : 0 < total)
    (hsector : sectorAt d 0 = mbrSector plans) : MbrDisk d := by
  constructor
  · intro slot hslot entry hentry
    rw [hsector] at hslot
    have hmem := fst_mem_of_mem_zipIdx hslot
    rw [hentry] at hmem
    obtain ⟨p, hp, rfl⟩ := mem_mbrOf_mbrSector h hshort hmem
    have hfits := hplans.fits p hp
    have hstop := hfits.stop_le
    refine ⟨PartitionPlan.mbrType_ne_protective, hfits.count_pos.ne',
      Nat.pos_iff_ne_zero.mp hfits.first_ge, hfits.stop_lt, ?_⟩
    exact Nat.le_trans hstop (by omega)
  · rw [hsector, mbrPartitionsOf_mbrSector h hshort]
    exact noOverlap_planPartitions hplans

end

variable {image : List UInt8} {plan : LayoutPlan}

theorem readMbr_ok (hfine : plan.Fine) (hkind : plan.kind = .mbr)
    (hshort : ∀ p ∈ plan.partitions, p.Short) (hlen : image.length = 512 * plan.totalSectors)
    (hsector : sectorAt (diskOf image) 0 = mbrSector plan.partitions) :
    readPartitionTable (diskOf image) =
      (.ok { kind := .mbr, diskGuid := none, partitions := planPartitions plan.partitions },
        diskOf image) := by
  have hcount := hfine.mbr_count hkind
  have hge := hfine.total_ge
  have hplans := hfine.plans
  rw [LayoutPlan.firstUsable, LayoutPlan.last, if_neg (by rw [hkind]; decide),
    if_neg (by rw [hkind]; decide)] at hplans
  have hprot : ¬Protected (diskOf image) := not_protected hcount hshort hsector
  have htable : tableOf (diskOf image) =
      { kind := .mbr, diskGuid := none, partitions := planPartitions plan.partitions } := by
    rw [tableOf, if_neg hprot, mbrTableOf, hsector, mbrPartitionsOf_mbrSector hcount hshort]
  rw [← htable]
  apply readPartitionTable_decides.run_ok
  constructor
  · exact Nat.le_refl 512
  · dsimp only [diskOf, sectorSize]
    omega
  · rw [hsector]
    exact mbrFine_mbrSector hcount hshort fun p hp => (hplans.fits p hp).count_pos
  · rw [if_neg hprot]
    exact mbrDisk hcount hshort hplans (sectorCount_diskOf hlen) (by omega) hsector

theorem writeMbr_decides (hfine : plan.Fine)
    (hkind : plan.kind = .mbr) (hlen : 512 ≤ image.length) :
    Decides (writeMbr image plan) (∀ p ∈ plan.partitions, p.Short)
      (splice image 0 (mbrSector plan.partitions)) := by
  refine Decides.congr (.bind (mbrEntries_decides _) fun _ => .of_ok ?_)
    (and_iff_left trivial) fun _ => rfl
  exact copyFromSlice_eq (by dsimp only [sectorSize]; omega)
    (length_mbrSector (hfine.mbr_count hkind))

end NexOs.Host
