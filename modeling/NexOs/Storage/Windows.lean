import Mathlib.Data.List.ReduceOption
import Mathlib.Data.Set.Lattice
import Mathlib.Order.CompletePartialOrder
import NexOs.Storage.PartitionRead

/-! What a partition table that was read guarantees about the windows it opens. -/
namespace NexOs.Storage
open Bytes Result

namespace PartitionDevice
variable {D : Type} [BlockDevice D]

/-- The sectors of the inner device that some request through the window can touch. -/
def reach (w : PartitionDevice D) : Set Nat :=
  {sector | ∃ lba byteLength start, w.translatedLba lba byteLength = .ok start ∧
    start ≤ sector ∧ sector < start + byteLength / BlockDevice.sectorSize w.inner}

theorem translatedLba_decides (w : PartitionDevice D) (lba byteLength : Nat) :
    Decides (w.translatedLba lba byteLength)
      (Whole w.inner byteLength ∧
        lba + byteLength / BlockDevice.sectorSize w.inner < 2 ^ 64 ∧
        lba + byteLength / BlockDevice.sectorSize w.inner ≤ w.sectorCount ∧
        w.firstLba + lba < 2 ^ 64) (w.firstLba + lba) := by
  refine Decides.congr (.guard fun _ => .guard fun _ => checkedAdd_decides) ?_ fun _ => rfl
  rw [isNoneOr_checkedAdd, decide_eq_false_iff_not, not_lt, and_assoc]
  apply and_congr_left'
  simp [Whole]

theorem reach_subset (w : PartitionDevice D) :
    w.reach ⊆ Set.Ico w.firstLba (w.firstLba + w.sectorCount) := by
  intro sector ⟨lba, byteLength, start, htrans, hge, hlt⟩
  obtain ⟨⟨_, _, hfit, _⟩, rfl⟩ := (translatedLba_decides w lba byteLength).of_eq_ok htrans
  constructor <;> omega

theorem new_decides (inner : D) (firstLba sectorCount : Nat) :
    Decides (new inner firstLba sectorCount)
      (sectorCount ≠ 0 ∧ firstLba + sectorCount < 2 ^ 64 ∧
        firstLba + sectorCount ≤ BlockDevice.sectorCount inner) ⟨inner, firstLba, sectorCount⟩ := by
  refine Decides.congr (.guard fun _ => .guard fun _ => .of_ok rfl) ?_ fun _ => rfl
  rw [isNoneOr_checkedAdd, decide_eq_false_iff_not, not_lt, and_true]

end PartitionDevice

def Partition.window (d : Disk) (p : Partition) : PartitionDevice Disk :=
  ⟨d, p.firstLba, p.sectorCount⟩

structure Partition.InGpt (d : Disk) (header : GptHeader) (p : Partition) : Prop where
  first_ge : header.firstUsableLba ≤ p.firstLba
  last_le : p.firstLba + p.sectorCount ≤ header.lastUsableLba + 1
  behind_header : 1 < p.firstLba
  behind_entries : header.entriesLba + entrySectors d.sectorSize header ≤ p.firstLba

structure TableFine (d : Disk) (table : PartitionTable) : Prop where
  nonempty : ∀ p ∈ table.partitions, 0 < p.sectorCount
  first_ge : ∀ p ∈ table.partitions, 1 ≤ p.firstLba
  inside : ∀ p ∈ table.partitions, p.firstLba + p.sectorCount ≤ d.sectorCount
  apart : table.partitions.Pairwise Partition.Apart
  indices : table.partitions.Pairwise fun p q => p.index < q.index
  gpt : table.kind = .gpt → ∃ header, parseGptHeader (sectorAt d 1) = .ok header ∧
    table.diskGuid = some header.diskGuid ∧ ∀ p ∈ table.partitions, p.InGpt d header
  opens : ∀ p ∈ table.partitions,
    PartitionDevice.new d p.firstLba p.sectorCount = .ok (p.window d)
  disjoint : table.partitions.Pairwise fun p q => Disjoint (p.window d).reach (q.window d).reach

variable {d : Disk} {p : Partition}

theorem Partition.Apart.disjoint (h : p.Apart q) :
    Disjoint (p.window d).reach (q.window d).reach := by
  rw [Set.disjoint_left]
  intro sector hp hq
  have hp' := PartitionDevice.reach_subset _ hp
  have hq' := PartitionDevice.reach_subset _ hq
  change p.firstLba ≤ sector ∧ sector < p.firstLba + p.sectorCount at hp'
  change q.firstLba ≤ sector ∧ sector < q.firstLba + q.sectorCount at hq'
  unfold Partition.Apart at h
  omega

theorem indices_increase {slots : List (Option Partition × Nat)}
    (hslots : slots.Pairwise fun s t => s.2 < t.2)
    (hindex : ∀ s ∈ slots, ∀ p, s.1 = some p → p.index = s.2 + 1) :
    ((slots.map Prod.fst).reduceOption).Pairwise fun p q => p.index < q.index := by
  unfold List.reduceOption
  rw [List.pairwise_filterMap, List.pairwise_map]
  apply hslots.imp_of_mem
  intro s t hs ht hlt p hp q hq
  rw [hindex s hs p hp, hindex t ht q hq]
  omega

theorem mbrPartitionsOf_indices (entries : List (Option MbrPartition)) :
    (mbrPartitionsOf entries).Pairwise fun p q => p.index < q.index := by
  have hslots : (entries.zipIdx.map fun p => (mbrPartitionOf p.1 p.2, p.2)).Pairwise
      fun s t => s.2 < t.2 := by
    rw [List.pairwise_map, ← List.pairwise_map (f := Prod.snd) (R := (· < ·)), List.zipIdx_map_snd]
    exact List.pairwise_lt_range'
  have hindex : ∀ s ∈ entries.zipIdx.map fun p => (mbrPartitionOf p.1 p.2, p.2),
      ∀ p, s.1 = some p → p.index = s.2 + 1 := by
    intro s hs p hp
    obtain ⟨slot, _, rfl⟩ := List.mem_map.mp hs
    obtain ⟨e, _, rfl⟩ := Option.map_eq_some_iff.mp hp
    rfl
  have hall := indices_increase hslots hindex
  rw [List.map_map] at hall
  exact hall

theorem partitionsOf_indices (header : GptHeader) (bytes : List UInt8) :
    (partitionsOf header bytes).Pairwise fun p q => p.index < q.index := by
  have hslots : ((List.range header.entryCount).map fun i =>
      (entryOf header (entryAt header bytes i) i, i)).Pairwise fun s t => s.2 < t.2 := by
    rw [List.pairwise_map]
    exact List.pairwise_lt_range
  have hindex : ∀ s ∈ (List.range header.entryCount).map fun i =>
      (entryOf header (entryAt header bytes i) i, i), ∀ p, s.1 = some p → p.index = s.2 + 1 := by
    intro s hs p hp
    obtain ⟨i, _, rfl⟩ := List.mem_map.mp hs
    dsimp only at hp ⊢
    obtain ⟨_, rfl⟩ := entryOf_eq_some.mp hp
    rfl
  have hall := indices_increase hslots hindex
  rw [List.map_map, Function.comp_def] at hall
  dsimp only at hall
  exact hall

theorem TableFine.of_bounds {table : PartitionTable}
    (hpos : ∀ p ∈ table.partitions, 0 < p.sectorCount)
    (hfirst : ∀ p ∈ table.partitions, 1 ≤ p.firstLba)
    (hinside : ∀ p ∈ table.partitions, p.firstLba + p.sectorCount ≤ d.sectorCount)
    (hapart : NoOverlap table.partitions)
    (hindices : table.partitions.Pairwise fun p q => p.index < q.index)
    (hgpt : table.kind = .gpt → ∃ header, parseGptHeader (sectorAt d 1) = .ok header ∧
      table.diskGuid = some header.diskGuid ∧ ∀ p ∈ table.partitions, p.InGpt d header) :
    TableFine d table where
  nonempty := hpos
  first_ge := hfirst
  inside := hinside
  apart := hapart.apart
  indices := hindices
  gpt := hgpt
  opens := fun p hp => (PartitionDevice.new_decides d _ _).eq_ok
    ⟨(hpos p hp).ne', hapart.stop_lt p hp, hinside p hp⟩
  disjoint := hapart.apart.imp Partition.Apart.disjoint

theorem MbrDisk.tableFine (h : MbrDisk d) : TableFine d (mbrTableOf d) := by
  have hslot : ∀ p ∈ (mbrTableOf d).partitions, p.sectorCount ≠ 0 ∧ p.firstLba ≠ 0 ∧
      p.firstLba + p.sectorCount < 2 ^ 64 ∧ p.firstLba + p.sectorCount ≤ d.sectorCount := by
    intro p hp
    obtain ⟨slot, hslot, hsome⟩ := List.mem_map.mp (List.reduceOption_mem_iff.mp hp)
    obtain ⟨e, he, rfl⟩ := Option.map_eq_some_iff.mp hsome
    exact (h.slots slot hslot e he).2
  apply TableFine.of_bounds
  · intro p hp
    exact Nat.pos_of_ne_zero (hslot p hp).1
  · intro p hp
    exact Nat.pos_of_ne_zero (hslot p hp).2.1
  · intro p hp
    exact (hslot p hp).2.2.2
  · exact h.apart
  · exact mbrPartitionsOf_indices _
  · intro hkind
    cases hkind

theorem GptDisk.tableFine (hsize : 512 ≤ d.sectorSize) (h : GptDisk d) :
    TableFine d (gptTableOf d (headerOf (sectorAt d 1))) := by
  have hlen := length_sectorAt h.header_on
  have hparse := (parseGptHeader_decides (show 92 ≤ (sectorAt d 1).length by omega)).eq_ok h.header
  have htable := h.table
  generalize headerOf (sectorAt d 1) = header at htable hparse ⊢
  have hentry : ∀ p ∈ (gptTableOf d header).partitions, 0 < p.sectorCount ∧
      header.firstUsableLba ≤ p.firstLba ∧
      p.firstLba + p.sectorCount ≤ header.lastUsableLba + 1 := by
    intro p hp
    obtain ⟨i, hi, hsome⟩ := List.mem_map.mp (List.reduceOption_mem_iff.mp hp)
    obtain ⟨hused, rfl⟩ := entryOf_eq_some.mp hsome
    have hfine := htable.entries i (List.mem_range.mp hi) hused
    have hordered := hfine.ordered
    have hlast := hfine.last_le
    refine ⟨Nat.succ_pos _, hfine.first_ge, ?_⟩
    dsimp only [entryPartition]
    omega
  have hlast := htable.last
  have hbefore := htable.before
  have hentries := htable.entries_ge
  apply TableFine.of_bounds
  · intro p hp
    exact (hentry p hp).1
  · intro p hp
    have := (hentry p hp).2.1
    omega
  · intro p hp
    have := (hentry p hp).2.2
    omega
  · exact htable.apart
  · exact partitionsOf_indices _ _
  · intro _
    refine ⟨header, hparse, rfl, ?_⟩
    intro p hp
    have ⟨_, hfirst, hstop⟩ := hentry p hp
    exact ⟨hfirst, hstop, by omega, by omega⟩

theorem TableDisk.tableFine (h : TableDisk d) : TableFine d (tableOf d) := by
  have htable := h.table
  unfold tableOf
  by_cases hprot : Protected d
  · rw [if_pos hprot] at htable ⊢
    exact htable.tableFine h.size_ge
  · rw [if_neg hprot] at htable ⊢
    exact htable.tableFine

theorem index_pos_of_mem_tableOf (hp : p ∈ (tableOf d).partitions) : 1 ≤ p.index := by
  unfold tableOf at hp
  split at hp
  · obtain ⟨i, _, hsome⟩ := List.mem_map.mp (List.reduceOption_mem_iff.mp hp)
    obtain ⟨_, rfl⟩ := entryOf_eq_some.mp hsome
    exact Nat.succ_pos i
  · obtain ⟨slot, _, hsome⟩ := List.mem_map.mp (List.reduceOption_mem_iff.mp hp)
    obtain ⟨_, _, rfl⟩ := Option.map_eq_some_iff.mp hsome
    exact Nat.succ_pos slot.2

/-- Whatever the sectors hold, reading the partition table ends without a panic,
changes nothing, and a table that is returned opens disjoint windows on the disk. -/
theorem readPartitionTable_safe (d : Disk) :
    ∃ r, readPartitionTable d = (r, d) ∧ r.Total ∧ ∀ table, r = .ok table → TableFine d table := by
  obtain ⟨r, hrun, hdec⟩ := readPartitionTable_decides
  refine ⟨r, hrun, hdec.total, ?_⟩
  intro table hok
  obtain ⟨hdisk, rfl⟩ := hdec.of_eq_ok hok
  exact hdisk.tableFine

end NexOs.Storage
