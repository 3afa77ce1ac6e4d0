import NexOs.Fat.Chains
import Mathlib.Data.List.ProdSigma

/-! The slots of a directory, and what the loops over them read and write. -/
namespace NexOs.Storage
open List Bytes Exec

abbrev Slot := Nat × Nat

def IsEnd (entry : List UInt8) : Prop := byteAt entry 0 = 0

def IsLive (entry : List UInt8) : Prop :=
  byteAt entry 0 ≠ 0 ∧ byteAt entry 0 ≠ 0xe5 ∧
    ¬(byteAt entry 11 = attrLongName ∨ byteAt entry 11 &&& attrVolumeId ≠ 0)

instance : DecidablePred IsEnd := fun _ => inferInstanceAs (Decidable (_ = _))

instance : DecidablePred IsLive := fun _ => inferInstanceAs (Decidable (_ ∧ _))

namespace Volume

def slot (v : Volume) (s : Slot) : List UInt8 := slice (v.data s.1) (s.2 * 32) 32

end Volume

namespace Fat32

def sectorSlots (fs : Fat32) : Nat := fs.bytesPerSector / 32

def clusterSlots (fs : Fat32) : Nat := fs.sectorsPerCluster * fs.sectorSlots

def location (fs : Fat32) (s : Slot) : EntryLocation :=
  ⟨fs.dataLba s.1 + s.2 / fs.sectorSlots, s.2 % fs.sectorSlots * 32⟩

def slots (fs : Fat32) (chain : List Nat) : List Slot :=
  chain ×ˢ List.range fs.clusterSlots

variable {fs : Fat32} {d : Disk} {v : Volume} {c : Nat} {cs : List Nat} {s : Slot}

theorem mem_slots : s ∈ fs.slots cs ↔ s.1 ∈ cs ∧ s.2 < fs.clusterSlots := by
  rw [slots, mem_product, mem_range]

theorem slots_eq :
    fs.slots cs = cs.flatMap fun c => (range fs.clusterSlots).map (Prod.mk c) := rfl

theorem Geometry.sectorSlots_mul (h : fs.Geometry d) : fs.sectorSlots * 32 = fs.bytesPerSector :=
  Nat.div_mul_cancel (Nat.dvd_of_mod_eq_zero h.sector_mod)

/-! ## Looping over the slots -/

theorem range_flatMap_range (m n : Nat) :
    (range m).flatMap (fun k => (range n).map fun j => k * n + j) =
      range (m * n) := by
  induction m with
  | zero => rw [Nat.zero_mul]; rfl
  | succ m ih =>
    rw [range_succ, flatMap_append, ih, flatMap_singleton, Nat.succ_mul, range_add]

theorem Geometry.slot_eq (h : fs.Geometry d) (hj : j < fs.sectorSlots) :
    slice (slice (v.data c) (k * fs.bytesPerSector) fs.bytesPerSector) (j * 32) 32 =
      v.slot (c, k * fs.sectorSlots + j) := by
  have hmul := h.sectorSlots_mul
  have hle := Nat.mul_le_mul_right 32 (Nat.succ_le_of_lt hj)
  rw [Nat.succ_mul, hmul] at hle
  rw [slice_slice hle, Volume.slot]
  rw [Nat.add_mul, Nat.mul_assoc, hmul]

theorem location_eq (hj : j < fs.sectorSlots) :
    fs.location (c, k * fs.sectorSlots + j) = ⟨fs.dataLba c + k, j * 32⟩ := by
  rw [location, Nat.mul_comm k, Nat.mul_add_div (Nat.zero_lt_of_lt hj), Nat.div_eq_of_lt hj,
    Nat.mul_add_mod, Nat.mod_eq_of_lt hj, Nat.add_zero]

def raw (fs : Fat32) (v : Volume) (s : Slot) : RawDirectoryEntry := ⟨fs.location s, v.slot s⟩

/-- A body that looks at the location and the bytes of a slot visits them all in order. -/
theorem Holds.scanSlots_run (h : fs.Holds d v) (hvalid : ∀ x ∈ cs, fs.validCluster x) {α : Type}
    {visit : α → Nat → List UInt8 → Nat → Result StorageError (ForInStep α)}
    (step : α → RawDirectoryEntry → ForInStep α)
    (hvisit : ∀ a lba sector offset, offset + 32 ≤ sector.length →
      visit a lba sector offset = .ok (step a ⟨⟨lba, offset⟩, slice sector offset 32⟩)) (a : α) :
    fs.scanSlots visit cs a d =
      (.ok (scan (fun a s => step a (fs.raw v s)) (fs.slots cs) a), d) := by
  have hg := h.geometry
  have hmul := hg.sectorSlots_mul
  rw [slots_eq, ← scan_flatMap]
  apply scanM_run
  intro c hc a
  have hend := hg.dataLba_end (hvalid c hc)
  have hlt := hg.total_lt
  rw [hg.clusterLba_ok (hvalid c hc), clusterSlots, ← range_flatMap_range,
    map_flatMap, ← scan_flatMap]
  apply scanM_run
  intro k hk a
  have hk := mem_range.mp hk
  have hsector := hg.length_sectorAt (show fs.dataLba c + k < fs.totalSectors by omega)
  have hslots : divCeil (sectorAt d (fs.dataLba c + k)).length 32 = fs.sectorSlots := by
    rw [divCeil]
    omega
  rw [checkedAdd_eq (by omega), okOr_some, pure_bind_run,
    bind_of_ok (hg.readSector_run (by omega)), hslots, map_map, ← scan_map]
  have hscan := @Result.scanM_ok StorageError α Nat
    (fun a j => step a (fs.raw v (c, k * fs.sectorSlots + j)))
    (fun a slot => visit a (fs.dataLba c + k) (sectorAt d (fs.dataLba c + k)) (slot * 32))
    (range fs.sectorSlots)
  rw [hscan]
  · rfl
  · intro j hj a
    have hj := mem_range.mp hj
    rw [hvisit _ _ _ _ (by omega), raw, location_eq hj, ← hg.slot_eq hj,
      h.sectorAt_eq (hvalid c hc) hk]

/-! ## Reading a directory -/

def entries (fs : Fat32) (v : Volume) (chain : List Nat) : List Slot :=
  ((fs.slots chain).takeWhile fun s => ¬IsEnd (v.slot s)).filter fun s => IsLive (v.slot s)

theorem visitEntry_ok (found : List RawDirectoryEntry) (lba : Nat) (sector : List UInt8)
    (offset : Nat) (h : offset + 32 ≤ sector.length) : visitEntry found lba sector offset =
      .ok (collectStep (fun e => IsEnd e.bytes) (fun e => IsLive e.bytes) id found
        ⟨⟨lba, offset⟩, slice sector offset 32⟩) := by
  have hmarker : byteAt (slice sector offset 32) 0 = byteAt sector offset :=
    byteAt_slice (by decide)
  have hattributes : byteAt (slice sector offset 32) 11 = byteAt sector (offset + 11) :=
    byteAt_slice (by decide)
  unfold visitEntry
  rw [index_byte (by omega), index_byte (by omega), Result.bind_ok, ← hmarker,
    ← hattributes, rangeOf_eq ⟨by omega, h⟩, Result.bind_ok, Nat.add_sub_cancel_left]
  by_cases hend : byteAt (slice sector offset 32) 0 = 0
  · rw [if_pos hend, collectStep_stop]
    exact hend
  · rw [if_neg hend]
    by_cases hfree : byteAt (slice sector offset 32) 0 = 0xe5
    · rw [if_pos hfree, collectStep_skip]
      · exact hend
      · exact fun hlive => hlive.2.1 hfree
    · rw [if_neg hfree]
      by_cases hskip : byteAt (slice sector offset 32) 11 = attrLongName ∨
          byteAt (slice sector offset 32) 11 &&& attrVolumeId ≠ 0
      · rw [if_pos hskip, collectStep_skip]
        · exact hend
        · exact fun hlive => hlive.2.2 hskip
      · rw [if_neg hskip, collectStep_keep]
        · rfl
        · exact hend
        · exact ⟨hend, hfree, hskip⟩

theorem Holds.readDirectory_run (h : fs.Holds d v) (hchain : fs.IsChain v c cs) :
    fs.readDirectory c d = (.ok ((fs.entries v cs).map (fs.raw v)), d) := by
  have hscan := h.scanSlots_run hchain.valid _ visitEntry_ok []
  have hvalue : (scan (fun a s => collectStep (fun e => IsEnd e.bytes) (fun e => IsLive e.bytes) id a
      (fs.raw v s)) (fs.slots cs) []).value = (fs.entries v cs).map (fs.raw v) :=
    scan_collectStep (f := fs.raw v) (fun s => IsEnd (v.slot s)) (fun s => IsLive (v.slot s))
  unfold readDirectory
  rw [bind_of_ok (h.clusterChain_run hchain), bind_of_ok hscan, hvalue]
  rfl

end Fat32

end NexOs.Storage
