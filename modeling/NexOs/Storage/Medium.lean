import NexOs.Storage.Device

/-! The `BlockDevice` trait and what its implementations promise: a call that
succeeds reads or writes the sectors it names, and a call that fails changes
none of them. -/
namespace NexOs.Storage
open Bytes Exec

/-- The trait. A read fills a buffer of its caller, which is part of the state
here: a read that fails may have changed it. -/
class BlockDevice (D : Type) where
  sectorSize : D → Nat
  sectorCount : D → Nat
  readSectors (lba : Nat) : Exec (D × List UInt8) StorageError Unit
  writeSectors (lba : Nat) (input : List UInt8) : Exec D StorageError Unit
  flush : Exec D StorageError Unit

open BlockDevice

/-- A read of the memory device copies into the buffer only when it succeeds. -/
def Disk.readInto (lba : Nat) : Exec (Disk × List UInt8) StorageError Unit := fun s =>
  match Disk.readSectors lba s.2.length s.1 with
  | (.ok bytes, d) => (.ok (), (d, bytes))
  | (.error e, d) => (.error e, (d, s.2))

instance : BlockDevice Disk where
  sectorSize := Disk.sectorSize
  sectorCount := Disk.sectorCount
  readSectors := Disk.readInto
  writeSectors := Disk.writeSectors
  flush := Disk.flush

variable {lba length : Nat}

section
variable {D : Type} [BlockDevice D]

def Whole (d : D) (length : Nat) : Prop := length ≠ 0 ∧ length % sectorSize d = 0

def InRange (d : D) (lba length : Nat) : Prop :=
  Whole d length ∧ lba + length / sectorSize d ≤ sectorCount d

variable (D) in
/-- What a device stores. `Good` are the states it can be in. -/
structure Medium where
  Good : D → Prop
  contents : D → List UInt8

variable {m : Medium D} {d d' : D}

structure Medium.Kept (m : Medium D) (d d' : D) : Prop where
  good : m.Good d'
  size : sectorSize d' = sectorSize d
  count : sectorCount d' = sectorCount d
  contents : m.contents d' = m.contents d

structure Medium.Wrote (m : Medium D) (start : Nat) (input : List UInt8) (d d' : D) : Prop where
  good : m.Good d'
  size : sectorSize d' = sectorSize d
  count : sectorCount d' = sectorCount d
  contents : m.contents d' = splice (m.contents d) start input

/-- Requests in range succeed, or fail with an error and no effect on the sectors. -/
structure Medium.Lawful (m : Medium D) : Prop where
  size_pos : ∀ d, m.Good d → 0 < sectorSize d
  length_eq : ∀ d, m.Good d → (m.contents d).length = sectorCount d * sectorSize d
  count_lt : ∀ d, m.Good d → sectorCount d < 2 ^ 64
  read : ∀ d lba output, m.Good d → InRange d lba output.length →
    ∃ r d' output', readSectors lba (d, output) = (r, (d', output')) ∧ m.Kept d d' ∧
      output'.length = output.length ∧
      (r = .ok () ∧ output' = slice (m.contents d) (lba * sectorSize d) output.length ∨
        ∃ e, r = .error (.error e))
  write : ∀ d lba input, m.Good d → InRange d lba input.length →
    ∃ r d', writeSectors lba input d = (r, d') ∧
      (r = .ok () ∧ m.Wrote (lba * sectorSize d) input d d' ∨
        (∃ e, r = .error (.error e)) ∧ m.Kept d d')
  flush : ∀ d, m.Good d → ∃ r d', BlockDevice.flush d = (r, d') ∧ m.Kept d d' ∧
    (r = .ok () ∨ ∃ e, r = .error (.error e))

def Medium.ReadsSucceed (m : Medium D) : Prop :=
  ∀ d lba output, m.Good d → InRange d lba output.length →
    (readSectors lba (d, output)).1 = .ok ()

def Medium.WritesSucceed (m : Medium D) : Prop :=
  ∀ d lba input, m.Good d → InRange d lba input.length → (writeSectors lba input d).1 = .ok ()

def Medium.FlushesSucceed (m : Medium D) : Prop :=
  ∀ d, m.Good d → (BlockDevice.flush d).1 = .ok ()

/-- Requests in range never fail, and whole sectors that the device does not
have are refused. -/
structure Medium.Reliable (m : Medium D) : Prop extends m.Lawful where
  reads : m.ReadsSucceed
  writes : m.WritesSucceed
  flushes : m.FlushesSucceed
  refusesRead : ∀ d lba output, m.Good d → Whole d output.length → ¬InRange d lba output.length →
    ∃ d', readSectors lba (d, output) = (.error (.error .outOfBounds), (d', output)) ∧ m.Kept d d'
  refusesWrite : ∀ d lba input, m.Good d → Whole d input.length → ¬InRange d lba input.length →
    ∃ d', writeSectors lba input d = (.error (.error .outOfBounds), d') ∧ m.Kept d d'

theorem Medium.Kept.refl (h : m.Good d) : m.Kept d d := ⟨h, rfl, rfl, rfl⟩

theorem InRange.end_le (h : m.Lawful) (hd : m.Good d) (hr : InRange d lba length) :
    lba * sectorSize d + length ≤ (m.contents d).length := by
  have hmul : sectorSize d * (length / sectorSize d) = length :=
    Nat.mul_div_cancel' (Nat.dvd_of_mod_eq_zero hr.1.2)
  have hle := Nat.mul_le_mul_right (sectorSize d) hr.2
  rw [Nat.add_mul, Nat.mul_comm (length / _), hmul] at hle
  rw [h.length_eq d hd]
  exact hle

end

/-! ## The memory device -/

/-- The states of a memory device: whole sectors, as many as an address can name. -/
structure Disk.Usable (d : Disk) : Prop where
  size_pos : 0 < d.sectorSize
  whole : d.bytes.length % d.sectorSize = 0
  count_lt : d.sectorCount < 2 ^ 64

def Disk.medium : Medium Disk where
  Good := Disk.Usable
  contents := Disk.bytes

namespace Disk
variable {d : Disk} {input : List UInt8}

section
variable (h : d.Usable)
include h

theorem inRange_iff (hw : Whole d length) :
    InRange d lba length ↔ lba * d.sectorSize + length ≤ d.bytes.length := by
  have hmul : d.sectorSize * (length / d.sectorSize) = length :=
    Nat.mul_div_cancel' (Nat.dvd_of_mod_eq_zero hw.2)
  have hiff : lba + length / d.sectorSize ≤ d.sectorCount ↔
      (lba + length / d.sectorSize) * d.sectorSize ≤ d.bytes.length :=
    Nat.le_div_iff_mul_le h.size_pos
  rw [Nat.add_mul, Nat.mul_comm (length / _), hmul] at hiff
  exact ⟨fun hr => hiff.mp hr.2, fun hle => ⟨hw, hiff.mpr hle⟩⟩

theorem range_ok (hr : InRange d lba length) : d.range lba length = .ok (lba * d.sectorSize) := by
  have hmod : length % d.sectorSize = 0 := hr.1.2
  unfold range
  rw [Result.ensure_pos hmod, Result.bind_ok,
    Result.ensure_pos ((inRange_iff h hr.1).mp hr), Result.bind_ok]

theorem range_refused (hw : Whole d length) (hr : ¬InRange d lba length) :
    d.range lba length = .error (.error .outOfBounds) := by
  have hmod : length % d.sectorSize = 0 := hw.2
  unfold range
  rw [Result.ensure_pos hmod, Result.ensure_neg (fun hle => hr ((inRange_iff h hw).mpr hle))]
  rfl

variable {output : List UInt8}

theorem readInto_ok (hr : InRange d lba output.length) :
    readInto lba (d, output) =
      (.ok (), (d, slice d.bytes (lba * d.sectorSize) output.length)) := by
  simp only [readInto, readSectors, get_bind, range_ok h hr, lift_ok_bind, pure_run]

theorem readInto_refused (hw : Whole d output.length) (hr : ¬InRange d lba output.length) :
    readInto lba (d, output) = (.error (.error .outOfBounds), (d, output)) := by
  simp only [readInto, readSectors, get_bind, range_refused h hw hr]
  rfl

theorem writeSectors_ok (hr : InRange d lba input.length) :
    writeSectors lba input d = (.ok (),
      { d with bytes := splice d.bytes (lba * d.sectorSize) input
               log := d.log ++ [.write lba input] }) := by
  simp only [writeSectors, get_bind, range_ok h hr]
  rfl

theorem writeSectors_refused (hw : Whole d input.length) (hr : ¬InRange d lba input.length) :
    writeSectors lba input d = (.error (.error .outOfBounds), d) := by
  simp only [writeSectors, get_bind, range_refused h hw hr]
  rfl

theorem wrote (hr : InRange d lba input.length) (log : List Event) :
    medium.Wrote (lba * d.sectorSize) input d
      { d with bytes := splice d.bytes (lba * d.sectorSize) input, log := log } := by
  have hlen : (splice d.bytes (lba * d.sectorSize) input).length = d.bytes.length :=
    length_splice ((inRange_iff h hr.1).mp hr)
  have hcount : sectorCount
      { d with bytes := splice d.bytes (lba * d.sectorSize) input, log := log } = d.sectorCount := by
    simp only [sectorCount, hlen]
  exact ⟨⟨h.size_pos, (congrArg (· % d.sectorSize) hlen).trans h.whole, hcount.symm ▸ h.count_lt⟩,
    rfl, hcount, rfl⟩

end

theorem reliable : medium.Reliable where
  size_pos _ h := h.size_pos
  length_eq _ h := (Nat.div_mul_cancel (Nat.dvd_of_mod_eq_zero h.whole)).symm
  count_lt _ h := h.count_lt
  read _ _ _ h hr :=
    ⟨_, _, _, readInto_ok h hr, .refl h,
      length_slice ((inRange_iff h hr.1).mp hr), .inl ⟨rfl, rfl⟩⟩
  write _ _ _ h hr := ⟨_, _, writeSectors_ok h hr, .inl ⟨rfl, wrote h hr _⟩⟩
  flush _ h := ⟨_, _, rfl, ⟨⟨h.size_pos, h.whole, h.count_lt⟩, rfl, rfl, rfl⟩, .inl rfl⟩
  reads _ _ _ h hr := congrArg Prod.fst (readInto_ok h hr)
  writes _ _ _ h hr := congrArg Prod.fst (writeSectors_ok h hr)
  flushes _ _ := rfl
  refusesRead d _ _ h hw hr := ⟨d, readInto_refused h hw hr, .refl h⟩
  refusesWrite d _ _ h hw hr := ⟨d, writeSectors_refused h hw hr, .refl h⟩

end Disk

end NexOs.Storage
