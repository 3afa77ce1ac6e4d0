import NexOs.Lib.Chunks
import NexOs.Storage.PartitionRead

/-! What a sequence of writes leaves in the sectors of a disk. -/
namespace NexOs.Storage
open List Bytes Result

variable {d : Disk} {writes : List (Nat × List UInt8)} {lba : Nat} {data : List UInt8}

namespace Disk

def put (d : Disk) (lba : Nat) (data : List UInt8) : Disk :=
  { d with bytes := splice d.bytes (lba * d.sectorSize) data, log := d.log ++ [.write lba data] }

def flushed (d : Disk) : Disk := { d with log := d.log ++ [.flush] }

def putAll (d : Disk) (writes : List (Nat × List UInt8)) : Disk :=
  writes.foldl (fun d w => d.put w.1 w.2) d

structure Takes (d : Disk) (w : Nat × List UInt8) : Prop where
  whole : w.2.length % d.sectorSize = 0
  inside : w.1 * d.sectorSize + w.2.length ≤ d.bytes.length

variable {w : Nat × List UInt8}

theorem writeSectors_run (h : d.Takes w) : writeSectors w.1 w.2 d = (.ok (), d.put w.1 w.2) := by
  have hrange : d.range w.1 w.2.length = .ok (w.1 * d.sectorSize) := by
    rw [range, ensure_pos h.whole, bind_ok, ensure_pos h.inside, bind_ok]
  unfold writeSectors
  rw [Exec.get_bind, hrange]
  rfl

theorem range_decides (lba length : Nat) :
    Decides (d.range lba length)
      (length % d.sectorSize = 0 ∧ lba * d.sectorSize + length ≤ d.bytes.length)
      (lba * d.sectorSize) := by
  refine Decides.congr (.guard fun _ => .guard fun _ => .of_ok rfl) ?_ fun _ => rfl
  rw [and_true]

theorem writeSectors_cases (lba : Nat) (input : List UInt8) :
    d.Takes (lba, input) ∧ writeSectors lba input d = (.ok (), d.put lba input) ∨
      ∃ e, writeSectors lba input d = (.error (.error e), d) := by
  rcases range_decides lba input.length with ⟨hrange, _⟩ | ⟨_, e, hrange⟩
  · have htakes : d.Takes (lba, input) := ⟨hrange.1, hrange.2⟩
    exact .inl ⟨htakes, writeSectors_run htakes⟩
  · refine .inr ⟨e, ?_⟩
    unfold writeSectors
    rw [Exec.get_bind, hrange]
    rfl

theorem length_put (h : d.Takes w) : (d.put w.1 w.2).bytes.length = d.bytes.length :=
  length_splice h.inside

theorem Takes.put (hw : d.Takes w) (hv : d.Takes v) : (d.put v.1 v.2).Takes w := by
  constructor
  · exact hw.whole
  · rw [length_put hv]
    exact hw.inside

theorem sectorSize_putAll (d : Disk) : (d.putAll writes).sectorSize = d.sectorSize := by
  induction writes generalizing d with
  | nil => rfl
  | cons w rest ih => exact ih (d.put w.1 w.2)

theorem bytes_putAll (d : Disk) : (d.putAll writes).bytes =
    writeFields d.bytes (writes.map fun w => (w.1 * d.sectorSize, w.2)) := by
  induction writes generalizing d with
  | nil => rfl
  | cons w rest ih => exact ih (d.put w.1 w.2)

theorem length_putAll (h : ∀ w ∈ writes, d.Takes w) :
    (d.putAll writes).bytes.length = d.bytes.length := by
  rw [bytes_putAll, length_writeFields]
  intro f hf
  obtain ⟨w, hw, rfl⟩ := mem_map.mp hf
  exact (h w hw).inside

theorem sectorCount_putAll (h : ∀ w ∈ writes, d.Takes w) :
    (d.putAll writes).sectorCount = d.sectorCount := by
  rw [sectorCount, sectorCount, length_putAll h, sectorSize_putAll]

theorem Takes.putAll (hw : d.Takes w) (h : ∀ v ∈ writes, d.Takes v) :
    (d.putAll writes).Takes w := by
  constructor
  · rw [sectorSize_putAll]
    exact hw.whole
  · rw [sectorSize_putAll, length_putAll h]
    exact hw.inside

end Disk

/-! ## Single sectors -/

/-- Writes of single sectors of the disk, none of them twice. -/
structure Distinct (d : Disk) (writes : List (Nat × List UInt8)) : Prop where
  length : ∀ w ∈ writes, w.2.length = d.sectorSize
  inside : ∀ w ∈ writes, w.1 < d.sectorCount
  nodup : (writes.map Prod.fst).Nodup

theorem lt_sectorCount_end (h : lba < d.sectorCount) :
    lba * d.sectorSize + d.sectorSize ≤ d.bytes.length := by
  have := le_of_sectorCount (Nat.succ_le_of_lt h)
  rwa [Nat.succ_mul] at this

theorem Distinct.takes (h : Distinct d writes) : ∀ w ∈ writes, d.Takes w := by
  intro w hw
  constructor
  · rw [h.length w hw, Nat.mod_self]
  · rw [h.length w hw]
    exact lt_sectorCount_end (h.inside w hw)

theorem apart_of_ne {a b size : Nat} (h : a ≠ b) :
    a * size + size ≤ b * size ∨ b * size + size ≤ a * size := by
  rcases Nat.lt_or_gt_of_ne h with hlt | hlt
  · exact .inl (by rw [← Nat.succ_mul]; exact Nat.mul_le_mul_right size hlt)
  · exact .inr (by rw [← Nat.succ_mul]; exact Nat.mul_le_mul_right size hlt)

theorem Distinct.laid (h : Distinct d writes) :
    Laid d.bytes.length (writes.map fun w => (w.1 * d.sectorSize, w.2)) := by
  constructor
  · intro f hf
    obtain ⟨w, hw, rfl⟩ := mem_map.mp hf
    exact (h.takes w hw).inside
  · have hpair : writes.Pairwise fun v w => v.1 ≠ w.1 := pairwise_map.mp h.nodup
    rw [pairwise_map]
    apply hpair.imp_of_mem
    intro v w hv hw hne
    unfold Apart
    rw [h.length v hv, h.length w hw]
    exact apart_of_ne hne

theorem Distinct.sectorAt_putAll (h : Distinct d writes)
    (hw : (lba, data) ∈ writes) : sectorAt (d.putAll writes) lba = data := by
  have hlen := h.length (lba, data) hw
  have hmem := mem_map_of_mem (f := fun w => (w.1 * d.sectorSize, w.2)) hw
  have hslice := h.laid.slice_eq le_rfl hmem
  rw [sectorAt, Disk.bytes_putAll, Disk.sectorSize_putAll]
  rwa [hlen] at hslice

theorem slice_eq_sectors (d : Disk) (lba count : Nat) :
    slice d.bytes (lba * d.sectorSize) (count * d.sectorSize) =
      (range count).flatMap fun i => sectorAt d (lba + i) := by
  induction count with
  | zero => simp [slice]
  | succ n ih =>
    rw [Nat.succ_mul, slice_add, ih, range_succ, flatMap_append, flatMap_singleton,
      sectorAt, Nat.add_mul]

section
variable (h : d.Takes (lba, data)) (hlen : data.length = d.sectorSize)
include h hlen

theorem sectorAt_put_self : sectorAt (d.put lba data) lba = data := by
  have hself := slice_splice_self h.inside
  rw [hlen] at hself
  exact hself

theorem sectorAt_put_of_ne {other : Nat} (hne : other ≠ lba) :
    sectorAt (d.put lba data) other = sectorAt d other := by
  apply slice_splice_of_disjoint h.inside
  rw [hlen]
  exact apart_of_ne hne

end

theorem sectorCount_zeroed (sectors : Nat) : (Disk.zeroed sectors 512).sectorCount = sectors := by
  rw [Disk.sectorCount, Disk.zeroed, length_replicate, Nat.mul_div_cancel _ (by decide)]

/-! ## Sector by sector -/

/-- The sectors after a write of whole sectors. -/
def overlay (size lba : Nat) (data : List UInt8) (sectors : Nat → List UInt8) (l : Nat) :
    List UInt8 :=
  if lba ≤ l ∧ l < lba + data.length / size then slice data ((l - lba) * size) size else sectors l

theorem sectorAt_put (h : d.Takes (lba, data)) (l : Nat) :
    sectorAt (d.put lba data) l = overlay d.sectorSize lba data (sectorAt d) l := by
  have hinside := h.inside
  have hwhole := Nat.div_mul_cancel (Nat.dvd_of_mod_eq_zero h.whole)
  unfold overlay
  by_cases hl : lba ≤ l ∧ l < lba + data.length / d.sectorSize
  · have hstart := Nat.mul_le_mul_right d.sectorSize hl.1
    have hstop := Nat.mul_le_mul_right d.sectorSize (Nat.succ_le_of_lt hl.2)
    rw [Nat.succ_mul, Nat.add_mul, hwhole] at hstop
    rw [if_pos hl, Nat.sub_mul]
    exact slice_splice_within hinside hstart hstop
  · rw [if_neg hl]
    apply slice_splice_of_disjoint hinside
    rcases Nat.lt_or_ge l lba with hlt | hge
    · left
      rw [← Nat.succ_mul]
      exact Nat.mul_le_mul_right d.sectorSize hlt
    · right
      have hge' := Nat.mul_le_mul_right d.sectorSize (show lba + data.length / d.sectorSize ≤ l by
        omega)
      rwa [Nat.add_mul, hwhole] at hge'

/-- `d'` is `d` after some writes: what its sectors hold, and that all writes were inside. -/
structure Rewritten (d d' : Disk) (sectors : Nat → List UInt8) : Prop where
  size : d'.sectorSize = d.sectorSize
  length : d'.bytes.length = d.bytes.length
  sector : ∀ l, sectorAt d' l = sectors l
  log : ∃ events, d'.log = d.log ++ events ∧ ∀ lba data, .write lba data ∈ events →
    lba + data.length / d.sectorSize ≤ d.sectorCount

namespace Rewritten
variable {d d' : Disk} {sectors : Nat → List UInt8}

theorem refl (d : Disk) : Rewritten d d (sectorAt d) :=
  ⟨rfl, rfl, fun _ => rfl, [], (append_nil _).symm, fun _ _ h => absurd h not_mem_nil⟩

variable (h : Rewritten d d' sectors)
include h

theorem count : d'.sectorCount = d.sectorCount := by
  rw [Disk.sectorCount, Disk.sectorCount, h.size, h.length]

theorem congr {sectors' : Nat → List UInt8} (hsame : ∀ l, sectors l = sectors' l) :
    Rewritten d d' sectors' :=
  ⟨h.size, h.length, fun l => (h.sector l).trans (hsame l), h.log⟩

theorem flushed : Rewritten d d'.flushed sectors := by
  obtain ⟨events, hlog, hinside⟩ := h.log
  refine ⟨h.size, h.length, h.sector, events ++ [.flush], ?_, ?_⟩
  · rw [Disk.flushed, hlog, append_assoc]
  · intro lba data hmem
    rcases mem_append.mp hmem with hmem | hmem
    · exact hinside lba data hmem
    · cases mem_singleton.mp hmem

theorem write (hwhole : data.length % d.sectorSize = 0)
    (hinside : lba + data.length / d.sectorSize ≤ d.sectorCount) :
    ∃ d'', Disk.writeSectors lba data d' = (.ok (), d'') ∧
      Rewritten d d'' (overlay d.sectorSize lba data sectors) := by
  have hdata := Nat.div_mul_cancel (Nat.dvd_of_mod_eq_zero hwhole)
  have hend := le_of_sectorCount hinside
  rw [Nat.add_mul, hdata] at hend
  have htakes : d'.Takes (lba, data) := by
    constructor
    · rwa [h.size]
    · rw [h.size, h.length]
      exact hend
  refine ⟨_, Disk.writeSectors_run htakes, h.size, (Disk.length_put htakes).trans h.length, ?_, ?_⟩
  · intro l
    rw [sectorAt_put htakes, h.size]
    exact congrArg (fun other => overlay d.sectorSize lba data other l) (funext h.sector)
  · obtain ⟨events, hlog, hin⟩ := h.log
    refine ⟨events ++ [.write lba data], ?_, ?_⟩
    · rw [Disk.put, hlog, append_assoc]
    · intro other bytes hmem
      rcases mem_append.mp hmem with hmem | hmem
      · exact hin other bytes hmem
      · cases mem_singleton.mp hmem
        exact hinside

theorem writeSector (hsize : 0 < d.sectorSize) (hdata : data.length = d.sectorSize)
    (hinside : lba < d.sectorCount) :
    ∃ d'', Disk.writeSectors lba data d' = (.ok (), d'') ∧
      Rewritten d d'' (Function.update sectors lba data) := by
  obtain ⟨d'', hrun, hd''⟩ := h.write (by rw [hdata, Nat.mod_self])
    (show lba + data.length / d.sectorSize ≤ d.sectorCount by rwa [hdata, Nat.div_self hsize])
  refine ⟨d'', hrun, hd''.congr ?_⟩
  intro l
  rw [overlay, hdata, Nat.div_self hsize, Function.update_apply]
  by_cases hl : l = lba
  · rw [if_pos hl, if_pos (by omega), hl, Nat.sub_self, Nat.zero_mul, slice_full data hdata.symm]
  · rw [if_neg hl, if_neg (by omega)]

theorem writeZeros (hsize : 0 < d.sectorSize) {count : Nat} (hinside : lba + count ≤ d.sectorCount)
    :
    ∃ d'', Disk.writeSectors lba (replicate (count * d.sectorSize) 0) d' = (.ok (), d'') ∧
      Rewritten d d'' fun l => if lba ≤ l ∧ l < lba + count then replicate d.sectorSize 0
        else sectors l := by
  have hlen : (replicate (count * d.sectorSize) (0 : UInt8)).length / d.sectorSize = count := by
    rw [length_replicate, Nat.mul_div_cancel _ hsize]
  have hwhole : (replicate (count * d.sectorSize) (0 : UInt8)).length % d.sectorSize = 0 := by
    rw [length_replicate, Nat.mul_mod_left]
  obtain ⟨d'', hrun, hd''⟩ := h.write hwhole (hlen.symm ▸ hinside)
  refine ⟨d'', hrun, hd''.congr ?_⟩
  intro l
  rw [overlay, hlen]
  by_cases hl : lba ≤ l ∧ l < lba + count
  · have hmul := Nat.mul_le_mul_right d.sectorSize (show l - lba + 1 ≤ count by omega)
    rw [Nat.succ_mul] at hmul
    rw [if_pos hl, if_pos hl, slice_replicate _ hmul]
  · rw [if_neg hl, if_neg hl]

end Rewritten

end NexOs.Storage
