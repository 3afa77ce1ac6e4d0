import NexOs.Lib.Tiling
import NexOs.Kernel.HeapTable
import Mathlib.Algebra.BigOperators.Group.List.Basic

/-! What one call does to the segments of the heap. -/
namespace NexOs.Kernel.KernelHeap
open List Bytes Align Tiling Shape Exec

def shape : Shape Segment where
  offset := Segment.offset
  size := Segment.size
  free := Segment.free
  ext := by
    rintro ⟨_, _, _⟩ ⟨_, _, _⟩ rfl rfl rfl
    rfl

structure Invariant (h : KernelHeap) (l : List Segment) : Prop where
  lists : h.Lists l
  tiles : shape.Tiles 0 l h.size
  separated : shape.Separated l
  used : h.used = ((shape.used l).map Segment.size).sum
  active : h.activeAllocations = (shape.used l).length
  start_pos : 0 < h.virtualStart
  wrap : h.virtualStart + h.size ≤ 2 ^ 64

variable {ε : Type} {h h' : KernelHeap} {l before after : List Segment} {s p q m : Segment}
  {size align offset : Nat} {placement : Placement}

theorem Tiles.sum_used_le (ht : shape.Tiles a l b) :
    a + ((shape.used l).map Segment.size).sum ≤ b := by
  induction l generalizing a with
  | nil => exact Nat.le_of_eq ht
  | cons s l ih =>
    have hrest := ih ht.2.2
    have hsize : shape.size s = s.size := rfl
    cases hs : shape.free s with
    | true =>
      rw [used_cons_of_free hs]
      omega
    | false =>
      rw [used_cons_of_used hs, map_cons, sum_cons]
      omega

/-! ## Allocation -/

structure Places (virtualStart : Nat) (s : Segment) (size align : Nat) (placement : Placement) :
    Prop where
  aligned : placement.alignedAddress % align = 0
  address : placement.alignedAddress = virtualStart + placement.alignedOffset
  offset_le : s.offset ≤ placement.alignedOffset
  allocation : placement.allocationEnd = placement.alignedOffset + size
  segment : placement.segmentEnd = s.offset + s.size

theorem place_eq_some {virtualStart : Nat} (halign : align.isPowerOfTwo)
    (hplace : place virtualStart s size align = some placement) :
    Places virtualStart s size align placement ∧ placement.alignedAddress =
      (virtualStart + s.offset + (align - 1)) / align * align := by
  obtain ⟨k, rfl⟩ := halign
  simp only [place, checkedAdd, checkedSub, Option.bind_eq_bind, Option.bind_eq_some_iff,
    Option.ite_none_right_eq_some, Option.some.injEq] at hplace
  obtain ⟨_, ⟨-, rfl⟩, _, ⟨hunaligned, rfl⟩, _, ⟨hsub, rfl⟩, _, ⟨-, rfl⟩, _, ⟨-, rfl⟩, rfl⟩ := hplace
  have hlt : virtualStart + s.offset + (2 ^ k - 1) < 2 ^ 64 := hunaligned
  have hk : k ≤ 64 := by
    have hle : (2 : Nat) ^ k ≤ 2 ^ 64 := by omega
    exact (Nat.pow_le_pow_iff_right (by decide)).mp hle
  rw [and_notU64 hlt hk] at hsub ⊢
  have hround : virtualStart + s.offset ≤
      (virtualStart + s.offset + (2 ^ k - 1)) / 2 ^ k * 2 ^ k := by
    have hdiv := Nat.div_add_mod (virtualStart + s.offset + (2 ^ k - 1)) (2 ^ k)
    rw [Nat.mul_comm] at hdiv
    omega
  refine ⟨⟨?_, ?_, ?_, rfl, rfl⟩, rfl⟩
  · exact Nat.mul_mod_left _ _
  · dsimp only
    omega
  · dsimp only
    omega

def cut (s : Segment) (offset size : Nat) : List Segment :=
  (if offset - s.offset ≠ 0 then [⟨s.offset, offset - s.offset, true⟩] else []) ++
    [⟨offset, size, false⟩] ++
    (if s.offset + s.size - (offset + size) ≠ 0 then
      [⟨offset + size, s.offset + s.size - (offset + size), true⟩] else [])

theorem cut_ne_nil (size : Nat) : cut s offset size ≠ [] := by
  simp [cut]

theorem used_cut (size : Nat) : shape.used (cut s offset size) = [⟨offset, size, false⟩] := by
  have hone : ∀ (c : Prop) [Decidable c] (o z : Nat),
      shape.used (if c then [⟨o, z, true⟩] else []) = [] := by
    intro c _ o z
    by_cases hc : c
    · rw [if_pos hc]
      rfl
    · rw [if_neg hc]
      rfl
  rw [cut, used_append, used_append, hone, hone]
  rfl

theorem tiles_cut (hoffset : s.offset ≤ offset) (hsize : 0 < size)
    (hfits : offset + size ≤ s.offset + s.size) :
    shape.Tiles s.offset (cut s offset size) (s.offset + s.size) := by
  have hfirst : shape.Tiles s.offset
      (if offset - s.offset ≠ 0 then [⟨s.offset, offset - s.offset, true⟩] else []) offset := by
    by_cases hzero : offset - s.offset ≠ 0
    · rw [if_pos hzero]
      exact ⟨rfl, Nat.pos_of_ne_zero hzero, Nat.add_sub_cancel' hoffset⟩
    · rw [if_neg hzero]
      exact (by omega : s.offset = offset)
  have hlast : shape.Tiles (offset + size) (if s.offset + s.size - (offset + size) ≠ 0 then
      [⟨offset + size, s.offset + s.size - (offset + size), true⟩] else [])
      (s.offset + s.size) := by
    by_cases hzero : s.offset + s.size - (offset + size) ≠ 0
    · rw [if_pos hzero]
      exact ⟨rfl, Nat.pos_of_ne_zero hzero, Nat.add_sub_cancel' hfits⟩
    · rw [if_neg hzero]
      exact (by omega : offset + size = s.offset + s.size)
  rw [cut, append_assoc, tiles_append]
  exact ⟨offset, hfirst, rfl, hsize, hlast⟩

theorem separated_cut (size : Nat) : shape.Separated (cut s offset size) := by
  unfold cut Separated shape
  by_cases hfirst : offset - s.offset ≠ 0
  · by_cases hlast : s.offset + s.size - (offset + size) ≠ 0
    · simp [hfirst, hlast]
    · simp [hfirst, hlast]
  · by_cases hlast : s.offset + s.size - (offset + size) ≠ 0
    · simp [hfirst, hlast]
    · simp [hfirst, hlast]

/-- A free segment has room for an aligned block at `address`. -/
structure Room (h : KernelHeap) (size align : Nat) (s : Segment) (address : Nat) : Prop where
  free : s.free = true
  aligned : address % align = 0
  start_le : h.virtualStart + s.offset ≤ address
  end_le : address + size ≤ h.virtualStart + s.offset + s.size

/-- The table has an entry for each part of a segment that the block is cut from. -/
def Splits (h : KernelHeap) (size : Nat) (s : Segment) (address : Nat) : Prop :=
  h.segmentCount - 1 + (cut s (address - h.virtualStart) size).length ≤ maxSegments

instance (h : KernelHeap) (size : Nat) (s : Segment) (address : Nat) :
    Decidable (h.Splits size s address) :=
  inferInstanceAs (Decidable (_ ≤ _))

def lowest (h : KernelHeap) (align : Nat) (s : Segment) : Nat :=
  (h.virtualStart + s.offset + (align - 1)) / align * align

def suits (h : KernelHeap) (size align : Nat) (s : Segment) : Bool :=
  s.free && decide (h.lowest align s + size ≤ h.virtualStart + s.offset + s.size)

theorem lowest_le_iff (halign : 0 < align) (haligned : address % align = 0) :
    h.lowest align s ≤ address ↔ h.virtualStart + s.offset ≤ address := by
  obtain ⟨q, rfl⟩ := Nat.dvd_of_mod_eq_zero haligned
  rw [lowest, Nat.mul_comm align, Nat.mul_le_mul_right_iff halign, ← Nat.lt_succ_iff,
    Nat.div_lt_iff_lt_mul halign, Nat.succ_mul]
  omega

theorem lowest_mod (h : KernelHeap) (align : Nat) (s : Segment) : h.lowest align s % align = 0 :=
  Nat.mul_mod_left _ _

theorem le_lowest (h : KernelHeap) (s : Segment) (halign : 0 < align) :
    h.virtualStart + s.offset ≤ h.lowest align s :=
  (lowest_le_iff halign (h.lowest_mod align s)).mp le_rfl

theorem suits_iff (halign : 0 < align) :
    h.suits size align s = true ↔ ∃ address, h.Room size align s address := by
  rw [suits, Bool.and_eq_true, decide_eq_true_iff]
  constructor
  · rintro ⟨hfree, hend⟩
    exact ⟨h.lowest align s, hfree, h.lowest_mod align s, h.le_lowest s halign, hend⟩
  · rintro ⟨address, hroom⟩
    have hle := (lowest_le_iff halign hroom.aligned).mpr hroom.start_le
    exact ⟨hroom.free, (Nat.add_le_add_right hle size).trans hroom.end_le⟩

/-- The arithmetic does not overflow in front of a segment that has room. -/
theorem Invariant.place_ne_none (hi : h.Invariant l) (hs : s ∈ l) (hq : q ∈ l)
    (hle : s.offset ≤ q.offset) (hroom : h.Room size align q address)
    (hsize : 0 < size) (halign : align.isPowerOfTwo) :
    place h.virtualStart s size align ≠ none := by
  obtain ⟨k, rfl⟩ := halign
  have hpos := Nat.two_pow_pos k
  have hstart := hi.start_pos
  have hwrap := hi.wrap
  have hbounds := Tiles.bounds hi.tiles hs
  have hbounds' := Tiles.bounds hi.tiles hq
  dsimp only [shape] at hbounds hbounds'
  have hend := hroom.end_le
  have hfirst : h.virtualStart + s.offset ≤ address :=
    (Nat.add_le_add_left hle _).trans hroom.start_le
  have hlowest := (lowest_le_iff hpos hroom.aligned).mpr hfirst
  have hlowest' := h.le_lowest s hpos
  have hdvd := Nat.dvd_of_mod_eq_zero hroom.aligned
  have hk : k ≤ 64 := by
    have hle : (2 : Nat) ^ k ≤ 2 ^ 64 := (Nat.le_of_dvd (by omega) hdvd).trans (by omega)
    exact (Nat.pow_le_pow_iff_right (by decide)).mp hle
  have hgap : 2 ^ k ≤ 2 ^ 64 - address :=
    Nat.le_of_dvd (by omega) (Nat.dvd_sub (Nat.pow_dvd_pow 2 hk) hdvd)
  rw [lowest] at hlowest hlowest'
  simp only [place, Option.bind_eq_bind]
  rw [checkedAdd_eq (by omega), Option.bind_some, checkedAdd_eq (by omega), Option.bind_some,
    and_notU64 (by omega) hk, checkedSub_eq (by omega),
    checkedAdd_eq (by omega), Option.bind_some, checkedAdd_eq (by omega)]
  exact Option.some_ne_none _

/-- What `allocate` returns when this is the first segment that suits. -/
def reply (h : KernelHeap) (size align : Nat) : Option Segment → Result ε (Option Nat)
  | none => .ok none
  | some s =>
    if h.Splits size s (h.lowest align s) then
      if h.totalAllocations + 1 < 2 ^ 64 then .ok (some (h.lowest align s)) else .error .panic
    else
      .ok none

structure Cuts (h : KernelHeap) (l : List Segment) (size align address : Nat)
    (l' : List Segment) : Prop where
  size_pos : 0 < size
  aligned : address % align = 0
  start_le : h.virtualStart ≤ address
  split : ∃ before s after, l = before ++ s :: after ∧ s.free = true ∧
    s.offset ≤ address - h.virtualStart ∧
    address - h.virtualStart + size ≤ s.offset + s.size ∧
    l' = before ++ (cut s (address - h.virtualStart) size ++ after)

section
variable {address : Nat} {l' : List Segment} (hcuts : h.Cuts l size align address l')
include hcuts

theorem Cuts.tiles (ht : shape.Tiles 0 l stop) : shape.Tiles 0 l' stop := by
  obtain ⟨before, s, after, rfl, -, hoffset, hfits, rfl⟩ := hcuts.split
  obtain ⟨hbefore, -, hafter⟩ := tiles_middle.mp ht
  rw [tiles_append]
  refine ⟨s.offset, hbefore, ?_⟩
  rw [tiles_append]
  exact ⟨s.offset + s.size, tiles_cut hoffset hcuts.size_pos hfits, hafter⟩

theorem Cuts.separated (hsep : shape.Separated l) : shape.Separated l' := by
  obtain ⟨before, s, after, rfl, hs, -, -, rfl⟩ := hcuts.split
  obtain ⟨hbefore, hafter⟩ := Separated.middle hsep
  obtain ⟨hlast, hhead⟩ := Separated.neighbours hsep hs
  exact Separated.insert hbefore hafter (separated_cut _) hlast hhead

theorem Cuts.used :
    (shape.used l').Perm (⟨address - h.virtualStart, size, false⟩ :: shape.used l) := by
  obtain ⟨before, s, after, rfl, hs, -, -, rfl⟩ := hcuts.split
  rw [used_append, used_append, used_cut, used_append, used_cons_of_free hs]
  exact perm_middle

theorem Cuts.sum_used :
    ((shape.used l').map Segment.size).sum = ((shape.used l).map Segment.size).sum + size := by
  rw [(hcuts.used.map Segment.size).sum_eq, map_cons, sum_cons, Nat.add_comm]

end

inductive Allocates (h : KernelHeap) (l : List Segment) (size align : Nat) :
    Result ε (Option Nat) × KernelHeap → Prop
  | none : Allocates h l size align (.ok none, h)
  | some {address : Nat} {l' table : List Segment} {count : Nat}
      (hcuts : h.Cuts l size align address l')
      (hlists : ({ h with segments := table, segmentCount := count }).Lists l') :
      Allocates h l size align (.ok (some address), { h with
        segments := table
        segmentCount := count
        used := h.used + size
        peakUsed := max h.peakUsed (h.used + size)
        activeAllocations := h.activeAllocations + 1
        totalAllocations := h.totalAllocations + 1 })
  | panic {left : KernelHeap} (hfull : 2 ^ 64 ≤ h.totalAllocations + 1) :
      Allocates h l size align (.error .panic, left)

theorem Invariant.allocateAt_run (hi : h.Invariant (before ++ s :: after)) (hs : s.free = true)
    (hsize : 0 < size) (hplaces : Places h.virtualStart s size align placement)
    (hfits : placement.allocationEnd ≤ placement.segmentEnd) :
    Allocates (ε := ε) h (before ++ s :: after) size align
        (allocateAt before.length s size placement h) ∧
      (allocateAt (ε := ε) before.length s size placement h).1 =
        if h.Splits size s placement.alignedAddress then
          if h.totalAllocations + 1 < 2 ^ 64 then .ok (some placement.alignedAddress)
          else .error .panic
        else .ok none := by
  have hcut : replacementFor s size placement = cut s placement.alignedOffset size := by
    rw [replacementFor, hplaces.allocation, hplaces.segment]
    rfl
  have haddress := hplaces.address
  have hallocation := hplaces.allocation
  have hsegment := hplaces.segment
  have hstart := hi.start_pos
  have hwrap := hi.wrap
  have hoffset : placement.alignedAddress - h.virtualStart = placement.alignedOffset := by omega
  have hsplits : h.Splits size s placement.alignedAddress ↔
      (before ++ (cut s placement.alignedOffset size ++ after)).length ≤ 128 := by
    rw [Splits, hoffset, hi.lists.count, length_append, length_append, length_append, length_cons,
      maxSegments]
    omega
  rw [allocateAt, hcut]
  rcases replaceSegment_run (ε := ε) hi.lists (cut_ne_nil size) with
    ⟨hlong, hrun⟩ | ⟨table, count, hrun, hlists⟩
  · rw [bind_of_ok hrun, if_neg (mt hsplits.mp (Nat.not_le.mpr hlong))]
    exact ⟨.none, rfl⟩
  · have hcuts : h.Cuts (before ++ s :: after) size align placement.alignedAddress
        (before ++ (cut s placement.alignedOffset size ++ after)) := by
      refine ⟨hsize, hplaces.aligned, by omega, before, s, after, rfl, hs, ?_, ?_, ?_⟩
      · rw [hoffset]
        exact hplaces.offset_le
      · omega
      · rw [hoffset]
    have hsum := Tiles.sum_used_le (hcuts.tiles hi.tiles)
    have hactive := hi.lists.length_le
    have hless : (shape.used (before ++ s :: after)).length ≤ (before ++ s :: after).length :=
      length_filter_le _ _
    rw [hcuts.sum_used, ← hi.used] at hsum
    rw [← hi.active] at hless
    have hused : h.used + size < 2 ^ 64 := by omega
    have hmore : h.activeAllocations + 1 < 2 ^ 64 := by omega
    rw [bind_of_ok hrun, if_pos rfl, get_bind, addU64_eq hused, addU64_eq hmore,
      if_pos (hsplits.mpr hlists.length_le)]
    by_cases hfull : h.totalAllocations + 1 < 2 ^ 64
    · rw [addU64_eq hfull, if_neg (by omega), if_pos hfull]
      exact ⟨.some hcuts hlists, rfl⟩
    · have hpanic : (addU64 h.totalAllocations 1 : Result ε Nat) = .error .panic := if_neg hfull
      rw [hpanic, if_neg hfull]
      exact ⟨.panic (Nat.le_of_not_lt hfull), rfl⟩

theorem Invariant.allocateIn_run (hi : h.Invariant (before ++ after)) (hsize : 0 < size)
    (halign : align.isPowerOfTwo) : Allocates (ε := ε) h (before ++ after) size align
        (allocateIn size align (range' before.length after.length) h) ∧
      (allocateIn (ε := ε) size align (range' before.length after.length) h).1 =
        h.reply size align (after.find? (h.suits size align)) := by
  have hpos : 0 < align := Nat.pos_of_isPowerOfTwo halign
  induction after generalizing before with
  | nil => exact ⟨.none, rfl⟩
  | cons s after ih =>
    have hnext : Allocates (ε := ε) h (before ++ s :: after) size align
          (allocateIn size align (range' (before.length + 1) after.length) h) ∧
        (allocateIn (ε := ε) size align (range' (before.length + 1) after.length) h).1 =
          h.reply size align (after.find? (h.suits size align)) := by
      have hrest := @ih (before ++ [s]) (by rwa [append_assoc])
      rwa [append_assoc, length_append] at hrest
    rw [length_cons, range'_succ, allocateIn, get_bind, hi.lists.index_eq, lift_ok_bind]
    by_cases hfree : s.free = false
    · rw [if_pos hfree, find?_cons_of_neg (by simp [suits, hfree])]
      exact hnext
    rw [if_neg hfree]
    rw [Bool.not_eq_false] at hfree
    cases hplace : place h.virtualStart s size align with
    | none =>
      have hnone : (s :: after).find? (h.suits size align) = none := by
        rw [find?_eq_none]
        intro q hq hsuits
        obtain ⟨address, hroom⟩ := (suits_iff hpos).mp hsuits
        have hle : s.offset ≤ q.offset := by
          obtain ⟨-, hsorted, -⟩ := pairwise_append.mp (Tiles.pairwise hi.tiles)
          rcases mem_cons.mp hq with rfl | hq
          · exact le_rfl
          · exact (Nat.le_add_right _ _).trans (rel_of_pairwise_cons hsorted hq)
        exact hi.place_ne_none (mem_append_right before (.head after)) (mem_append_right before hq)
          hle hroom hsize halign hplace
      rw [hnone]
      exact ⟨.none, rfl⟩
    | some placement =>
      obtain ⟨hplaces, hlowest⟩ := place_eq_some halign hplace
      have hsuits : h.suits size align s = true ↔
          placement.allocationEnd ≤ placement.segmentEnd := by
        rw [suits, hfree, Bool.true_and, decide_eq_true_iff, lowest, ← hlowest, hplaces.address,
          hplaces.allocation, hplaces.segment]
        omega
      dsimp only
      by_cases hfits : placement.allocationEnd > placement.segmentEnd
      · rw [if_pos hfits, find?_cons_of_neg (mt hsuits.mp (Nat.not_le.mpr hfits))]
        exact hnext
      · rw [if_neg hfits, find?_cons_of_pos (hsuits.mpr (Nat.le_of_not_lt hfits)), reply, lowest,
          ← hlowest]
        exact hi.allocateAt_run hfree hsize hplaces (Nat.le_of_not_lt hfits)

theorem Invariant.allocate_run (hi : h.Invariant l) (size align : Nat) :
    Allocates (ε := ε) h l size align (allocate size align h) := by
  rw [allocate]
  by_cases hbad : size = 0 ∨ ¬align.isPowerOfTwo
  · rw [if_pos hbad]
    exact .none
  · rw [if_neg hbad, get_bind, hi.lists.count, range_eq_range']
    obtain ⟨hsize, halign⟩ := not_or.mp hbad
    have hwhole : h.Invariant ([] ++ l) := hi
    exact (hwhole.allocateIn_run (Nat.pos_of_ne_zero hsize) (not_not.mp halign)).1

def Retabled (h h' : KernelHeap) : Prop :=
  ∃ table count, h' = { h with segments := table, segmentCount := count }

theorem Retabled.refl : Retabled h h := ⟨h.segments, h.segmentCount, rfl⟩

theorem Retabled.trans (hk : Retabled h k) (hk' : Retabled k h') : Retabled h h' := by
  obtain ⟨_, _, rfl⟩ := hk
  obtain ⟨table, count, rfl⟩ := hk'
  exact ⟨table, count, rfl⟩

def joined (p q : Segment) : Segment := { p with size := p.size + q.size }

theorem mergeAt_run (hl : h.Lists (before ++ p :: q :: after)) (hsize : p.size + q.size < 2 ^ 64) :
    ∃ h', (mergeAt before.length h : Result ε Unit × KernelHeap) = (.ok (), h') ∧
      Retabled h h' ∧ h'.Lists (before ++ joined p q :: after) := by
  have hright : (index h.segments (before.length + 1) : Result ε Segment) = .ok q := by
    have hl' : h.Lists ((before ++ [p]) ++ q :: after) := by rwa [append_assoc]
    have hindex := hl'.index_eq (ε := ε)
    rwa [length_append] at hindex
  obtain ⟨hstore, hset⟩ := hl.set (ε := ε) (joined p q)
  rw [joined] at hstore
  rw [mergeAt, get_bind, hl.index_eq, lift_ok_bind, hright, lift_ok_bind,
    addU64_eq hsize, lift_ok_bind, hstore]
  have hl' : ({ h with segments := h.segments.set before.length (joined p q) }).Lists
      ((before ++ [joined p q]) ++ q :: after) := by
    rwa [append_assoc]
  obtain ⟨table, count, hrun, hlists⟩ := removeSegment_run (ε := ε) hl'
  rw [length_append] at hrun
  refine ⟨_, hrun, ⟨table, count, rfl⟩, ?_⟩
  rwa [append_assoc] at hlists

theorem tiles_joined (ht : shape.Tiles a (before ++ p :: q :: after) b) :
    shape.Tiles a (before ++ joined p q :: after) b ∧
      p.size + q.size ≤ b := by
  obtain ⟨hbefore, hpos, hoffset, -, hafter⟩ := tiles_middle.mp ht
  rw [Nat.add_assoc] at hafter
  have hmerged : shape.Tiles a (before ++ joined p q :: after) b :=
    tiles_middle.mpr ⟨hbefore, Nat.add_pos_left hpos _, hafter⟩
  refine ⟨hmerged, ?_⟩
  have hbounds := Tiles.bounds hmerged (mem_append_right _ (.head _))
  exact (Nat.le_add_left _ _).trans hbounds.2.2

structure Merging (h : KernelHeap) (before : List Segment) (m : Segment) (after : List Segment) :
    Prop where
  lists : h.Lists (before ++ m :: after)
  tiles : shape.Tiles 0 (before ++ m :: after) h.size
  free : m.free = true
  before : shape.Separated before
  after : shape.Separated after

theorem Merging.mergePrevious_run (hm : h.Merging before m after) (hsize : h.size < 2 ^ 64) :
    ∃ h' before' m', (mergePrevious before.length h : Result ε Nat × KernelHeap) =
        (.ok before'.length, h') ∧ Retabled h h' ∧ h'.Merging before' m' after ∧
      shape.used before' = shape.used before ∧ ∀ t ∈ before'.getLast?, t.free = false := by
  rw [mergePrevious, get_bind]
  cases before using reverseRecOn with
  | nil => exact ⟨h, [], m, rfl, .refl, hm, rfl, nofun⟩
  | append_singleton init t =>
    have hlists := hm.lists
    have htiles := hm.tiles
    rw [append_assoc] at hlists htiles
    have hposition : (init ++ [t]).length = init.length + 1 := by simp
    rw [hposition, if_pos (Nat.succ_pos _), Nat.add_sub_cancel, hlists.index_eq, lift_ok_bind]
    by_cases hfree : t.free = true
    · rw [if_pos hfree]
      obtain ⟨hmerged, hle⟩ := tiles_joined htiles
      obtain ⟨h', hrun, hretabled, hlists'⟩ :=
        mergeAt_run (ε := ε) hlists (Nat.lt_of_le_of_lt hle hsize)
      have hparts := Separated.middle hm.before
      refine ⟨h', init, _, ?_, hretabled, ⟨hlists', ?_, hfree, hparts.1, hm.after⟩, ?_, ?_⟩
      · rw [bind_of_ok hrun]
        rfl
      · obtain ⟨_, _, rfl⟩ := hretabled
        exact hmerged
      · rw [used_append, used_cons_of_free hfree]
        exact (append_nil _).symm
      · exact (Separated.neighbours hm.before hfree).1
    · rw [if_neg hfree, ← hposition]
      refine ⟨h, init ++ [t], m, rfl, .refl, hm, rfl, ?_⟩
      intro u hu
      rw [getLast?_append] at hu
      cases hu
      simpa using hfree

theorem Merging.mergeNext_run (hm : h.Merging before m after) (hsize : h.size < 2 ^ 64) :
    ∃ h' after' m', (mergeNext before.length h : Result ε Unit × KernelHeap) = (.ok (), h') ∧
      Retabled h h' ∧ h'.Merging before m' after' ∧ shape.used after' = shape.used after ∧
      ∀ t ∈ after'.head?, t.free = false := by
  have hcount := hm.lists.count
  rw [length_append, length_cons] at hcount
  rw [mergeNext, get_bind]
  cases after with
  | nil =>
    rw [if_neg (by rw [hcount]; exact Nat.lt_irrefl _)]
    exact ⟨h, [], m, rfl, .refl, hm, rfl, nofun⟩
  | cons t rest =>
    rw [length_cons] at hcount
    have hnext : (index h.segments (before.length + 1) : Result ε Segment) = .ok t := by
      have hl' : h.Lists ((before ++ [m]) ++ t :: rest) := by
        rw [append_assoc]
        exact hm.lists
      have hindex := hl'.index_eq (ε := ε)
      rwa [length_append] at hindex
    rw [if_pos (by omega), hnext, lift_ok_bind]
    by_cases hfree : t.free = true
    · rw [if_pos hfree]
      obtain ⟨hmerged, hle⟩ := tiles_joined hm.tiles
      obtain ⟨h', hrun, hretabled, hlists'⟩ :=
        mergeAt_run (ε := ε) hm.lists (Nat.lt_of_le_of_lt hle hsize)
      refine ⟨h', rest, _, hrun, hretabled, ⟨hlists', ?_, hm.free, hm.before, ?_⟩, ?_, ?_⟩
      · obtain ⟨_, _, rfl⟩ := hretabled
        exact hmerged
      · exact IsChain.tail hm.after
      · rw [used_cons_of_free hfree]
      · have hafter : shape.Separated ([] ++ t :: rest) := hm.after
        exact (Separated.neighbours hafter hfree).2
    · rw [if_neg hfree]
      refine ⟨h, t :: rest, m, rfl, .refl, hm, rfl, ?_⟩
      intro u hu
      cases hu
      simpa using hfree

inductive Deallocates (h : KernelHeap) (l : List Segment) (address : Nat) :
    Result ε Bool × KernelHeap → Prop
  | unknown (hnone : ∀ s ∈ shape.used l, h.virtualStart + s.offset ≠ address) :
      Deallocates h l address (.ok false, h)
  | freed {before after l' table : List Segment} {s : Segment} {count : Nat}
      (hl : l = before ++ s :: after) (hs : s.free = false)
      (haddress : h.virtualStart + s.offset = address)
      (hlists : ({ h with segments := table, segmentCount := count }).Lists l')
      (htiles : shape.Tiles 0 l' h.size) (hseparated : shape.Separated l')
      (hused : shape.used l' = shape.used before ++ shape.used after) :
      Deallocates h l address (.ok true, { h with
        segments := table
        segmentCount := count
        used := h.used - s.size
        activeAllocations := h.activeAllocations - 1
        deallocations := h.deallocations + 1 })
  | panic {left : KernelHeap} (hfull : 2 ^ 64 ≤ h.deallocations + 1) :
      Deallocates h l address (.error .panic, left)

theorem freeSegment_run (hi : h.Invariant (before ++ s :: after)) (hs : s.free = false) :
    ((freeSegment before.length h : Result ε Unit × KernelHeap) = (.ok (), { h with
        segments := h.segments.set before.length { s with free := true }
        used := h.used - s.size
        activeAllocations := h.activeAllocations - 1
        deallocations := h.deallocations + 1 })) ∨
    2 ^ 64 ≤ h.deallocations + 1 ∧
      (freeSegment before.length h : Result ε Unit × KernelHeap) = (.error .panic, h) := by
  have hused := hi.used
  have hactive := hi.active
  rw [used_append, used_cons_of_used hs] at hused hactive
  rw [map_append, map_cons, sum_append, sum_cons] at hused
  rw [length_append, length_cons] at hactive
  rw [freeSegment, get_bind, hi.lists.index_eq, lift_ok_bind,
    (hi.lists.set { s with free := true }).1, subU64_eq (by omega), subU64_eq (by omega)]
  by_cases hfull : h.deallocations + 1 < 2 ^ 64
  · rw [addU64_eq hfull]
    exact .inl rfl
  · have hpanic : (addU64 h.deallocations 1 : Result ε Nat) = .error .panic := if_neg hfull
    rw [hpanic]
    exact .inr ⟨Nat.le_of_not_lt hfull, rfl⟩

theorem Invariant.releaseSegment_run (hi : h.Invariant (before ++ s :: after))
    (hs : s.free = false) :
    Deallocates (ε := ε) h (before ++ s :: after) (h.virtualStart + s.offset)
      (releaseSegment before.length h) := by
  have hstart := hi.start_pos
  have hwrap := hi.wrap
  have hsize : h.size < 2 ^ 64 := by omega
  rw [releaseSegment]
  rcases freeSegment_run (ε := ε) hi hs with hrun | ⟨hfull, hrun⟩
  · rw [bind_of_ok hrun]
    have hlists := (hi.lists.set (ε := ε) { s with free := true }).2
    have hparts := Separated.middle hi.separated
    have hfree : ({ h with
        segments := h.segments.set before.length { s with free := true }
        used := h.used - s.size
        activeAllocations := h.activeAllocations - 1
        deallocations := h.deallocations + 1 }).Merging before { s with free := true } after := by
      have htiles := tiles_middle.mp hi.tiles
      exact ⟨⟨hlists.length, hlists.count, hlists.starts⟩, tiles_middle.mpr htiles, rfl, hparts.1,
        hparts.2⟩
    obtain ⟨h', before', m, hrun', hretabled, hm, hused, hlast⟩ :=
      hfree.mergePrevious_run (ε := ε) hsize
    have hsize' : h'.size < 2 ^ 64 := by
      obtain ⟨_, _, rfl⟩ := hretabled
      exact hsize
    obtain ⟨h'', after', m', hrun'', hretabled', hm', hused', hhead⟩ :=
      hm.mergeNext_run (ε := ε) hsize'
    obtain ⟨table, count, rfl⟩ := hretabled.trans hretabled'
    rw [bind_of_ok hrun', bind_of_ok hrun'']
    refine .freed rfl hs rfl ⟨hm'.lists.length, hm'.lists.count, hm'.lists.starts⟩ hm'.tiles ?_ ?_
    · exact Separated.insert hm'.before hm'.after (isChain_singleton m') hlast hhead
    · rw [used_append, used_cons_of_free hm'.free, hused, hused']
  · rw [bind_of_error hrun]
    exact .panic hfull

theorem Invariant.deallocate_run (hi : h.Invariant l) (address : Nat) :
    Deallocates (ε := ε) h l address (deallocate address h) := by
  rw [deallocate, get_bind, hi.lists.take_eq]
  by_cases hbelow : h.virtualStart ≤ address
  · rw [checkedSub_eq hbelow]
    dsimp only
    cases hfind : l.findIdx? fun segment =>
        !segment.free && segment.offset == address - h.virtualStart with
    | none =>
      refine .unknown ?_
      intro s hs haddress
      obtain ⟨hmem, hfree⟩ := mem_used.mp hs
      have hfalse := findIdx?_eq_none_iff.mp hfind s hmem
      have hoffset : s.offset = address - h.virtualStart := by omega
      have hused : s.free = false := hfree
      simp [hused, hoffset] at hfalse
    | some position =>
      obtain ⟨hlt, hpred, -⟩ := findIdx?_eq_some_iff_getElem.mp hfind
      have hsplit : l = l.take position ++ l[position] :: l.drop (position + 1) := by
        rw [cons_getElem_drop_succ, take_append_drop]
      have hposition : position = (l.take position).length := by
        rw [length_take, Nat.min_eq_left (Nat.le_of_lt hlt)]
      generalize l[position] = s at hpred hsplit
      generalize l.take position = before at hsplit hposition
      generalize l.drop (position + 1) = after at hsplit
      subst hsplit hposition
      have hpair : s.free = false ∧ s.offset = address - h.virtualStart := by simpa using hpred
      obtain ⟨hs, hoffset⟩ := hpair
      have haddress : h.virtualStart + s.offset = address := by omega
      rw [← haddress]
      exact hi.releaseSegment_run hs
  · have hnone : checkedSub address h.virtualStart = none := if_neg hbelow
    rw [hnone]
    refine .unknown ?_
    intro s _ haddress
    omega

end NexOs.Kernel.KernelHeap
