import NexOs.Kernel.Memory
import Mathlib.Algebra.Order.BigOperators.Group.List
import Mathlib.Algebra.Order.Group.Nat

/-! The frames that the allocator hands out, and those that it can still hand out. -/
namespace NexOs.Kernel
open List Bytes Align Exec

theorem alignUp_page (value : Nat) :
    alignUp value pageSize = min (value + 4095) (2 ^ 64 - 1) / 4096 * 4096 := by
  have hlt : saturatingAdd value 4095 < 2 ^ 64 := saturatingAdd_lt
  exact and_notU64 (k := 12) hlt (by decide)

theorem alignDown_page (h : value < 2 ^ 64) :
    alignDown value pageSize = value / 4096 * 4096 :=
  and_notU64 (k := 12) h (by decide)

namespace MemmapEntry

def Usable (entry : MemmapEntry) : Prop := entry.kind = memmapUsable

def Contains (entry : MemmapEntry) (x : Nat) : Prop :=
  entry.base ≤ x ∧ x < entry.base + entry.length

end MemmapEntry

/-- What the boot loader promises: addresses of 64 bits, and usable entries that do not
overlap. -/
structure IsMemoryMap (entries : List MemmapEntry) : Prop where
  base_lt : ∀ entry ∈ entries, entry.base < 2 ^ 64
  disjoint : entries.Pairwise fun e f =>
    e.Usable → f.Usable → ∀ x, ¬(e.Contains x ∧ f.Contains x)

variable {entries more : List MemmapEntry} {e : MemmapEntry} {r q : FrameRange}

def FrameRange.frames (r : FrameRange) : Nat := (r.stop - r.next) / pageSize

/-- A range of whole pages above the first megabyte, inside of one usable entry. -/
structure FrameRange.Within (entries : List MemmapEntry) (r : FrameRange) : Prop where
  next_mod : r.next % 4096 = 0
  stop_mod : r.stop % 4096 = 0
  le : r.next ≤ r.stop
  low : lowMemoryEnd ≤ r.next
  stop_lt : r.stop < 2 ^ 64
  inside : ∃ e ∈ entries, e.Usable ∧ e.base ≤ r.next ∧ r.stop ≤ e.base + e.length

def FrameRange.Apart (r q : FrameRange) : Prop := r.stop ≤ q.next ∨ q.stop ≤ r.next

theorem FrameRange.Within.mono (h : r.Within entries) (hsub : entries ⊆ more) : r.Within more := by
  obtain ⟨e, he, hinside⟩ := h.inside
  exact ⟨h.next_mod, h.stop_mod, h.le, h.low, h.stop_lt, e, hsub he, hinside⟩

def FrameRange.advance (r : FrameRange) (count : Nat) : FrameRange :=
  { r with next := r.next + count * pageSize }

theorem FrameRange.Within.advance {count : Nat} (h : r.Within entries)
    (hle : r.next + count * 4096 ≤ r.stop) : (r.advance count).Within entries := by
  obtain ⟨e, he, husable, hbase, hend⟩ := h.inside
  have hmod := h.next_mod
  have hlow := h.low
  refine ⟨?_, h.stop_mod, hle, ?_, h.stop_lt, e, he, husable, ?_, hend⟩
  · dsimp only [FrameRange.advance, pageSize]
    omega
  · dsimp only [FrameRange.advance]
    omega
  · dsimp only [FrameRange.advance]
    omega

theorem FrameRange.frames_advance {count : Nat} (hle : r.next + count * 4096 ≤ r.stop) :
    (r.advance count).frames + count = r.frames := by
  dsimp only [FrameRange.frames, FrameRange.advance, pageSize]
  omega

namespace FrameAllocator

structure Invariant (entries : List MemmapEntry) (a : FrameAllocator) : Prop where
  within : ∀ r ∈ a.ranges, r.Within entries
  apart : a.ranges.Pairwise FrameRange.Apart
  counted : (a.ranges.map FrameRange.frames).sum + a.allocatedFrames = a.totalFrames
  total_lt : a.totalFrames < 2 ^ 64
  current_le : a.currentRange ≤ a.ranges.length

variable {a : FrameAllocator} {ε : Type}

/-! ## Reading the memory map -/

theorem within_of_entry (husable : e.Usable)
    (hlt : alignUp (max e.base lowMemoryEnd) pageSize <
      alignDown (saturatingAdd e.base e.length) pageSize) (hmem : e ∈ entries) :
    (FrameRange.mk (alignUp (max e.base lowMemoryEnd) pageSize)
      (alignDown (saturatingAdd e.base e.length) pageSize)).Within entries := by
  have hsum : saturatingAdd e.base e.length = min (e.base + e.length) (2 ^ 64 - 1) := rfl
  rw [alignDown_page saturatingAdd_lt, alignUp_page] at hlt ⊢
  have hstart : max e.base 0x100000 ≤ min (max e.base 0x100000 + 4095) (2 ^ 64 - 1) / 4096 * 4096 := by
    omega
  have hstop : min (e.base + e.length) (2 ^ 64 - 1) / 4096 * 4096 ≤
      min (e.base + e.length) (2 ^ 64 - 1) := Nat.div_mul_le_self _ _
  refine ⟨Nat.mul_mod_left _ _, Nat.mul_mod_left _ _, Nat.le_of_lt hlt, ?_, ?_, e, hmem, husable,
    ?_, ?_⟩
  · exact (Nat.le_max_right _ _).trans hstart
  · exact Nat.lt_of_le_of_lt (hstop.trans (Nat.min_le_right _ _)) (by decide)
  · exact (Nat.le_max_left _ _).trans hstart
  · exact hstop.trans (Nat.min_le_left _ _)

theorem apart_of_entries {f : MemmapEntry} (hr : r.next < r.stop ∧ e.base ≤ r.next ∧
      r.stop ≤ e.base + e.length) (hq : q.next < q.stop ∧ f.base ≤ q.next ∧
      q.stop ≤ f.base + f.length) (h : ∀ x, ¬(e.Contains x ∧ f.Contains x)) : r.Apart q := by
  by_contra happart
  have hoverlap : ¬(r.stop ≤ q.next) ∧ ¬(q.stop ≤ r.next) := not_or.mp happart
  apply h (max r.next q.next)
  dsimp only [MemmapEntry.Contains]
  omega

structure Reading (entries : List MemmapEntry) (a : FrameAllocator) : Prop
    extends a.Invariant entries where
  current : a.currentRange = 0
  allocated : a.allocatedFrames = 0
  length_le : a.ranges.length ≤ 64
  total_le : a.totalFrames ≤ a.ranges.length * 2 ^ 52
  nonempty : ∀ r ∈ a.ranges, r.next < r.stop

theorem Reading.mono (h : a.Reading entries) (hsub : entries ⊆ more) : a.Reading more :=
  ⟨⟨fun r hr => (h.within r hr).mono hsub, h.apart, h.counted, h.total_lt, h.current_le⟩,
    h.current, h.allocated, h.length_le, h.total_le, h.nonempty⟩

theorem Reading.addEntry (h : a.Reading entries)
    (hdisjoint : ∀ f ∈ entries, f.Usable → e.Usable → ∀ x, ¬(f.Contains x ∧ e.Contains x)) :
    ∃ b, (addEntry a e : Result ε FrameAllocator) = .ok b ∧ b.Reading (entries ++ [e]) := by
  have hmore := h.mono (subset_append_left entries [e])
  unfold FrameAllocator.addEntry
  by_cases hskip : e.kind ≠ memmapUsable ∨ a.ranges.length = maxRanges
  · rw [if_pos hskip]
    exact ⟨a, rfl, hmore⟩
  · rw [if_neg hskip]
    obtain ⟨hkind, hroom⟩ := not_or.mp hskip
    have husable : e.Usable := not_not.mp hkind
    dsimp only
    by_cases hempty : alignUp (max e.base lowMemoryEnd) pageSize ≥
        alignDown (saturatingAdd e.base e.length) pageSize
    · rw [if_pos hempty]
      exact ⟨a, rfl, hmore⟩
    · rw [if_neg hempty]
      have hlt := Nat.lt_of_not_le hempty
      have hwithin := within_of_entry husable hlt
        (mem_append_right entries (mem_singleton_self e))
      have hinside := within_of_entry husable hlt (mem_singleton_self e)
      generalize alignUp (max e.base lowMemoryEnd) pageSize = start at *
      generalize alignDown (saturatingAdd e.base e.length) pageSize = stop at *
      have hframes : (stop - start) / pageSize ≤ 2 ^ 52 := by
        have hstop := hwithin.stop_lt
        dsimp only [pageSize] at hstop ⊢
        omega
      have hlength := h.length_le
      have htotal := h.total_le
      have hcounted := h.counted
      have hless : a.ranges.length < 64 := Nat.lt_of_le_of_ne hlength hroom
      have hsum : a.totalFrames + (stop - start) / pageSize ≤ (a.ranges.length + 1) * 2 ^ 52 := by
        omega
      have hbound : (a.ranges.length + 1) * 2 ^ 52 ≤ 64 * 2 ^ 52 :=
        Nat.mul_le_mul_right _ hless
      rw [addU64_eq (by omega), Result.bind_ok]
      refine ⟨_, rfl, ⟨?_, ?_, ?_, ?_, ?_⟩, h.current, h.allocated, ?_, ?_, ?_⟩
      · intro r hr
        rcases mem_append.mp hr with hr | hr
        · exact hmore.within r hr
        · rw [mem_singleton.mp hr]
          exact hwithin
      · rw [pairwise_append]
        refine ⟨h.apart, pairwise_singleton _ _, ?_⟩
        intro r hr q hq
        rw [mem_singleton.mp hq]
        obtain ⟨f, hf, hfusable, hbefore, hafter⟩ := (h.within r hr).inside
        obtain ⟨e', he', _, hstart, hstop⟩ := hinside.inside
        rw [mem_singleton.mp he'] at hstart hstop
        exact apart_of_entries ⟨h.nonempty r hr, hbefore, hafter⟩ ⟨hlt, hstart, hstop⟩
          (hdisjoint f hf hfusable husable)
      · rw [map_append, sum_append, map_singleton, sum_singleton]
        dsimp only [FrameRange.frames]
        omega
      · dsimp only
        omega
      · exact h.current_le.trans (by simp)
      · rw [length_append]
        exact hless
      · simpa using hsum
      · intro r hr
        rcases mem_append.mp hr with hr | hr
        · exact h.nonempty r hr
        · rw [mem_singleton.mp hr]
          exact hlt

theorem fromMemoryMap_ok (h : IsMemoryMap entries) :
    ∃ a, (fromMemoryMap entries : Result ε FrameAllocator) = .ok a ∧ a.Reading entries := by
  unfold fromMemoryMap
  induction entries using reverseRecOn with
  | nil =>
    refine ⟨⟨[], 0, 0, 0⟩, rfl, ⟨?_, .nil, rfl, by decide, Nat.le_refl _⟩, rfl, rfl, ?_, ?_, ?_⟩
    · exact forall_mem_nil _
    · exact Nat.zero_le _
    · exact Nat.zero_le _
    · exact forall_mem_nil _
  | append_singleton entries e ih =>
    have hpairs := pairwise_append.mp h.disjoint
    obtain ⟨a, hrun, ha⟩ := ih ⟨fun f hf => h.base_lt f (mem_append_left _ hf), hpairs.1⟩
    obtain ⟨b, hadd, hb⟩ := ha.addEntry (ε := ε) (e := e)
      fun f hf hfusable => hpairs.2.2 f hf e (mem_singleton_self e) hfusable
    refine ⟨b, ?_, hb⟩
    rw [foldlM_append, hrun, Result.bind_ok, foldlM_cons, hadd]
    rfl

/-! ## One call -/

def take (a : FrameAllocator) (before : List FrameRange) (r : FrameRange)
    (rest : List FrameRange) (count : Nat) : FrameAllocator where
  ranges := before ++ r.advance count :: rest
  currentRange := before.length
  totalFrames := a.totalFrames
  allocatedFrames := a.allocatedFrames + count

variable {before rest skip : List FrameRange} {count : Nat}

theorem Invariant.moveTo (h : a.Invariant entries)
    (hle : current ≤ a.ranges.length) : ({ a with currentRange := current }).Invariant entries :=
  ⟨h.within, h.apart, h.counted, h.total_lt, hle⟩

theorem Invariant.frames_le (h : a.Invariant entries) (hr : r ∈ a.ranges) :
    r.frames + a.allocatedFrames ≤ a.totalFrames := by
  have hle : r.frames ≤ (a.ranges.map FrameRange.frames).sum :=
    single_le_sum (fun x _ => Nat.zero_le x) _ (mem_map_of_mem hr)
  have hcounted := h.counted
  omega

theorem Invariant.take (h : a.Invariant entries) (hranges : a.ranges = before ++ r :: rest)
    (hfits : r.next + count * 4096 ≤ r.stop) : (a.take before r rest count).Invariant entries := by
  have hmem : r ∈ a.ranges := by
    rw [hranges]
    exact mem_append_right _ (.head _)
  have hr := h.within r hmem
  have hadvance := FrameRange.frames_advance hfits
  have hapart := h.apart
  have hcounted := h.counted
  rw [hranges] at hapart hcounted
  refine ⟨?_, ?_, ?_, h.total_lt, ?_⟩
  · intro q hq
    rcases mem_append.mp hq with hq | hq
    · exact h.within q (hranges ▸ mem_append_left _ hq)
    · rcases mem_cons.mp hq with rfl | hq
      · exact hr.advance hfits
      · exact h.within q (hranges ▸ mem_append_right _ (.tail _ hq))
  · rw [pairwise_append, pairwise_cons] at hapart
    obtain ⟨hbefore, ⟨hfirst, hrest⟩, hcross⟩ := hapart
    have hnext : r.next ≤ (r.advance count).next := Nat.le_add_right _ _
    dsimp only [FrameAllocator.take]
    rw [pairwise_append, pairwise_cons]
    refine ⟨hbefore, ⟨?_, hrest⟩, ?_⟩
    · intro q hq
      exact (hfirst q hq).imp id fun hle => Nat.le_trans hle hnext
    · intro p hp q hq
      rcases mem_cons.mp hq with rfl | hq
      · exact (hcross p hp r (.head _)).imp (fun hle => Nat.le_trans hle hnext) id
      · exact hcross p hp q (.tail _ hq)
  · dsimp only [FrameAllocator.take]
    rw [map_append, map_cons, sum_append, sum_cons] at hcounted ⊢
    omega
  · dsimp only [FrameAllocator.take]
    rw [length_append]
    omega

section
variable (hranges : a.ranges = before ++ r :: rest) (hcurrent : a.currentRange = before.length)
include hranges hcurrent

theorem index_ranges : (index a.ranges a.currentRange : Result ε FrameRange) = .ok r := by
  apply index_eq
  rw [hranges, hcurrent, getElem?_append_right (Nat.le_refl _), Nat.sub_self]
  rfl

theorem set_ranges : a.ranges.set a.currentRange q = before ++ q :: rest := by
  rw [hranges, hcurrent, set_append_right _ _ (Nat.le_refl _), Nat.sub_self]
  rfl

theorem current_lt : a.currentRange < a.ranges.length := by
  rw [hranges, length_append, length_cons]
  omega

end

/-- The search of a call goes past a range. -/
def Call.Passes : Call → FrameRange → Prop
  | .allocate, r => r.stop ≤ r.next
  | .allocateContiguous count, r => r.next + count * 4096 < 2 ^ 64 ∧ r.stop < r.next + count * 4096

instance : (c : Call) → DecidablePred c.Passes
  | .allocate, _ => inferInstanceAs (Decidable (_ ≤ _))
  | .allocateContiguous _, _ => inferInstanceAs (Decidable (_ ∧ _))

theorem checked_end :
    (checkedMul count pageSize).bind (checkedAdd r.next) =
      if r.next + count * 4096 < 2 ^ 64 then some (r.next + count * 4096) else none := by
  by_cases hbytes : count * 4096 < 2 ^ 64
  · rw [checkedMul_eq hbytes]
    rfl
  · rw [checkedMul_none hbytes, if_neg (by omega)]
    rfl

def searchFrom : Call → Nat → Exec FrameAllocator ε (Option Nat)
  | .allocate => allocateFrom
  | .allocateContiguous count => allocateContiguousFrom count

variable {c : Call} {fuel : Nat}

theorem searchFrom_end (hcurrent : a.currentRange = a.ranges.length) (fuel : Nat) :
    (searchFrom c (fuel + 1) a : Result ε _ × _) = (.ok none, a) := by
  have hend : ¬a.currentRange < a.ranges.length := Nat.not_lt.mpr hcurrent.ge
  cases c with
  | allocate =>
    rw [searchFrom, allocateFrom, get_bind, if_neg hend]
    rfl
  | allocateContiguous count =>
    rw [searchFrom, allocateContiguousFrom, get_bind, if_neg hend]
    rfl

section
variable (hranges : a.ranges = before ++ r :: rest) (hcurrent : a.currentRange = before.length)
include hranges hcurrent

theorem searchFrom_passes (hr : c.Passes r) :
    (searchFrom c (fuel + 1) a : Result ε _ × _) =
      searchFrom c fuel { a with currentRange := a.currentRange + 1 } := by
  cases c with
  | allocate =>
    rw [searchFrom, allocateFrom, get_bind, if_pos (current_lt hranges hcurrent),
      index_ranges hranges hcurrent, lift_ok_bind, if_neg (Nat.not_lt.mpr hr), modify_bind]
  | allocateContiguous count =>
    rw [searchFrom, allocateContiguousFrom, get_bind, if_pos (current_lt hranges hcurrent),
      index_ranges hranges hcurrent, lift_ok_bind, checked_end, if_pos hr.1]
    dsimp only
    rw [if_neg (Nat.not_le.mpr hr.2), modify_bind]

theorem Invariant.searchFrom_stops (h : a.Invariant entries) (hr : ¬c.Passes r) :
    r.next + c.frames * 4096 ≤ r.stop ∧ (searchFrom c (fuel + 1) a : Result ε _ × _) =
        (.ok (some r.next), a.take before r rest c.frames) ∨
    r.stop < r.next + c.frames * 4096 ∧
      (searchFrom c (fuel + 1) a : Result ε _ × _) = (.ok none, a) := by
  have hmem : r ∈ a.ranges := by
    rw [hranges]
    exact mem_append_right _ (.head _)
  have hwithin := h.within r hmem
  have hmod := hwithin.next_mod
  have hmod' := hwithin.stop_mod
  have hstop := hwithin.stop_lt
  have hframes := h.frames_le hmem
  have htotal := h.total_lt
  dsimp only [FrameRange.frames, pageSize] at hframes
  cases c with
  | allocate =>
    have hfree : r.next < r.stop := Nat.lt_of_not_le hr
    have hfits : r.next + 1 * 4096 ≤ r.stop := by omega
    have hpage : r.next + pageSize < 2 ^ 64 := by
      dsimp only [pageSize]
      omega
    refine .inl ⟨hfits, ?_⟩
    rw [searchFrom, allocateFrom, get_bind, if_pos (current_lt hranges hcurrent),
      index_ranges hranges hcurrent, lift_ok_bind, if_pos hfree, addU64_eq hpage, lift_ok_bind,
      addU64_eq (by omega), lift_ok_bind, modify_bind, set_ranges hranges hcurrent, hcurrent]
    rfl
  | allocateContiguous count =>
    dsimp only [Call.frames, searchFrom]
    rw [allocateContiguousFrom, get_bind, if_pos (current_lt hranges hcurrent),
      index_ranges hranges hcurrent, lift_ok_bind, checked_end]
    by_cases hover : r.next + count * 4096 < 2 ^ 64
    · have hfits : r.next + count * 4096 ≤ r.stop := Nat.le_of_not_lt fun hlt => hr ⟨hover, hlt⟩
      refine .inl ⟨hfits, ?_⟩
      rw [if_pos hover]
      dsimp only
      rw [if_pos hfits, addU64_eq (by omega), lift_ok_bind, modify_bind,
        set_ranges hranges hcurrent, hcurrent]
      rfl
    · rw [if_neg hover]
      exact .inr ⟨by omega, rfl⟩

end

theorem searchFrom_skip (hranges : a.ranges = before ++ (skip ++ rest))
    (hcurrent : a.currentRange = before.length) (hskip : ∀ q ∈ skip, c.Passes q) :
    (searchFrom c (skip.length + fuel) a : Result ε _ × _) =
      searchFrom c fuel { a with currentRange := (before ++ skip).length } := by
  induction skip generalizing a before with
  | nil => rw [length_nil, Nat.zero_add, append_nil, ← hcurrent]
  | cons r skip ih =>
    obtain ⟨hr, hskip⟩ := forall_mem_cons.mp hskip
    rw [length_cons, Nat.succ_add, searchFrom_passes hranges hcurrent hr,
      @ih { a with currentRange := a.currentRange + 1 } (before ++ [r])
        (by rw [append_assoc]; exact hranges) (by simp [hcurrent]) hskip, append_assoc]
    rfl

/-- What a call can do: its search goes past the ranges `skip`, and it takes its frames from the
range where the search stops or fails. -/
inductive Outcome (c : Call) (a : FrameAllocator) : Option Nat → FrameAllocator → Prop
  | taken {before skip rest : List FrameRange} {r : FrameRange}
      (hranges : a.ranges = before ++ (skip ++ r :: rest))
      (hcurrent : a.currentRange = before.length) (hskip : ∀ q ∈ skip, c.Passes q)
      (hpos : 0 < c.frames) (hfits : r.next + c.frames * 4096 ≤ r.stop) :
      Outcome c a (some r.next) (a.take (before ++ skip) r rest c.frames)
  | failed {before skip rest : List FrameRange} (hranges : a.ranges = before ++ (skip ++ rest))
      (hcurrent : a.currentRange = before.length) (hskip : ∀ q ∈ skip, c.Passes q)
      (hstop : ∀ q ∈ rest.head?, ¬c.Passes q ∧
        (0 < c.frames → q.stop < q.next + c.frames * 4096)) :
      Outcome c a none { a with currentRange := (before ++ skip).length }

variable {result : Option Nat} {b : FrameAllocator}

theorem Invariant.searchFrom_run (h : a.Invariant entries) (hranges : a.ranges = before ++ rest)
    (hcurrent : a.currentRange = before.length) (hpos : 0 < c.frames) :
    ∃ result b, (searchFrom c (rest.length + 1) a : Result ε _ × _) = (.ok result, b) ∧
      Outcome c a result b := by
  obtain ⟨skip, after, rfl, hskip, hstop⟩ : ∃ skip after, rest = skip ++ after ∧
      (∀ q ∈ skip, c.Passes q) ∧ ∀ q ∈ after.head?, ¬c.Passes q := by
    refine ⟨rest.takeWhile (c.Passes ·), rest.dropWhile (c.Passes ·),
      takeWhile_append_dropWhile.symm, ?_, ?_⟩
    · exact fun q hq => of_decide_eq_true (all_eq_true.mp all_takeWhile q hq)
    · intro q hq hpasses
      have hnot := head?_dropWhile_not (c.Passes ·) rest
      rw [hq] at hnot
      exact of_decide_eq_false hnot hpasses
  have hle : (before ++ skip).length ≤ a.ranges.length := by
    rw [hranges]
    simp
  have hmove := h.moveTo hle
  rw [length_append, Nat.add_assoc, searchFrom_skip hranges hcurrent hskip]
  cases after with
  | nil =>
    refine ⟨_, _, searchFrom_end ?_ _, .failed hranges hcurrent hskip nofun⟩
    rw [hranges, append_nil]
  | cons r after =>
    have hsplit : { a with currentRange := (before ++ skip).length }.ranges =
        (before ++ skip) ++ r :: after := by
      rw [append_assoc]
      exact hranges
    have hr : ¬c.Passes r := hstop r rfl
    rcases hmove.searchFrom_stops hsplit rfl hr with
      ⟨hfits, hrun⟩ | ⟨hlarge, hrun⟩
    · exact ⟨_, _, hrun, .taken hranges hcurrent hskip hpos hfits⟩
    · refine ⟨_, _, hrun, .failed hranges hcurrent hskip ?_⟩
      rintro _ ⟨⟩
      exact ⟨hr, fun _ => hlarge⟩

theorem Invariant.perform_run (h : a.Invariant entries) (c : Call) :
    ∃ result b, (perform c a : Result ε _ × _) = (.ok result, b) ∧ Outcome c a result b := by
  have hranges : a.ranges = a.ranges.take a.currentRange ++ a.ranges.drop a.currentRange :=
    (take_append_drop _ _).symm
  have hcurrent : a.currentRange = (a.ranges.take a.currentRange).length := by
    rw [length_take, Nat.min_eq_left h.current_le]
  have hfuel : (a.ranges.drop a.currentRange).length = a.ranges.length - a.currentRange :=
    length_drop
  generalize a.ranges.take a.currentRange = before at hranges hcurrent
  generalize a.ranges.drop a.currentRange = rest at hranges hfuel
  have hwithin := h.within
  rw [hranges] at hwithin
  cases c with
  | allocate =>
    rw [perform, allocate, get_bind, ← hfuel]
    exact h.searchFrom_run (c := .allocate) hranges hcurrent Nat.one_pos
  | allocateContiguous count =>
    rw [perform, allocateContiguous]
    by_cases hzero : count = 0
    · have houtcome : Outcome (.allocateContiguous count) a none
          { a with currentRange := (before ++ []).length } := by
        refine @Outcome.failed _ _ before [] rest hranges hcurrent (forall_mem_nil _) ?_
        intro q hq
        have hle := (hwithin q (mem_append_right _ (mem_of_mem_head? hq))).le
        refine ⟨?_, fun hpos => absurd hzero (Nat.ne_of_gt hpos)⟩
        intro hpasses
        dsimp only [Call.Passes] at hpasses
        omega
      rw [append_nil, ← hcurrent] at houtcome
      rw [if_pos hzero]
      exact ⟨none, a, rfl, houtcome⟩
    · rw [if_neg hzero, get_bind, ← hfuel]
      exact h.searchFrom_run (c := .allocateContiguous count) hranges hcurrent
        (Nat.pos_of_ne_zero hzero)

theorem Invariant.outcome (h : a.Invariant entries) (hrun : Outcome c a result b) :
    b.Invariant entries := by
  cases hrun with
  | taken hranges _ _ _ hfits =>
    rw [← append_assoc] at hranges
    exact h.take hranges hfits
  | failed hranges _ _ _ =>
    apply h.moveTo
    rw [hranges, length_append, length_append, length_append]
    omega

end FrameAllocator

end NexOs.Kernel
