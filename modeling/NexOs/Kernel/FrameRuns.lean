import NexOs.Kernel.Frames

/-! Sequences of calls to the allocator of frames: no frame is handed out twice, and which calls
lose frames. -/
namespace NexOs.Kernel
open List Exec

structure Block where
  first : Nat
  count : Nat
  deriving DecidableEq

namespace Block

def Contains (block : Block) (x : Nat) : Prop :=
  block.first ≤ x ∧ x < block.first + block.count * pageSize

structure Fine (entries : List MemmapEntry) (block : Block) : Prop where
  nonempty : 0 < block.count
  aligned : block.first % pageSize = 0
  low : lowMemoryEnd ≤ block.first
  inside : ∃ e ∈ entries, e.Usable ∧ ∀ x, block.Contains x → e.Contains x

end Block

namespace FrameAllocator
variable {entries : List MemmapEntry} {a b : FrameAllocator} {c : Call} {result : Option Nat}
  {r : FrameRange} {ε : Type} {count : Nat} {calls : List Call}

def Call.block (c : Call) (result : Option Nat) : List Block :=
  result.toList.map fun first => ⟨first, c.frames⟩

def performAll : List Call → Exec FrameAllocator ε (List Block)
  | [] => pure []
  | c :: calls => do
    let result ← perform c
    let blocks ← performAll calls
    pure (c.block result ++ blocks)

/-! ## Exclusivity -/

def Holds (a : FrameAllocator) (x : Nat) : Prop := ∃ r ∈ a.ranges, r.next ≤ x ∧ x < r.stop

structure Served (entries : List MemmapEntry) (a : FrameAllocator) (blocks : List Block)
    (b : FrameAllocator) : Prop where
  fine : ∀ block ∈ blocks, block.Fine entries
  disjoint : blocks.Pairwise fun p q => ∀ x, ¬(p.Contains x ∧ q.Contains x)
  held : ∀ block ∈ blocks, ∀ x, block.Contains x → a.Holds x
  gone : ∀ x, b.Holds x → a.Holds x ∧ ∀ block ∈ blocks, ¬block.Contains x
  counted : (blocks.map Block.count).sum + a.allocatedFrames = b.allocatedFrames
  total : b.totalFrames = a.totalFrames

theorem Served.append {c : FrameAllocator} {first rest : List Block}
    (h : Served entries a first b) (h' : Served entries b rest c) :
    Served entries a (first ++ rest) c := by
  refine ⟨?_, ?_, ?_, ?_, ?_, h'.total.trans h.total⟩
  · exact forall_mem_append.mpr ⟨h.fine, h'.fine⟩
  · rw [pairwise_append]
    refine ⟨h.disjoint, h'.disjoint, ?_⟩
    intro p hp q hq x ⟨hpx, hqx⟩
    exact (h.gone x (h'.held q hq x hqx)).2 p hp hpx
  · refine forall_mem_append.mpr ⟨h.held, ?_⟩
    intro q hq x hx
    exact (h.gone x (h'.held q hq x hx)).1
  · intro x hx
    have hb := h'.gone x hx
    have ha := h.gone x hb.1
    exact ⟨ha.1, forall_mem_append.mpr ⟨ha.2, hb.2⟩⟩
  · have hfirst := h.counted
    have hrest := h'.counted
    rw [map_append, sum_append]
    omega

section
variable (h : a.Invariant entries)
include h

theorem Invariant.fine_block (hr : r ∈ a.ranges) (hpos : 0 < count)
    (hfits : r.next + count * 4096 ≤ r.stop) : (Block.mk r.next count).Fine entries := by
  have hwithin := h.within r hr
  obtain ⟨e, he, husable, hbase, hend⟩ := hwithin.inside
  refine ⟨hpos, hwithin.next_mod, hwithin.low, e, he, husable, ?_⟩
  intro x hx
  dsimp only [Block.Contains, MemmapEntry.Contains, pageSize] at hx ⊢
  omega

theorem Invariant.holds_take {before rest : List FrameRange}
    (hranges : a.ranges = before ++ r :: rest) (hfits : r.next + count * 4096 ≤ r.stop)
    (hx : (a.take before r rest count).Holds x) :
    a.Holds x ∧ ¬(Block.mk r.next count).Contains x := by
  obtain ⟨q, hq, hle, hlt⟩ := hx
  have hapart := h.apart
  rw [hranges, pairwise_append, pairwise_cons] at hapart
  obtain ⟨-, ⟨hafter, -⟩, hbefore⟩ := hapart
  dsimp only [Holds, Block.Contains, pageSize]
  rw [hranges]
  rcases mem_append.mp hq with hq | hq
  · have happart := hbefore q hq r (.head _)
    dsimp only [FrameRange.Apart] at happart
    exact ⟨⟨q, mem_append_left _ hq, hle, hlt⟩, by omega⟩
  · rcases mem_cons.mp hq with rfl | hq
    · dsimp only [FrameRange.advance, pageSize] at hle hlt
      exact ⟨⟨r, mem_append_right _ (.head _), by omega, hlt⟩, by omega⟩
    · have happart := hafter q hq
      dsimp only [FrameRange.Apart] at happart
      exact ⟨⟨q, mem_append_right _ (.tail _ hq), hle, hlt⟩, by omega⟩

theorem Outcome.served (hrun : Outcome c a result b) : Served entries a (c.block result) b := by
  cases hrun with
  | @taken before skip rest r hranges hcurrent hskip hpos hfits =>
    rw [← append_assoc] at hranges
    have hr : r ∈ a.ranges := by
      rw [hranges]
      exact mem_append_right _ (.head _)
    refine ⟨?_, pairwise_singleton _ _, ?_, ?_, ?_, rfl⟩
    · intro block hblock
      rw [mem_singleton.mp hblock]
      exact h.fine_block hr hpos hfits
    · intro block hblock x hx
      rw [mem_singleton.mp hblock] at hx
      exact ⟨r, hr, hx.1, Nat.lt_of_lt_of_le hx.2 hfits⟩
    · intro x hx
      have hleft := h.holds_take hranges hfits hx
      refine ⟨hleft.1, ?_⟩
      intro block hblock
      rw [mem_singleton.mp hblock]
      exact hleft.2
    · exact Nat.add_comm _ _
  | failed hranges hcurrent hskip hstop =>
    refine ⟨forall_mem_nil _, .nil, forall_mem_nil _, ?_, Nat.zero_add _, rfl⟩
    intro x hx
    exact ⟨hx, forall_mem_nil _⟩

theorem Invariant.performAll_run :
    ∃ blocks b, (performAll calls a : Result ε _ × _) = (.ok blocks, b) ∧ b.Invariant entries ∧
      Served entries a blocks b := by
  induction calls generalizing a with
  | nil =>
    refine ⟨[], a, rfl, h, forall_mem_nil _, .nil, forall_mem_nil _, ?_,
      Nat.zero_add _, rfl⟩
    intro x hx
    exact ⟨hx, forall_mem_nil _⟩
  | cons c calls ih =>
    obtain ⟨result, b, hrun, houtcome⟩ := h.perform_run (ε := ε) c
    obtain ⟨blocks, b', hcalls, hb', hserved⟩ := ih (h.outcome houtcome)
    refine ⟨c.block result ++ blocks, b', ?_, hb', (houtcome.served h).append hserved⟩
    rw [performAll, bind_of_ok hrun, bind_of_ok hcalls]
    rfl

end

/-- Whatever is called, and with whatever counts, the allocator of a memory map hands out whole
frames of usable memory above the first megabyte, none of them twice, and counts them. -/
theorem frames_exclusive (h : IsMemoryMap entries) :
    ∃ a, (fromMemoryMap entries : Result ε FrameAllocator) = .ok a ∧
      ∀ calls, ∃ blocks b, (performAll calls a : Result ε _ × _) = (.ok blocks, b) ∧
        (∀ block ∈ blocks, block.Fine entries) ∧
        (blocks.Pairwise fun p q => ∀ x, ¬(p.Contains x ∧ q.Contains x)) ∧
        (blocks.map Block.count).sum = b.allocatedFrames ∧
        b.allocatedFrames ≤ b.totalFrames ∧ b.totalFrames = a.totalFrames := by
  obtain ⟨a, hmap, hreading⟩ := fromMemoryMap_ok (ε := ε) h
  refine ⟨a, hmap, ?_⟩
  intro calls
  obtain ⟨blocks, b, hrun, hb, hserved⟩ := hreading.performAll_run (ε := ε)
  have hcounted := hserved.counted
  rw [hreading.allocated] at hcounted
  exact ⟨blocks, b, hrun, hserved.fine, hserved.disjoint, hcounted,
    hb.counted ▸ Nat.le_add_left _ _, hserved.total⟩

theorem isMemoryMap_two :
    IsMemoryMap [⟨0xff800, 0x3000, memmapUsable⟩, ⟨0x200000, 0x2000, memmapUsable⟩] := by
  refine ⟨by decide, pairwise_pair.mpr ?_⟩
  intro _ _ x hx
  dsimp only [MemmapEntry.Contains] at hx
  omega

theorem frames_exclusive_two :
    ∃ a, (fromMemoryMap [⟨0xff800, 0x3000, memmapUsable⟩, ⟨0x200000, 0x2000, memmapUsable⟩] :
        Result Empty FrameAllocator) = .ok a ∧
      ∀ calls, ∃ blocks b, (performAll calls a : Result Empty _ × _) = (.ok blocks, b) ∧
        (∀ block ∈ blocks, block.Fine
          [⟨0xff800, 0x3000, memmapUsable⟩, ⟨0x200000, 0x2000, memmapUsable⟩]) ∧
        (blocks.Pairwise fun p q => ∀ x, ¬(p.Contains x ∧ q.Contains x)) ∧
        (blocks.map Block.count).sum = b.allocatedFrames ∧
        b.allocatedFrames ≤ b.totalFrames ∧ b.totalFrames = a.totalFrames :=
  frames_exclusive isMemoryMap_two

/-! ## Frames that are lost -/

/-- Repeated calls of `allocate` return these frames and then none. -/
inductive Obtains : FrameAllocator → List Nat → Prop
  | none {a b : FrameAllocator} (h : (allocate a : Result Empty _ × _) = (.ok none, b)) :
      Obtains a []
  | some {a b : FrameAllocator} {frame : Nat} {frames : List Nat}
      (h : (allocate a : Result Empty _ × _) = (.ok (some frame), b)) (hrest : Obtains b frames) :
      Obtains a (frame :: frames)

/-- The frames that are not handed out can all be obtained. -/
def Conserving (a : FrameAllocator) : Prop :=
  ∃ frames, a.Obtains frames ∧ frames.length = a.totalFrames - a.allocatedFrames

def Loses (a : FrameAllocator) (c : Call) : Prop :=
  ∃ r ∈ (a.ranges.drop a.currentRange).takeWhile (decide <| c.Passes ·), r.next < r.stop

instance (a : FrameAllocator) (c : Call) : Decidable (a.Loses c) :=
  inferInstanceAs (Decidable (∃ r ∈ _, _))

def Keeps : FrameAllocator → List Call → Prop
  | _, [] => True
  | a, c :: calls => ¬a.Loses c ∧ Keeps (perform (ε := Empty) c a).2 calls

variable {frames : List Nat} {before rest skip ranges : List FrameRange}

theorem Obtains.unique {frames' : List Nat} (h : a.Obtains frames) (h' : a.Obtains frames') :
    frames = frames' := by
  induction h generalizing frames' with
  | none hnone =>
    cases h' with
    | none => rfl
    | some hsome => cases hnone.symm.trans hsome
  | some hsome _ ih =>
    cases h' with
    | none hnone => cases hsome.symm.trans hnone
    | some hsome' hrest =>
      cases hsome.symm.trans hsome'
      rw [ih hrest]

theorem allocateFrom_none
    (h : (allocateFrom fuel a : Result ε _ × _) = (.ok none, b)) :
    ¬b.currentRange < b.ranges.length := by
  induction fuel generalizing a with
  | zero => cases h
  | succ fuel ih =>
    rw [allocateFrom, get_bind] at h
    by_cases hcurrent : a.currentRange < a.ranges.length
    · rw [if_pos hcurrent] at h
      obtain ⟨r, t, hindex, h⟩ := bind_eq_ok h
      by_cases hfree : r.next < r.stop
      · rw [if_pos hfree] at h
        obtain ⟨_, _, -, h⟩ := bind_eq_ok h
        obtain ⟨_, _, -, h⟩ := bind_eq_ok h
        cases h
      · rw [if_neg hfree] at h
        exact ih h
    · rw [if_neg hcurrent] at h
      cases h
      exact hcurrent

theorem allocate_of_none (h : (allocate a : Result ε _ × _) = (.ok none, b)) :
    (allocate b : Result ε _ × _) = (.ok none, b) := by
  rw [allocate, get_bind] at h ⊢
  have hend := allocateFrom_none h
  rw [allocateFrom, get_bind, if_neg hend]
  rfl

def addresses (r : FrameRange) : List Nat :=
  (List.range r.frames).map fun i => r.next + i * pageSize

def freeFrames (a : FrameAllocator) : List Nat :=
  (a.ranges.drop a.currentRange).flatMap addresses

/-- Nothing is left before the cursor. -/
def Spent (a : FrameAllocator) : Prop :=
  ∀ r ∈ a.ranges.take a.currentRange, r.stop ≤ r.next

theorem frames_eq_zero_iff (h : r.Within entries) : r.frames = 0 ↔ r.stop ≤ r.next := by
  have hmod := h.next_mod
  have hmod' := h.stop_mod
  dsimp only [FrameRange.frames, pageSize]
  omega

theorem length_addresses : (addresses r).length = r.frames := by
  simp [addresses]

theorem addresses_eq_nil_iff (h : r.Within entries) : addresses r = [] ↔ r.stop ≤ r.next := by
  rw [← length_eq_zero_iff, length_addresses, frames_eq_zero_iff h]

theorem addresses_advance (hfits : r.next + 1 * 4096 ≤ r.stop) :
    addresses r = r.next :: addresses (r.advance 1) := by
  have hframes := FrameRange.frames_advance hfits
  rw [addresses, ← hframes, range_succ_eq_map, map_cons, map_map]
  congr 1
  apply map_congr_left
  intro i _
  dsimp only [Function.comp_apply, FrameRange.advance]
  rw [Nat.succ_mul]
  omega

theorem flatMap_addresses_eq_nil_iff (h : ∀ r ∈ ranges, r.Within entries) :
    ranges.flatMap addresses = [] ↔ ∀ r ∈ ranges, r.stop ≤ r.next := by
  rw [flatMap_eq_nil_iff]
  exact forall₂_congr fun r hr => addresses_eq_nil_iff (h r hr)

theorem freeFrames_of_ranges (hranges : a.ranges = before ++ rest)
    (hcurrent : a.currentRange = before.length) : a.freeFrames = rest.flatMap addresses := by
  rw [freeFrames, hranges, hcurrent, drop_left]

theorem freeFrames_take :
    (a.take before r rest count).freeFrames =
      addresses (r.advance count) ++ rest.flatMap addresses := by
  have hranges : (a.take before r rest count).ranges = before ++ r.advance count :: rest := rfl
  rw [freeFrames_of_ranges hranges rfl, flatMap_cons]

theorem freeFrames_moveTo (hranges : a.ranges = before ++ (skip ++ rest)) :
    ({ a with currentRange := (before ++ skip).length }).freeFrames = rest.flatMap addresses := by
  rw [freeFrames, hranges, ← append_assoc, drop_left]

theorem Outcome.freeFrames_allocate (h : a.Invariant entries)
    (hrun : Outcome .allocate a result b) :
    a.freeFrames = result.toList ++ b.freeFrames ∧ (result = none → b.freeFrames = []) := by
  have hwithin := h.within
  cases hrun with
  | @taken before skip rest r hranges hcurrent hskip hpos hfits =>
    rw [hranges] at hwithin
    obtain ⟨-, hwithin⟩ := forall_mem_append.mp hwithin
    obtain ⟨hwithin, -⟩ := forall_mem_append.mp hwithin
    have hnone := (flatMap_addresses_eq_nil_iff hwithin).mpr hskip
    refine ⟨?_, nofun⟩
    rw [freeFrames_of_ranges hranges hcurrent, flatMap_append, hnone, flatMap_cons,
      addresses_advance hfits, nil_append, Call.frames, freeFrames_take,
      Option.toList_some, singleton_append, cons_append]
  | @failed before skip rest hranges hcurrent hskip hstop =>
    rw [hranges] at hwithin
    obtain ⟨-, hwithin⟩ := forall_mem_append.mp hwithin
    obtain ⟨hwithin, hrest⟩ := forall_mem_append.mp hwithin
    have hnone := (flatMap_addresses_eq_nil_iff hwithin).mpr hskip
    have hend : rest = [] := by
      cases rest with
      | nil => rfl
      | cons q rest =>
        have hmod := (hrest q (.head _)).next_mod
        have hmod' := (hrest q (.head _)).stop_mod
        obtain ⟨hpasses, hshort⟩ := hstop q rfl
        have hlt := hshort Nat.one_pos
        dsimp only [Call.Passes, Call.frames] at hpasses hlt
        omega
    rw [freeFrames_moveTo hranges, freeFrames_of_ranges hranges hcurrent, flatMap_append,
      hnone, hend]
    exact ⟨rfl, fun _ => rfl⟩

theorem Invariant.obtains (h : a.Invariant entries) : a.Obtains a.freeFrames := by
  -- By induction on the frames that are left.
  generalize hfree : a.freeFrames = frames
  induction frames generalizing a with
  | nil =>
    obtain ⟨result, b, hrun, houtcome⟩ := h.perform_run (ε := Empty) .allocate
    have hframes := (houtcome.freeFrames_allocate h).1
    cases result with
    | none => exact .none hrun
    | some frame =>
      rw [hfree] at hframes
      cases hframes
  | cons frame frames ih =>
    obtain ⟨result, b, hrun, houtcome⟩ := h.perform_run (ε := Empty) .allocate
    obtain ⟨hframes, hnone⟩ := houtcome.freeFrames_allocate h
    rw [hfree] at hframes
    cases result with
    | none =>
      rw [hnone rfl] at hframes
      cases hframes
    | some first =>
      injection hframes with hfirst hrest
      subst hfirst
      exact .some hrun (ih (h.outcome houtcome) hrest.symm)

theorem Invariant.obtains_iff (h : a.Invariant entries) :
    a.Obtains frames ↔ frames = a.freeFrames := by
  constructor
  · intro hframes
    exact hframes.unique h.obtains
  · rintro rfl
    exact h.obtains

theorem length_flatMap_addresses :
    (ranges.flatMap addresses).length = (ranges.map FrameRange.frames).sum := by
  rw [length_flatMap]
  simp only [length_addresses]

theorem Invariant.conserving_iff (h : a.Invariant entries) : a.Conserving ↔ a.Spent := by
  have hsplit : (a.ranges.map FrameRange.frames).sum =
      ((a.ranges.take a.currentRange).map FrameRange.frames).sum + a.freeFrames.length := by
    rw [freeFrames, length_flatMap_addresses, ← sum_append, ← map_append, take_append_drop]
  have hspent : ((a.ranges.take a.currentRange).map FrameRange.frames).sum = 0 ↔ a.Spent := by
    rw [List.sum_eq_zero_iff_forall_eq_nat, forall_mem_map]
    exact forall₂_congr fun r hr => frames_eq_zero_iff (h.within r (mem_of_mem_take hr))
  have hcounted := h.counted
  rw [← hspent, Conserving]
  simp only [h.obtains_iff, exists_eq_left]
  omega

theorem Outcome.takeWhile_eq (hranges : a.ranges = before ++ (skip ++ rest))
    (hcurrent : a.currentRange = before.length) (hskip : ∀ q ∈ skip, c.Passes q)
    (hstop : ∀ q ∈ rest.head?, ¬c.Passes q) :
    (a.ranges.drop a.currentRange).takeWhile (decide <| c.Passes ·) = skip := by
  rw [hranges, hcurrent, drop_left, takeWhile_append_of_pos (by simpa using hskip)]
  cases rest with
  | nil => simp
  | cons q rest => simp [hstop q rfl]

theorem Outcome.take_ranges (hrun : Outcome c a result b) :
    b.ranges.take b.currentRange = a.ranges.take a.currentRange ++
      (a.ranges.drop a.currentRange).takeWhile (decide <| c.Passes ·) := by
  cases hrun with
  | @taken before skip rest r hranges hcurrent hskip hpos hfits =>
    have hstop : ¬c.Passes r := by
      intro hpasses
      cases c with
      | allocate =>
        dsimp only [Call.Passes] at hpasses hfits
        omega
      | allocateContiguous count =>
        dsimp only [Call.Passes, Call.frames] at hpasses hfits
        omega
    rw [Outcome.takeWhile_eq hranges hcurrent hskip (by simpa using hstop), hranges, hcurrent,
      take_left]
    exact take_left
  | @failed before skip rest hranges hcurrent hskip hstop =>
    rw [Outcome.takeWhile_eq hranges hcurrent hskip fun q hq => (hstop q hq).1, hranges, hcurrent,
      take_left, ← append_assoc]
    exact take_left

theorem Outcome.spent_iff (hrun : Outcome c a result b) : b.Spent ↔ a.Spent ∧ ¬a.Loses c := by
  simp only [Spent, Loses, hrun.take_ranges, forall_mem_append, not_exists, not_and, Nat.not_lt]

theorem Invariant.spent_performAll (h : a.Invariant entries) {blocks : List Block}
    (hrun : (performAll calls a : Result Empty _ × _) = (.ok blocks, b)) :
    b.Spent ↔ a.Spent ∧ a.Keeps calls := by
  induction calls generalizing a blocks with
  | nil =>
    cases hrun
    simp [Keeps]
  | cons c calls ih =>
    obtain ⟨result, next, hcall, houtcome⟩ := h.perform_run (ε := Empty) c
    have hnext := h.outcome houtcome
    obtain ⟨rest, b', hcalls, -⟩ := hnext.performAll_run (ε := Empty)
    rw [performAll, bind_of_ok hcall, bind_of_ok hcalls] at hrun
    cases hrun
    rw [ih hnext hcalls, houtcome.spent_iff, Keeps, hcall, and_assoc]

theorem Outcome.freeFrames_failed (h : a.Invariant entries) (hrun : Outcome c a none b) :
    b.freeFrames = a.freeFrames ↔ ¬a.Loses c := by
  cases hrun with
  | @failed before skip rest hranges hcurrent hskip hstop =>
    have hwithin := h.within
    rw [hranges] at hwithin
    obtain ⟨-, hwithin⟩ := forall_mem_append.mp hwithin
    obtain ⟨hwithin, -⟩ := forall_mem_append.mp hwithin
    rw [freeFrames_moveTo hranges, freeFrames_of_ranges hranges hcurrent, flatMap_append,
      Loses, Outcome.takeWhile_eq hranges hcurrent hskip fun q hq => (hstop q hq).1,
      self_eq_append_left, flatMap_addresses_eq_nil_iff hwithin]
    simp only [not_exists, not_and, Nat.not_lt]

/-- The frames that are not handed out can still be obtained if and only if no call has gone past
a range that had frames left. A request for several frames that fails loses frames the same way. -/
theorem frames_conserved_iff (h : IsMemoryMap entries)
    (hmap : (fromMemoryMap entries : Result Empty FrameAllocator) = .ok a) (calls : List Call) :
    ∃ blocks b, (performAll calls a : Result Empty _ × _) = (.ok blocks, b) ∧
      (b.Conserving ↔ a.Keeps calls) ∧
      ∀ count b', (allocateContiguous count b : Result Empty _ × _) = (.ok none, b') →
        ((∀ frames, b.Obtains frames → b'.Obtains frames) ↔
          ¬b.Loses (.allocateContiguous count)) := by
  obtain ⟨a', hmap', hreading⟩ := fromMemoryMap_ok (ε := Empty) h
  cases hmap.symm.trans hmap'
  obtain ⟨blocks, b, hrun, hb, -⟩ := hreading.performAll_run (ε := Empty)
  refine ⟨blocks, b, hrun, ?_, ?_⟩
  · have hspent : a.Spent := by
      rw [Spent, hreading.current]
      exact forall_mem_nil _
    rw [hb.conserving_iff, hreading.spent_performAll hrun, and_iff_right hspent]
  · intro count b' hnone
    obtain ⟨result, next, hcall, houtcome⟩ := hb.perform_run (ε := Empty) (.allocateContiguous count)
    cases hcall.symm.trans hnone
    have hb' := hb.outcome houtcome
    rw [← houtcome.freeFrames_failed hb]
    simp only [hb.obtains_iff, hb'.obtains_iff, forall_eq]
    exact eq_comm

theorem frames_conserved_iff_one :
    ∃ blocks b, (performAll [.allocate, .allocateContiguous 1]
        ⟨[⟨0x100000, 0x103000⟩], 0, 3, 0⟩ : Result Empty _ × _) = (.ok blocks, b) ∧
      (b.Conserving ↔ Keeps ⟨[⟨0x100000, 0x103000⟩], 0, 3, 0⟩ [.allocate, .allocateContiguous 1]) ∧
      ∀ count b', (allocateContiguous count b : Result Empty _ × _) = (.ok none, b') →
        ((∀ frames, b.Obtains frames → b'.Obtains frames) ↔
          ¬b.Loses (.allocateContiguous count)) :=
  have hmap : IsMemoryMap [⟨0xff800, 0x3800, memmapUsable⟩] :=
    ⟨by decide, pairwise_singleton _ _⟩
  frames_conserved_iff hmap rfl _

/-- A request for two frames that fails loses the only frame there is. -/
theorem frames_lost_one :
    IsMemoryMap [⟨0x100000, 0x1000, memmapUsable⟩] ∧
    ∃ a b, (fromMemoryMap [⟨0x100000, 0x1000, memmapUsable⟩] : Result Empty _) = .ok a ∧
      a.Obtains [0x100000] ∧
      (allocateContiguous 2 a : Result Empty _ × _) = (.ok none, b) ∧ b.Obtains [] ∧
      b.totalFrames - b.allocatedFrames = 1 ∧ ¬b.Conserving := by
  have hnone : Obtains ⟨[⟨0x100000, 0x101000⟩], 1, 1, 0⟩ [] := .none rfl
  refine ⟨⟨by decide, pairwise_singleton _ _⟩, ⟨[⟨0x100000, 0x101000⟩], 0, 1, 0⟩,
    ⟨[⟨0x100000, 0x101000⟩], 1, 1, 0⟩, rfl, .some rfl (.none rfl), rfl, hnone, rfl, ?_⟩
  rintro ⟨frames, hframes, hlength⟩
  rw [hframes.unique hnone] at hlength
  cases hlength

end FrameAllocator

end NexOs.Kernel
