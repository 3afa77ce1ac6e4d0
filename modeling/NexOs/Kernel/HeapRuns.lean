import NexOs.Kernel.HeapCalls

/-! Sequences of calls to the heap, beside the blocks that the callers own. -/
namespace NexOs.Kernel.KernelHeap
open List Tiling Shape Exec

structure HeapBlock where
  start : Nat
  size : Nat
  deriving DecidableEq

def HeapBlock.Apart (b c : HeapBlock) : Prop :=
  b.start + b.size ≤ c.start ∨ c.start + c.size ≤ b.start

inductive Call where
  | allocate (size align : Nat)
  | deallocate (pointer : Nat)
  deriving DecidableEq

inductive Reply where
  | allocated (pointer : Option Nat)
  | deallocated (found : Bool)
  deriving DecidableEq

variable {ε : Type}

def perform : Call → Exec KernelHeap ε Reply
  | .allocate size align => do
    let pointer ← allocate size align
    pure (.allocated pointer)
  | .deallocate pointer => do
    let found ← deallocate pointer
    pure (.deallocated found)

def Call.owned : Call → Reply → List HeapBlock → List HeapBlock
  | .allocate size _, .allocated (some pointer), live => ⟨pointer, size⟩ :: live
  | .deallocate pointer, .deallocated true, live => live.filter fun block => block.start ≠ pointer
  | _, _, live => live

def performAll : List Call → List HeapBlock → Exec KernelHeap ε (List HeapBlock)
  | [], live => pure live
  | call :: calls, live => do
    let reply ← perform call
    performAll calls (call.owned reply live)

def table (h : KernelHeap) : List Segment := h.segments.take h.segmentCount

def blockOf (virtualStart : Nat) (s : Segment) : HeapBlock := ⟨virtualStart + s.offset, s.size⟩

/-- The heap between `virtualStart` and `virtualStart + size` is in the state that its live
blocks require. -/
structure Sound (virtualStart size : Nat) (h : KernelHeap) (live : List HeapBlock) : Prop where
  start : h.virtualStart = virtualStart
  whole : h.size = size
  count_le : h.segmentCount ≤ 128
  tiles : shape.Tiles 0 h.table size
  separated : shape.Separated h.table
  blocks : live.Perm ((shape.used h.table).map (blockOf virtualStart))
  apart : live.Pairwise HeapBlock.Apart
  used : h.used = (live.map HeapBlock.size).sum
  active : h.activeAllocations = live.length

variable {virtualStart size : Nat} {h h' : KernelHeap} {l : List Segment}
  {live live' : List HeapBlock} {s : Segment}

/-! ## The invariant -/

structure Tracks (virtualStart size : Nat) (h : KernelHeap) (l : List Segment)
    (live : List HeapBlock) : Prop extends h.Invariant l where
  start : h.virtualStart = virtualStart
  whole : h.size = size
  blocks : live.Perm ((shape.used l).map (blockOf virtualStart))

theorem tracks_fresh (hsize : 0 < size) (hstart : 0 < virtualStart)
    (hwrap : virtualStart + size ≤ 2 ^ 64) (physicalStart : Nat) :
    Tracks virtualStart size (fresh physicalStart virtualStart size) [⟨0, size, true⟩] [] := by
  refine ⟨⟨⟨?_, rfl, prefix_append [_] _⟩, ⟨rfl, hsize, Nat.zero_add size⟩, ?_, rfl, rfl,
    hstart, hwrap⟩, rfl, rfl, .refl _⟩
  · simp [fresh]
  · exact isChain_singleton _

theorem apart_blockOf (hle : s.offset + s.size ≤ t.offset) :
    (blockOf virtualStart s).Apart (blockOf virtualStart t) := by
  dsimp only [blockOf, HeapBlock.Apart]
  omega

theorem Tracks.sound (ht : Tracks virtualStart size h l live) : h.Sound virtualStart size live := by
  have htable : h.table = l := ht.lists.take_eq
  have hsizes : (live.map HeapBlock.size).sum = ((shape.used l).map Segment.size).sum := by
    rw [(ht.blocks.map HeapBlock.size).sum_eq, map_map]
    rfl
  refine ⟨ht.start, ht.whole, ?_, ?_, ?_, ?_, ?_, ?_, ?_⟩
  · rw [ht.lists.count]
    exact ht.lists.length_le
  · rw [htable, ← ht.whole]
    exact ht.tiles
  · rw [htable]
    exact ht.separated
  · rw [htable]
    exact ht.blocks
  · have hsymm : ∀ {b c : HeapBlock}, b.Apart c → c.Apart b := fun hbc => hbc.symm
    rw [ht.blocks.pairwise_iff hsymm, pairwise_map]
    exact ((Tiles.pairwise ht.tiles).sublist filter_sublist).imp apart_blockOf
  · rw [hsizes]
    exact ht.used
  · rw [ht.active, ht.blocks.length_eq, length_map]

theorem initializeHeap_fresh
    (hrun : (initializeHeap hhdmOffset a : Result ε _ × _) = (.ok (some h), b)) :
    ∃ physicalStart, hhdmOffset + physicalStart < 2 ^ 64 ∧
      h = fresh physicalStart (hhdmOffset + physicalStart) (heapPages * pageSize) := by
  obtain ⟨result, _, -, hrest⟩ := bind_eq_ok hrun
  cases result with
  | none => cases hrest
  | some physicalStart =>
    by_cases hadd : hhdmOffset + physicalStart < 2 ^ 64
    · dsimp only at hrest
      rw [Bytes.checkedAdd_eq hadd] at hrest
      cases hrest
      exact ⟨physicalStart, hadd, rfl⟩
    · dsimp only at hrest
      rw [Bytes.checkedAdd_none hadd] at hrest
      cases hrest

/-! ## Calls -/

section
variable {align address : Nat} {l' : List Segment} {n : Nat}
  (ht : Tracks virtualStart size h l live) (hcuts : h.Cuts l n align address l')
include ht hcuts

theorem Tracks.allocated (hlists : h'.Lists l') (hused : h'.used = h.used + n)
    (hactive : h'.activeAllocations = h.activeAllocations + 1)
    (hstart : h'.virtualStart = h.virtualStart) (hsize : h'.size = h.size) :
    Tracks virtualStart size h' l' (⟨address, n⟩ :: live) := by
  refine ⟨⟨hlists, ?_, hcuts.separated ht.separated, ?_, ?_, ?_, ?_⟩, hstart.trans ht.start,
    hsize.trans ht.whole, ?_⟩
  · rw [hsize]
    exact hcuts.tiles ht.tiles
  · rw [hused, ht.used, hcuts.sum_used]
  · rw [hactive, ht.active, hcuts.used.length_eq, length_cons]
  · rw [hstart]
    exact ht.start_pos
  · rw [hstart, hsize]
    exact ht.wrap
  · have hblock : blockOf virtualStart ⟨address - h.virtualStart, n, false⟩ = ⟨address, n⟩ := by
      rw [blockOf, ← ht.start, Nat.add_sub_cancel' hcuts.start_le]
    refine (Perm.cons _ ht.blocks).trans ?_
    rw [← hblock]
    exact (hcuts.used.map _).symm

theorem Tracks.placed :
    virtualStart ≤ address ∧ address + n ≤ virtualStart + size ∧
      ∀ block ∈ live, HeapBlock.Apart ⟨address, n⟩ block := by
  have hstart := hcuts.start_le
  rw [ht.start] at hstart
  obtain ⟨before, s, after, rfl, hs, hoffset, hfits, -⟩ := hcuts.split
  rw [ht.start] at hoffset hfits
  have htiles := ht.tiles
  rw [ht.whole] at htiles
  have hbounds := Tiles.bounds htiles (mem_append_right before (.head after))
  obtain ⟨hbefore, -, hafter⟩ := tiles_middle.mp htiles
  dsimp only [shape] at hbounds hbefore hafter
  refine ⟨hstart, by omega, ?_⟩
  intro block hblock
  obtain ⟨t, htused, rfl⟩ := mem_map.mp (ht.blocks.mem_iff.mp hblock)
  rw [used_append, used_cons_of_free hs] at htused
  dsimp only [blockOf, HeapBlock.Apart]
  rcases mem_append.mp htused with hmem | hmem
  · have hends := (Tiles.bounds hbefore (mem_used.mp hmem).1).2.2
    dsimp only [shape] at hends
    omega
  · have hends := (Tiles.bounds hafter (mem_used.mp hmem).1).1
    dsimp only [shape] at hends
    omega

end

theorem filter_used {before after : List Segment}
    (ht : shape.Tiles a (before ++ s :: after) b) (hs : s.free = false) :
    ((shape.used (before ++ s :: after)).map (blockOf virtualStart)).filter
        (fun block => block.start ≠ virtualStart + s.offset) =
      (shape.used before ++ shape.used after).map (blockOf virtualStart) := by
  obtain ⟨hbefore, hpos, hafter⟩ := tiles_middle.mp ht
  dsimp only [shape] at hbefore hpos hafter
  have hkeep : ∀ m : List Segment, (∀ t ∈ m, t.offset ≠ s.offset) →
      (m.map (blockOf virtualStart)).filter
        (fun block => block.start ≠ virtualStart + s.offset) = m.map (blockOf virtualStart) := by
    intro m hm
    rw [filter_eq_self, forall_mem_map]
    intro t htm
    have hne := hm t htm
    simpa [blockOf] using hne
  rw [used_append, used_cons_of_used hs, map_append, map_append, filter_append,
    map_cons, filter_cons_of_neg (by simp [blockOf])]
  rw [hkeep, hkeep]
  · intro t htused
    have hends := (Tiles.bounds hafter (mem_used.mp htused).1).1
    dsimp only [shape] at hends
    omega
  · intro t htused
    have hends := (Tiles.bounds hbefore (mem_used.mp htused).1).2
    dsimp only [shape] at hends
    omega

theorem Tracks.mem_live (ht : Tracks virtualStart size h l live) (pointer : Nat) :
    (∃ block ∈ live, block.start = pointer) ↔
      ∃ s ∈ shape.used l, h.virtualStart + s.offset = pointer := by
  simp only [ht.blocks.mem_iff, mem_map, ht.start]
  constructor
  · rintro ⟨_, ⟨t, htused, rfl⟩, hstart⟩
    exact ⟨t, htused, hstart⟩
  · rintro ⟨t, htused, hstart⟩
    exact ⟨_, ⟨t, htused, rfl⟩, hstart⟩

theorem Tracks.deallocated {before after l' : List Segment}
    (ht : Tracks virtualStart size h (before ++ s :: after) live) (hs : s.free = false)
    (hlists : h'.Lists l') (htiles : shape.Tiles 0 l' h.size) (hseparated : shape.Separated l')
    (hused : shape.used l' = shape.used before ++ shape.used after)
    (hbytes : h'.used = h.used - s.size) (hactive : h'.activeAllocations = h.activeAllocations - 1)
    (hstart : h'.virtualStart = h.virtualStart) (hsize : h'.size = h.size) :
    Tracks virtualStart size h' l'
      (live.filter fun block => block.start ≠ h.virtualStart + s.offset) := by
  have hsum := ht.used
  have hlength := ht.active
  rw [used_append, used_cons_of_used hs] at hsum hlength
  rw [map_append, map_cons, sum_append, sum_cons] at hsum
  rw [length_append, length_cons] at hlength
  refine ⟨⟨hlists, ?_, hseparated, ?_, ?_, ?_, ?_⟩, hstart.trans ht.start,
    hsize.trans ht.whole, ?_⟩
  · rw [hsize]
    exact htiles
  · rw [hused, map_append, sum_append]
    omega
  · rw [hused, length_append]
    omega
  · rw [hstart]
    exact ht.start_pos
  · rw [hstart, hsize]
    exact ht.wrap
  · have hfilter := ht.blocks.filter fun block => block.start ≠ virtualStart + s.offset
    rw [filter_used ht.tiles hs, ← hused] at hfilter
    rw [ht.start]
    exact hfilter

inductive Answers (virtualStart size : Nat) (h : KernelHeap) (live : List HeapBlock) :
    Call → Reply → KernelHeap → Prop
  | refused {n align : Nat} : Answers virtualStart size h live (.allocate n align) (.allocated none) h
  | placed {n align pointer : Nat} {h' : KernelHeap} (aligned : pointer % align = 0)
      (inside : virtualStart ≤ pointer ∧ pointer + n ≤ virtualStart + size)
      (apart : ∀ block ∈ live, HeapBlock.Apart ⟨pointer, n⟩ block) :
      Answers virtualStart size h live (.allocate n align) (.allocated (some pointer)) h'
  | unknown {pointer : Nat} (hnone : ¬∃ block ∈ live, block.start = pointer) :
      Answers virtualStart size h live (.deallocate pointer) (.deallocated false) h
  | freed {pointer : Nat} {h' : KernelHeap} (hlive : ∃ block ∈ live, block.start = pointer) :
      Answers virtualStart size h live (.deallocate pointer) (.deallocated true) h'

def CountersFull (h : KernelHeap) : Prop :=
  2 ^ 64 ≤ h.totalAllocations + 1 ∨ 2 ^ 64 ≤ h.deallocations + 1

theorem Tracks.perform_run (ht : Tracks virtualStart size h l live) (call : Call) :
    (∃ reply h' l', (perform call h : Result ε Reply × KernelHeap) = (.ok reply, h') ∧
      Tracks virtualStart size h' l' (call.owned reply live) ∧
      Answers virtualStart size h live call reply h') ∨
    h.CountersFull ∧ ∃ left, (perform call h : Result ε Reply × KernelHeap) =
      (.error .panic, left) := by
  cases call with
  | allocate n align =>
    have hrun := ht.allocate_run (ε := ε) n align
    generalize hout : (allocate n align h : Result ε (Option Nat) × KernelHeap) = out at hrun
    cases hrun with
    | none => exact .inl ⟨_, h, l, bind_of_ok hout, ht, .refused⟩
    | @some _ l' _ _ hcuts hlists =>
      have hplaced := ht.placed hcuts
      refine .inl ⟨_, _, l', bind_of_ok hout, ?_,
        .placed hcuts.aligned ⟨hplaced.1, hplaced.2.1⟩ hplaced.2.2⟩
      exact ht.allocated hcuts ⟨hlists.length, hlists.count, hlists.starts⟩ rfl rfl rfl rfl
    | panic hfull => exact .inr ⟨.inl hfull, _, bind_of_error hout⟩
  | deallocate pointer =>
    have hrun := ht.deallocate_run (ε := ε) pointer
    generalize hout : (deallocate pointer h : Result ε Bool × KernelHeap) = out at hrun
    cases hrun with
    | unknown hnone =>
      refine .inl ⟨_, h, l, bind_of_ok hout, ht, .unknown ?_⟩
      rw [ht.mem_live]
      rintro ⟨s, hs, haddress⟩
      exact hnone s hs haddress
    | @freed _ _ l' _ _ _ hl hs haddress hlists htiles hseparated hused =>
      subst hl haddress
      refine .inl ⟨_, _, l', bind_of_ok hout, ?_, .freed ?_⟩
      · exact ht.deallocated hs ⟨hlists.length, hlists.count, hlists.starts⟩ htiles hseparated
          hused rfl rfl rfl rfl
      · rw [ht.mem_live]
        exact ⟨_, mem_used.mpr ⟨mem_append_right _ (.head _), hs⟩, rfl⟩
    | panic hfull => exact .inr ⟨.inr hfull, _, bind_of_error hout⟩

theorem Tracks.performAll_run (ht : Tracks virtualStart size h l live) (calls : List Call) :
    (∃ live' h' l', (performAll calls live h : Result ε _ × KernelHeap) = (.ok live', h') ∧
      Tracks virtualStart size h' l' live') ∨
    ∃ before call rest live' full left, calls = before ++ call :: rest ∧
      (performAll before live h : Result ε _ × KernelHeap) = (.ok live', full) ∧
      full.CountersFull ∧
      (performAll calls live h : Result ε _ × KernelHeap) = (.error .panic, left) := by
  induction calls generalizing h l live with
  | nil => exact .inl ⟨live, h, l, rfl, ht⟩
  | cons call calls ih =>
    rcases ht.perform_run (ε := ε) call with ⟨reply, h', l', hrun, ht', -⟩ | ⟨hfull, left, hrun⟩
    · rcases ih ht' with ⟨live'', h'', l'', hcalls, ht''⟩ |
        ⟨before, last, rest, live'', full, left, rfl, hbefore, hfull, hcalls⟩
      · refine .inl ⟨live'', h'', l'', ?_, ht''⟩
        rw [performAll, bind_of_ok hrun, hcalls]
      · refine .inr ⟨call :: before, last, rest, live'', full, left, rfl, ?_, hfull, ?_⟩
        · rw [performAll, bind_of_ok hrun, hbefore]
        · rw [performAll, bind_of_ok hrun, hcalls]
    · refine .inr ⟨[], call, calls, live, h, left, rfl, rfl, hfull, ?_⟩
      rw [performAll, bind_of_error hrun]

/-! ## The segments are determined by the live blocks -/

theorem Sound.mem_used_iff (hs : h.Sound virtualStart size live) :
    u ∈ shape.used h.table ↔ u.free = false ∧ blockOf virtualStart u ∈ live := by
  rw [hs.blocks.mem_iff]
  constructor
  · intro hu
    exact ⟨(mem_used.mp hu).2, mem_map_of_mem hu⟩
  · rintro ⟨hfree, hblock⟩
    obtain ⟨t, ht, heq⟩ := mem_map.mp hblock
    injection heq with hstart hsize
    have hsame : t = u := shape.ext t u (Nat.add_left_cancel hstart) hsize
      ((mem_used.mp ht).2.trans hfree.symm)
    rw [← hsame]
    exact ht

theorem Sound.table_unique (hs : h.Sound virtualStart size live)
    (hs' : h'.Sound virtualStart size live') (hsame : ∀ block, block ∈ live ↔ block ∈ live') :
    h.table = h'.table := by
  apply Tiles.unique hs.tiles hs'.tiles hs.separated hs'.separated
  intro u
  rw [hs.mem_used_iff, hs'.mem_used_iff, hsame]

theorem tracks_of_run (hsize : 0 < size) (hstart : 0 < virtualStart)
    (hwrap : virtualStart + size ≤ 2 ^ 64) {physicalStart : Nat} {calls : List Call}
    (hrun : (performAll calls [] (fresh physicalStart virtualStart size) : Result ε _ × _) =
      (.ok live, h)) : ∃ l, Tracks virtualStart size h l live := by
  have hfresh := tracks_fresh hsize hstart hwrap physicalStart
  rcases hfresh.performAll_run (ε := ε) calls with ⟨live', h', l', hrun', ht⟩ |
    ⟨_, _, _, _, _, _, -, -, -, hpanic⟩
  · cases hrun.symm.trans hrun'
    exact ⟨l', ht⟩
  · cases hrun.symm.trans hpanic

/-- From a fresh heap, every sequence of calls keeps the table of segments in the state that the
live blocks determine, and every call is answered as its caller expects, unless a counter of
calls overflows. -/
theorem heap_runs_safely (hsize : 0 < size) (hstart : 0 < virtualStart)
    (hwrap : virtualStart + size ≤ 2 ^ 64) (physicalStart : Nat) (calls : List Call) :
    (∃ live h, (performAll calls [] (fresh physicalStart virtualStart size) :
        Result Empty _ × KernelHeap) = (.ok live, h) ∧
      h.Sound virtualStart size live ∧
      (∀ call reply h', (perform call h : Result Empty _ × KernelHeap) = (.ok reply, h') →
        Answers virtualStart size h live call reply h') ∧
      (∀ calls' live' h', (performAll calls' [] (fresh physicalStart virtualStart size) :
          Result Empty _ × KernelHeap) = (.ok live', h') →
        (∀ block, block ∈ live ↔ block ∈ live') → h.table = h'.table) ∧
      (live = [] → h.table = [⟨0, size, true⟩])) ∨
    ∃ before call rest live full left, calls = before ++ call :: rest ∧
      (performAll before [] (fresh physicalStart virtualStart size) :
        Result Empty _ × KernelHeap) = (.ok live, full) ∧
      full.CountersFull ∧
      (performAll calls [] (fresh physicalStart virtualStart size) :
        Result Empty _ × KernelHeap) = (.error .panic, left) := by
  have hfresh := tracks_fresh hsize hstart hwrap physicalStart
  rcases hfresh.performAll_run (ε := Empty) calls with ⟨live, h, l, hrun, ht⟩ | hpanic
  · refine .inl ⟨live, h, hrun, ht.sound, ?_, ?_, ?_⟩
    · intro call reply h' hcall
      rcases ht.perform_run (ε := Empty) call with ⟨reply', h'', -, hcall', -, hanswers⟩ |
        ⟨-, left, hpanic⟩
      · cases hcall.symm.trans hcall'
        exact hanswers
      · cases hcall.symm.trans hpanic
    · intro calls' live' h' hrun' hsame
      obtain ⟨l', ht'⟩ := tracks_of_run hsize hstart hwrap hrun'
      exact ht.sound.table_unique ht'.sound hsame
    · rintro rfl
      exact ht.sound.table_unique hfresh.sound fun _ => .rfl
  · exact .inr hpanic

/-- Two blocks are allocated and freed again, in the order of their allocation; the second call
to free the first one finds nothing. -/
theorem heap_runs_safely_two :
    let calls : List Call := [.allocate 24 16, .allocate 100 64, .deallocate 0x1010,
      .deallocate 0x1010, .deallocate 0x1040]
    ∃ h, (performAll calls [] (fresh 0x1008 0x1008 4096) : Result Empty _ × KernelHeap) =
        (.ok [], h) ∧ h.table = [⟨0, 4096, true⟩] := by
  intro calls
  have hrun : (performAll (ε := Empty) calls [] (fresh 0x1008 0x1008 4096)).1.toOption =
      some [] := by
    decide +kernel
  rcases @heap_runs_safely 0x1008 4096 (by decide) (by decide) (by decide) 0x1008 calls with
    ⟨live, h, hcalls, -, -, -, hempty⟩ | ⟨_, _, _, _, _, _, -, -, -, hpanic⟩
  · rw [hcalls] at hrun
    cases hrun
    exact ⟨h, hcalls, hempty rfl⟩
  · rw [hpanic] at hrun
    cases hrun

end NexOs.Kernel.KernelHeap
