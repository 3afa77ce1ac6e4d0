import NexOs.Runtime.ProcessRuns

/-! The handles of the processes as a partial map from descriptors, in every run. -/
namespace NexOs.Runtime.ProcessTable
variable {HANDLES : Nat} {t : ProcessTable HANDLES} {i j d : Nat} {p : Process}
  {id : ProcessId} {h : Handle} {call : Call} {f : Process → Process}
  {status : Int}

def handleAt (t : ProcessTable HANDLES) (i d : Nat) : Option Handle :=
  (t.slot i).bind fun p => p.handle d

/-- The call returns `d` for the handle `h` of the process in slot `i`. -/
def Allocates (t : ProcessTable HANDLES) (i d : Nat) (h : Handle) (call : Call) : Prop :=
  ∃ id, call = .allocateHandle id h ∧ t.position id = some i ∧
    (perform call t).1 = .ok (.descriptor d)

/-- The call closes descriptor `d` of the process in slot `i`, ends the process or frees the
slot. -/
def Releases (t : ProcessTable HANDLES) (i d : Nat) (call : Call) : Prop :=
  (∃ id h, call = .closeHandle id d ∧ t.position id = some i ∧
    (perform call t).1 = .ok (.handle h)) ∨
  (∃ id status, call = .exit id status ∧ t.position id = some i ∧
    (perform call t).1 = .ok .unit) ∨
  ∃ parent child status, call = .reap parent child ∧ t.positionOfChild parent child = some i ∧
    (perform call t).1 = .ok (.status status)

theorem handleAt_update : (t.update i f).handleAt j d =
    if j = i then (t.slot i).bind fun p => (f p).handle d else t.handleAt j d := by
  rw [handleAt, slot_update]
  by_cases hj : j = i
  · rw [if_pos hj, if_pos hj, hj, Option.bind_map]
    rfl
  · rw [if_neg hj, if_neg hj]
    rfl

theorem handleAt_update_of_handles (hf : ∀ p, (f p).handles = p.handles) :
    (t.update i f).handleAt j d = t.handleAt j d := by
  rw [handleAt_update]
  split
  · rename_i hj
    rw [hj]
    congr 1
    funext p
    rw [Process.handle, hf, Process.handle]
  · rfl

theorem handleAt_update_set (hp : t.slot i = some p) (hd : d < p.handles.length)
    (handle : Option Handle) (j e : Nat) :
    (t.update i fun p => { p with handles := p.handles.set d handle }).handleAt j e =
      if j = i ∧ e = d then handle else t.handleAt j e := by
  rw [handleAt_update]
  by_cases hj : j = i
  · rw [if_pos hj, hp, Option.bind_some, Process.handle, Slots.value_set hd, hj, handleAt, hp]
    by_cases he : e = d
    · rw [if_pos he, if_pos ⟨rfl, he⟩]
    · rw [if_neg he, if_neg fun hboth => he hboth.2]
      rfl
  · rw [if_neg hj, if_neg fun hboth => hj hboth.1]

theorem handleAt_inserted (hi : i < t.processes.length) (hfree : t.slot i = none)
    (hp : p.handles = List.replicate HANDLES none) :
    (t.inserted i p).handleAt j d = t.handleAt j d := by
  rw [handleAt, slot_inserted hi]
  by_cases hj : j = i
  · rw [if_pos hj, handleAt, hj, hfree, Option.bind_some, Process.handle, hp, Slots.value_replicate]
    rfl
  · rw [if_neg hj]
    rfl

theorem handleAt_setSlot_none :
    (t.setSlot i none).handleAt j d = if j = i then none else t.handleAt j d := by
  rw [handleAt, slot_setSlot_none]
  by_cases hj : j = i
  · rw [if_pos hj, if_pos hj]
    rfl
  · rw [if_neg hj, if_neg hj]
    rfl

theorem handle_finished (p : Process) (d : Nat) : (finished status p).handle d = none := by
  rw [Process.handle, finished, Slots.value, List.getElem?_map]
  cases p.handles[d]? <;> rfl

theorem handleAt_exit :
    (t.update i (finished status)).handleAt j d = if j = i then none else t.handleAt j d := by
  rw [handleAt_update]
  congr 1
  cases t.slot i with
  | none => rfl
  | some p => exact handle_finished p d

theorem handleAt_perform :
    (perform call t).2.handleAt i d = some h ↔
      t.Allocates i d h call ∨ t.handleAt i d = some h ∧ ¬t.Releases i d call := by
  unfold Allocates Releases
  have hstep := perform_step call t
  generalize (perform call t).1 = r at hstep ⊢
  generalize (perform call t).2 = u at hstep ⊢
  cases hstep with
  | refused => simp
  | create hparent hi =>
    obtain ⟨hlt, hfree, _⟩ := Slots.firstFree_eq_some hi
    rw [handleAt_inserted hlt hfree rfl]
    simp
  | setState state hi =>
    rw [handleAt_update_of_handles]
    · simp
    · exact fun _ => rfl
  | setCurrentDirectory path buffer hi =>
    rw [handleAt_update_of_handles]
    · simp
    · exact fun _ => rfl
  | @allocateHandle id k e p g hi hp hd =>
    obtain ⟨hlt, hfree, _⟩ := Slots.firstFree_eq_some hd
    have hnone : t.handleAt k e = none := by
      rw [handleAt, hp]
      exact hfree
    rw [handleAt_update_set hp hlt]
    by_cases hat : i = k ∧ d = e
    · obtain ⟨rfl, rfl⟩ := hat
      simp [hi, hnone]
    · grind
  | @closeHandle id k e p g hi hp hd =>
    rw [handleAt_update_set hp (Slots.value_lt hd)]
    by_cases hat : i = k ∧ d = e
    · obtain ⟨rfl, rfl⟩ := hat
      simp [hi]
    · grind
  | @exit id k status hi =>
    rw [handleAt_exit]
    by_cases hat : i = k
    · simp [hat, hi]
    · simp [hat, hi, Ne.symm hat]
  | @reap parent child k p status hi hp hstate =>
    rw [handleAt_setSlot_none]
    by_cases hat : i = k
    · simp [hat, hi]
    · simp [hat, hi, Ne.symm hat]

theorem Allocates.lowest (ha : t.Allocates i d h call) :
    t.handleAt i d = none ∧ ∀ e < d, t.handleAt i e ≠ none := by
  obtain ⟨id, rfl, hi, hreply⟩ := ha
  have hstep := perform_step (.allocateHandle id h) t
  rw [hreply] at hstep
  generalize (perform (.allocateHandle id h) t).2 = u at hstep
  cases hstep with
  | allocateHandle _ hi' hp hd =>
    obtain ⟨_, hfree, hbefore⟩ := Slots.firstFree_eq_some hd
    rw [hi] at hi'
    cases hi'
    simp only [handleAt, hp]
    exact ⟨hfree, hbefore⟩

/-! ## Exited processes -/

def Closed (t : ProcessTable HANDLES) : Prop :=
  ∀ i p, t.slot i = some p → p.state.isExited = true → ∀ d, p.handle d = none

def AllocatesExited (t : ProcessTable HANDLES) (call : Call) : Prop :=
  ∃ i d h p, t.Allocates i d h call ∧ t.slot i = some p ∧ p.state.isExited = true

section
variable (hclosed : t.Closed)
include hclosed

theorem Closed.update
    (hf : ∀ p, t.slot i = some p → (f p).state.isExited = true → ∀ d, (f p).handle d = none) :
    (t.update i f).Closed := by
  intro j q hq hexited
  rw [slot_update] at hq
  split at hq
  · rename_i hj
    obtain ⟨p, hp, rfl⟩ := Option.map_eq_some_iff.mp hq
    exact hf p (hj ▸ hp) hexited
  · exact hclosed j q hq hexited

theorem Closed.inserted (hi : i < t.processes.length) (hp : p.state.isExited = false) :
    (t.inserted i p).Closed := by
  intro j q hq hexited
  rw [slot_inserted hi] at hq
  split at hq
  · cases hq
    rw [hp] at hexited
    cases hexited
  · exact hclosed j q hq hexited

theorem Closed.removed : (t.setSlot i none).Closed := by
  intro j q hq hexited
  rw [slot_setSlot_none] at hq
  split at hq
  · cases hq
  · exact hclosed j q hq hexited

theorem Closed.allocated_iff (hp : t.slot i = some p) (hd : Slots.firstFree p.handles = some d) :
    (t.update i fun p => { p with handles := p.handles.set d (some h) }).Closed ↔
      p.state.isExited = false := by
  obtain ⟨hlt, _⟩ := Slots.firstFree_eq_some hd
  constructor
  · intro hlater
    by_contra hexited
    rw [Bool.not_eq_false] at hexited
    have hslot : (t.update i fun p => { p with handles := p.handles.set d (some h) }).slot i =
        some { p with handles := p.handles.set d (some h) } := by
      rw [slot_update, if_pos rfl, hp]
      rfl
    have hnone := hlater i _ hslot hexited d
    rw [Process.handle, Slots.value_set hlt, if_pos rfl] at hnone
    cases hnone
  · intro hlive
    apply hclosed.update
    intro q hq hexited
    rw [hp] at hq
    cases hq
    rw [hlive] at hexited
    cases hexited

theorem Closed.perform_iff (hcall : ∀ id state, call ≠ .setState id state) :
    (perform call t).2.Closed ↔ ¬t.AllocatesExited call := by
  unfold AllocatesExited Allocates
  have hstep := perform_step call t
  generalize (perform call t).1 = r at hstep ⊢
  generalize (perform call t).2 = u at hstep ⊢
  cases hstep with
  | refused => exact iff_of_true hclosed (by rintro ⟨_, _, _, _, ⟨_, _, _, ⟨⟩⟩, _⟩)
  | create hparent hi =>
    obtain ⟨hlt, _⟩ := Slots.firstFree_eq_some hi
    exact iff_of_true (hclosed.inserted hlt rfl) (by rintro ⟨_, _, _, _, ⟨_, ⟨⟩, _⟩, _⟩)
  | setState state hi => exact absurd rfl (hcall _ state)
  | setCurrentDirectory path buffer hi =>
    refine iff_of_true (hclosed.update ?_) (by rintro ⟨_, _, _, _, ⟨_, ⟨⟩, _⟩, _⟩)
    exact fun p hp hexited => hclosed _ p hp hexited
  | @allocateHandle id k e p g hi hp hd =>
    rw [hclosed.allocated_iff hp hd]
    constructor
    · rintro hlive ⟨i, d, h, q, ⟨_, ⟨⟩, hi', _⟩, hq, hexited⟩
      rw [hi] at hi'
      cases hi'
      rw [hp] at hq
      cases hq
      rw [hlive] at hexited
      cases hexited
    · intro hnot
      rw [← Bool.not_eq_true]
      intro hexited
      exact hnot ⟨k, e, g, p, ⟨id, rfl, hi, rfl⟩, hp, hexited⟩
  | @closeHandle id k e p g hi hp hd =>
    refine iff_of_true (hclosed.update ?_) (by rintro ⟨_, _, _, _, ⟨_, ⟨⟩, _⟩, _⟩)
    intro q hq hexited d
    rw [Process.handle, Slots.value_set_none]
    split
    · rfl
    · exact hclosed k q hq hexited d
  | exit status hi =>
    refine iff_of_true (hclosed.update ?_) (by rintro ⟨_, _, _, _, ⟨_, ⟨⟩, _⟩, _⟩)
    exact fun q _ _ => handle_finished q
  | reap hi hp hstate =>
    exact iff_of_true hclosed.removed (by rintro ⟨_, _, _, _, ⟨_, ⟨⟩, _⟩, _⟩)

end

/-! ## Runs -/

/-- The handles in the table are those that were allocated and not released since. -/
theorem handleAt_after (PROCESSES HANDLES : Nat) (calls : List Call) :
    (after calls (new PROCESSES HANDLES)).handleAt i d = some h ↔
      Runs.Since (fun before => (after before (new PROCESSES HANDLES)).Allocates i d h)
        (fun before => (after before (new PROCESSES HANDLES)).Releases i d) calls := by
  induction calls using List.reverseRecOn with
  | nil =>
    refine iff_of_false ?_ Runs.not_since_nil
    rw [after, List.foldl_nil, handleAt, slot_new]
    nofun
  | append_singleton calls call ih => rw [after_concat, handleAt_perform, Runs.since_concat, ih]

/-- In a run without `set_state` the exited processes hold no handles exactly when no handle is
ever allocated for one. The handles of a process are always those that were allocated for it and
not closed since, each at the descriptor returned, which was the lowest free one. -/
theorem exited_handles_closed_iff (PROCESSES HANDLES : Nat) (calls : List Call)
    (hcalls : ∀ id state, Call.setState id state ∉ calls) :
    let start := new PROCESSES HANDLES
    (Runs.Always (fun before => (after before start).Closed) calls ↔
      Runs.Never (fun before => (after before start).AllocatesExited) calls) ∧
    (∀ i p, (after calls start).slot i = some p → ∀ d h, p.handle d = some h ↔
      Runs.Since (fun before => (after before start).Allocates i d h)
        (fun before => (after before start).Releases i d) calls) ∧
    ∀ before call rest, calls = before ++ call :: rest → ∀ i d h,
      (after before start).Allocates i d h call → (after before start).handleAt i d = none ∧
        ∀ e < d, (after before start).handleAt i e ≠ none := by
  intro start
  refine ⟨?_, ?_, ?_⟩
  · apply Runs.always_iff_never
    · intro i p hp
      rw [after, List.foldl_nil, slot_new] at hp
      cases hp
    · intro before call rest heq hclosed
      rw [after_concat]
      apply hclosed.perform_iff
      rintro id state rfl
      exact hcalls id state (by simp [heq])
  · intro i p hp d h
    rw [← handleAt_after, handleAt, hp, Option.bind_some]
  · intro before call rest _ i d h ha
    exact ha.lowest

/-- A process with two handles closes the first one. -/
theorem exited_handles_closed_iff_two :
    let calls : List Call := [.create none 1 1 1, .allocateHandle ⟨1⟩ ⟨10, 3⟩,
      .allocateHandle ⟨1⟩ ⟨11, 3⟩, .closeHandle ⟨1⟩ 0]
    (∀ id state, Call.setState id state ∉ calls) ∧
      (after calls (new 1 2)).handleAt 0 1 = some ⟨11, 3⟩ ∧
      Runs.Since (fun before => (after before (new 1 2)).Allocates 0 1 ⟨11, 3⟩)
        (fun before => (after before (new 1 2)).Releases 0 1) calls := by
  intro calls
  have hcalls : ∀ id state, Call.setState id state ∉ calls := by simp [calls]
  have hat : (after calls (new 1 2)).handleAt 0 1 = some ⟨11, 3⟩ := by decide
  obtain ⟨p, hp, hd⟩ := Option.bind_eq_some_iff.mp hat
  exact ⟨hcalls, hat, ((exited_handles_closed_iff 1 2 calls hcalls).2.1 0 p hp 1 _).mp hd⟩

/-- A handle is allocated for a process that has exited and was not yet reaped. -/
theorem exited_process_gets_handle :
    let calls : List Call := [.create none 1 1 1, .exit ⟨1⟩ 0, .allocateHandle ⟨1⟩ ⟨10, 3⟩]
    ¬(after calls (new 1 2)).Closed ∧
      ((after calls (new 1 2)).slot 0).map (fun p => (p.state, p.handles)) =
        some (.exited 0, [some ⟨10, 3⟩, none]) := by
  intro calls
  have hslot : ((after calls (new 1 2)).slot 0).map (fun p => (p.state, p.handles)) =
      some (.exited 0, [some ⟨10, 3⟩, none]) := by decide
  refine ⟨?_, hslot⟩
  intro hclosed
  obtain ⟨p, hp, hfields⟩ := Option.map_eq_some_iff.mp hslot
  rw [Prod.mk.injEq] at hfields
  have hnone := hclosed 0 p hp (by rw [hfields.1]; rfl) 0
  rw [Process.handle, hfields.2] at hnone
  cases hnone

end NexOs.Runtime.ProcessTable
