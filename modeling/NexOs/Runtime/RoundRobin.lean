import NexOs.Runtime.SchedulerRuns

/-! In which order the slots are given the processor. -/
namespace NexOs.Runtime
open List

namespace Scheduler
variable {s t : Scheduler} {i j n p : Nat} {call : Call}

/-! ## The cyclic order of the slots -/

/-- How many steps forward lead from slot `p` to slot `n`, at least one. -/
def steps (slots p n : Nat) : Nat := if p < n then n - p else n + slots - p

variable {slots : Nat}

theorem steps_pos (hp : p < slots) (n : Nat) : 1 ≤ steps slots p n := by
  unfold steps
  split <;> omega

theorem steps_lt (hj : j < slots) (hne : j ≠ p) : steps slots p j < slots := by
  unfold steps
  split <;> omega

theorem slot_of_steps (hp : p < slots) (hj : j < slots) :
    ((p + 1) % slots + (steps slots p j - 1)) % slots = j := by
  rw [Nat.mod_add_mod, steps]
  by_cases hless : p < j
  · have hsum : p + 1 + (j - p - 1) = j := by omega
    rw [if_pos hless, hsum, Nat.mod_eq_of_lt hj]
  · have hsum : p + 1 + (j + slots - p - 1) = j + slots := by omega
    rw [if_neg hless, hsum, Nat.add_mod_right, Nat.mod_eq_of_lt hj]

theorem steps_of_slot (hp : p < slots) (hk : k < slots)
    (hn : ((p + 1) % slots + k) % slots = n) : steps slots p n = k + 1 := by
  rw [Nat.mod_add_mod] at hn
  by_cases hwrap : p + 1 + k < slots
  · rw [Nat.mod_eq_of_lt hwrap] at hn
    rw [steps, if_pos (by omega)]
    omega
  · rw [Nat.mod_eq_sub_mod (Nat.le_of_not_lt hwrap), Nat.mod_eq_of_lt (by omega)] at hn
    rw [steps, if_neg (by omega)]
    omega

theorem steps_of_between (hp : p < slots) (hj : j < slots)
    (hless : steps slots p n < steps slots p j) :
    steps slots n j + steps slots p n = steps slots p j := by
  unfold steps at *
  split at hless <;> split at hless <;> split <;> omega

theorem findReadyFrom_first (h : s.findReadyFrom start = some n) :
    ∃ k < s.tasks.length, n = (start + k) % s.tasks.length ∧
      ∀ offset < k, ¬s.Ready ((start + offset) % s.tasks.length) := by
  unfold findReadyFrom at h
  split at h
  · cases h
  · rw [find?_map] at h
    obtain ⟨k, hfind, rfl⟩ := Option.map_eq_some_iff.mp h
    rw [find?_range_eq_some] at hfind
    obtain ⟨_, hmem, hbefore⟩ := hfind
    refine ⟨k, mem_range.mp hmem, rfl, ?_⟩
    intro offset hoffset hready
    have hnot := hbefore offset hoffset
    rw [ready_iff] at hready
    simp [hready] at hnot

instance (s : Scheduler) (i : Nat) : Decidable (s.Ready i) := decidable_of_iff _ ready_iff.symm

/-! ## Dispatches -/

/-- The slot that a call gives the processor to; a tick that leaves the current task its
remaining ticks dispatches nothing. -/
def dispatched (call : Call) (s : Scheduler) : Option Nat :=
  match call with
  | .schedule now => (schedule now s).2.current
  | .tick now => if s.hasTicks then none else (tick now s).2.current
  | _ => none

def dispatches : List Call → Scheduler → List Nat
  | [], _ => []
  | call :: rest, s => (dispatched call s).toList ++ dispatches rest (perform call s).2

theorem dispatches_append (before rest : List Call) :
    dispatches (before ++ rest) s = dispatches before s ++ dispatches rest (after before s) := by
  induction before generalizing s with
  | nil => rfl
  | cons call before ih =>
    rw [cons_append, dispatches, dispatches, ih, append_assoc]
    rfl

theorem dispatches_concat (calls : List Call) :
    dispatches (calls ++ [call]) s =
      dispatches calls s ++ (dispatched call (after calls s)).toList := by
  rw [dispatches_append, dispatches, dispatches, append_nil]

/-- What `schedule` or `tick` leaves when it has looked for the next task. -/
def Dispatch (s : Scheduler) (t : Scheduler) : Prop :=
  ∀ n p, t.current = some n → s.current = some p → ∀ j < s.tasks.length,
    steps s.tasks.length p j < steps s.tasks.length p n → ¬t.Ready j

theorem CurrentRuns.schedule_dispatch (h : s.CurrentRuns) (now : Nat) :
    s.Dispatch (schedule now s).2 := by
  have hoffered := retains_offered now s
  have hcurrent := current_offered now s
  rcases h.schedule_run now with ⟨t, hrun, rfl, _⟩ |
    ⟨n, task, decision, switches, hrun, hfind, hslot, _⟩
  · rw [hrun]
    nofun
  · rw [hrun]
    intro m p hm hp j hj hless hready
    cases hm
    obtain ⟨current, hcurrentSlot, _⟩ := h p hp
    have hplt := slot_lt hcurrentSlot
    have hstart : (offered now s).startOf = (p + 1) % s.tasks.length := by
      rw [startOf, hcurrent, hp, Option.elim_some, hoffered.length,
        Nat.max_eq_left (Nat.succ_le_of_lt (Nat.zero_lt_of_lt hplt))]
    obtain ⟨k, hk, hn, hbefore⟩ := findReadyFrom_first hfind
    rw [hoffered.length, hstart] at hn hbefore
    rw [hoffered.length] at hk
    rw [steps_of_slot hplt hk hn.symm] at hless
    have hjn : j ≠ n := by
      intro heq
      rw [heq, steps_of_slot hplt hk hn.symm] at hless
      exact Nat.lt_irrefl _ hless
    have hpos := steps_pos hplt j
    apply hbefore (steps s.tasks.length p j - 1) (by omega)
    rw [slot_of_steps hplt hj]
    obtain ⟨waiting, hwaiting, hstate⟩ := hready
    change ((offered now s).dispatch n).slot j = _ at hwaiting
    rw [slot_dispatch, if_neg hjn] at hwaiting
    exact ⟨waiting, hwaiting, hstate⟩

theorem CurrentRuns.tick_dispatch (h : s.CurrentRuns) (now : Nat) (hticks : ¬s.hasTicks) :
    s.Dispatch (tick now s).2 := by
  have hlength := (retains_ticked now s).length
  have hcurrent := (ticked_fields now s).1
  rcases h.tick_run with ⟨hhas, _⟩ | ⟨_, hrun⟩
  · exact absurd hhas hticks
  · rw [hrun]
    intro n p hn hp j hj hless
    have hfirst := (h.ticked now).schedule_dispatch now n p hn (hcurrent.trans hp) j
    rw [hlength] at hfirst
    exact hfirst hj hless

theorem perform_second {α : Type} (x : Exec Scheduler SchedulerError α) (f : α → Reply) :
    ((x >>= fun a => pure (f a)) s).2 = (x s).2 := by
  rcases hx : x s with ⟨r, t⟩
  cases r with
  | ok a => rw [Exec.bind_of_ok hx]; rfl
  | error e => rw [Exec.bind_of_error hx]

theorem CurrentRuns.perform_leaves (h : s.CurrentRuns) (hcall : dispatched call s = none) :
    (perform call s).2.current = s.current ∨ (perform call s).2.current = none := by
  rcases (h.performed call).turn with ⟨_, hleaves, _⟩ | ⟨hdecides, _⟩
  · exact hleaves.current
  cases call with
  | schedule now =>
    rw [perform, perform_second]
    exact .inr hcall
  | tick now =>
    rw [perform, perform_second]
    rcases h.tick_run with ⟨_, i, task, _, _, hrun⟩ | ⟨hticks, _⟩
    · rw [hrun]
      exact .inl (ticked_fields now s).1
    · rw [dispatched, if_neg hticks] at hcall
      exact .inr hcall
  | _ => cases hdecides

theorem CurrentRuns.perform_dispatch (h : s.CurrentRuns) (hcall : dispatched call s = some n) :
    s.Dispatch (perform call s).2 ∧ (perform call s).2.current = some n := by
  cases call with
  | schedule now =>
    rw [perform, perform_second]
    exact ⟨h.schedule_dispatch now, hcall⟩
  | tick now =>
    rw [perform, perform_second]
    by_cases hticks : s.hasTicks
    · rw [dispatched, if_pos hticks] at hcall
      cases hcall
    · rw [dispatched, if_neg hticks] at hcall
      exact ⟨h.tick_dispatch now hticks, hcall⟩
  | spawn processId context => cases hcall
  | sleepCurrent wakeTick => cases hcall
  | blockCurrent => cases hcall
  | wake id => cases hcall
  | exitCurrent status => cases hcall
  | exitTask id status => cases hcall
  | reap id => cases hcall

/-! ## Runs -/

/-- What every run keeps: the current slot is the one dispatched last. -/
structure Traced (slots : Nat) (s : Scheduler) (history : List Nat) : Prop where
  length : s.tasks.length = slots
  runs : s.CurrentRuns
  last : ∀ p, s.current = some p → history.getLast? = some p

theorem traced_withQuantum (slots quantum : Nat) : (withQuantum slots quantum).Traced slots [] :=
  ⟨length_replicate .., nofun, nofun⟩

theorem Traced.performed {history : List Nat} (h : s.Traced slots history) (call : Call) :
    (perform call s).2.Traced slots (history ++ (dispatched call s).toList) := by
  have hperformed := h.runs.performed call
  refine ⟨hperformed.length.trans h.length, hperformed.runs h.runs, ?_⟩
  intro p hp
  cases hcall : dispatched call s with
  | none =>
    rw [Option.toList_none, append_nil]
    rcases h.runs.perform_leaves hcall with hsame | hnone
    · exact h.last p (hsame.symm.trans hp)
    · rw [hnone] at hp
      cases hp
  | some n =>
    rw [(h.runs.perform_dispatch hcall).2] at hp
    cases hp
    exact getLast?_concat ..

theorem traced_after (slots quantum : Nat) (calls : List Call) :
    (after calls (withQuantum slots quantum)).Traced slots
      (dispatches calls (withQuantum slots quantum)) := by
  induction calls using reverseRecOn with
  | nil => exact traced_withQuantum slots quantum
  | append_singleton calls call ih =>
    rw [after_concat, dispatches_concat]
    exact ih.performed call

/-- Every dispatch after the first one takes the processor from a current task. -/
def Preempting (calls : List Call) (s : Scheduler) : Prop :=
  ∀ k < calls.length, ∀ call ∈ calls[k]?, dispatched call (after (calls.take k) s) ≠ none →
    dispatches (calls.take k) s ≠ [] → (after (calls.take k) s).current ≠ none

instance (calls : List Call) (s : Scheduler) : Decidable (Preempting calls s) :=
  inferInstanceAs (Decidable (∀ k < calls.length, _))

theorem Preempting.current_ne {before rest : List Call} (h : Preempting (before ++ call :: rest) s)
    (hcall : dispatched call (after before s) ≠ none) (hhistory : dispatches before s ≠ []) :
    (after before s).current ≠ none := by
  have hstep := h before.length (by simp) call (by simp)
  rw [take_left] at hstep
  exact hstep hcall hhistory

section
variable {slots quantum : Nat}

theorem Traced.dispatch_nearer {history : List Nat} (h : s.Traced slots history)
    (hcall : dispatched call s = some n) (hp : s.current = some p)
    (hready : (perform call s).2.Ready j) (hj : j < slots) :
    steps slots n j < steps slots p j := by
  obtain ⟨hdispatch, hcurrent⟩ := h.runs.perform_dispatch hcall
  have hlater := h.performed call
  obtain ⟨task, hslot, hstate⟩ := hlater.runs n hcurrent
  obtain ⟨old, hold, _⟩ := h.runs p hp
  have hplt : p < slots := h.length ▸ slot_lt hold
  have hnlt : n < slots := hlater.length ▸ slot_lt hslot
  have hfirst := hdispatch n p hcurrent hp j
  rw [h.length] at hfirst
  have hle : ¬steps slots p j < steps slots p n := fun hless => hfirst hj hless hready
  have hne : steps slots p n ≠ steps slots p j := by
    intro heq
    have hsame : n = j := by
      rw [← slot_of_steps hplt hnlt, heq, slot_of_steps hplt hj]
    subst hsame
    obtain ⟨other, hother, hotherState⟩ := hready
    rw [hslot] at hother
    cases hother
    rw [hstate] at hotherState
    cases hotherState
  have hsum := steps_of_between (n := n) hplt hj (by omega)
  have hpos := steps_pos hplt n
  omega

theorem Preempting.dispatches_le {before stretch rest : List Call}
    (h : Preempting (before ++ stretch ++ rest) (withQuantum slots quantum))
    (hready : ∀ k ≤ stretch.length,
      (after (before ++ stretch.take k) (withQuantum slots quantum)).Ready j) :
    (∀ p, (after (before ++ stretch) (withQuantum slots quantum)).current = some p →
      (dispatches stretch (after before (withQuantum slots quantum))).length + steps slots p j ≤
        slots) ∧
    (dispatches stretch (after before (withQuantum slots quantum))).length ≤ slots - 1 := by
  have hj : j < slots := by
    obtain ⟨task, hslot, _⟩ := hready 0 (Nat.zero_le _)
    exact (traced_after slots quantum _).length ▸ slot_lt hslot
  induction stretch using reverseRecOn generalizing rest with
  | nil =>
    refine ⟨?_, Nat.zero_le _⟩
    intro p hp
    obtain ⟨task, hslot, hstate⟩ := hready 0 (Nat.le_refl _)
    obtain ⟨current, hcurrent, hrunning⟩ := (traced_after slots quantum _).runs p hp
    have hne : j ≠ p := by
      rintro rfl
      rw [take_nil, hcurrent] at hslot
      cases hslot
      rw [hrunning] at hstate
      cases hstate
    have hlt := steps_lt hj hne
    rw [dispatches, length_nil]
    omega
  | append_singleton stretch call ih =>
    have hsplit : before ++ (stretch ++ [call]) ++ rest = before ++ stretch ++ (call :: rest) := by
      simp
    have hpart : ∀ k ≤ stretch.length, (stretch ++ [call]).take k = stretch.take k :=
      fun k hk => take_append_of_le_length hk
    rw [hsplit] at h
    obtain ⟨hnear, hcount⟩ := ih h (by
      intro k hk
      rw [← hpart k hk]
      exact hready k (by rw [length_append]; omega))
    have htraced := traced_after slots quantum (before ++ stretch)
    have hnext : (perform call (after (before ++ stretch) (withQuantum slots quantum))).2.Ready
        j := by
      rw [← after_concat, append_assoc]
      have hwhole := hready (stretch ++ [call]).length (Nat.le_refl _)
      rwa [take_length] at hwhole
    rw [dispatches_concat, ← after_append, ← append_assoc, after_concat]
    cases hcall : dispatched call (after (before ++ stretch) (withQuantum slots quantum)) with
    | none =>
      rw [Option.toList_none, append_nil]
      refine ⟨?_, hcount⟩
      intro p hp
      rcases htraced.runs.perform_leaves hcall with hsame | hnone
      · exact hnear p (hsame.symm.trans hp)
      · rw [hnone] at hp
        cases hp
    | some n =>
      rw [Option.toList_some, length_append, length_singleton]
      have hcurrent := (htraced.runs.perform_dispatch hcall).2
      have hbound : (dispatches stretch (after before (withQuantum slots quantum))).length + 1 +
          steps slots n j ≤ slots := by
        cases hold : (after (before ++ stretch) (withQuantum slots quantum)).current with
        | some p =>
          have hnearer := htraced.dispatch_nearer hcall hold hnext hj
          have hsum := hnear p hold
          omega
        | none =>
          -- the first dispatch of the run
          have hfirst : dispatches (before ++ stretch) (withQuantum slots quantum) = [] := by
            by_contra hne
            refine h.current_ne ?_ hne hold
            rw [hcall]
            exact Option.some_ne_none n
          rw [dispatches_append, append_eq_nil_iff] at hfirst
          have hlast := (htraced.performed call).runs n hcurrent
          have hne : j ≠ n := by
            rintro rfl
            obtain ⟨task, hslot, hstate⟩ := hnext
            obtain ⟨running, hrunning, hrunningState⟩ := hlast
            rw [hslot] at hrunning
            cases hrunning
            rw [hstate] at hrunningState
            cases hrunningState
          have hlt := steps_lt hj hne
          rw [hfirst.2, length_nil]
          omega
      refine ⟨?_, ?_⟩
      · intro p hp
        rw [hcurrent] at hp
        cases hp
        exact hbound
      · have hnlt : n < slots := by
          obtain ⟨task, hslot, _⟩ := (htraced.performed call).runs n hcurrent
          exact (htraced.performed call).length ▸ slot_lt hslot
        have hpos := steps_pos hnlt j
        omega

end

/-- As long as the processor is only taken from a current task, a dispatch passes over no
ready slot after the one dispatched before, and a ready slot is passed over by at most
`slots - 1` dispatches. -/
theorem roundRobin_of_preempting (slots quantum : Nat) (calls : List Call)
    (h : Preempting calls (withQuantum slots quantum)) :
    (∀ before call rest n p, calls = before ++ call :: rest →
      dispatched call (after before (withQuantum slots quantum)) = some n →
      (dispatches before (withQuantum slots quantum)).getLast? = some p →
      ∀ j < slots, steps slots p j < steps slots p n →
        ¬(after (before ++ [call]) (withQuantum slots quantum)).Ready j) ∧
    ∀ before stretch rest j, calls = before ++ stretch ++ rest →
      (∀ k ≤ stretch.length,
        (after (before ++ stretch.take k) (withQuantum slots quantum)).Ready j) →
      (dispatches stretch (after before (withQuantum slots quantum))).length ≤ slots - 1 := by
  constructor
  · rintro before call rest n p rfl hcall hlast j hj hless
    have htraced := traced_after slots quantum before
    have hhistory : dispatches before (withQuantum slots quantum) ≠ [] := by
      intro hnil
      rw [hnil] at hlast
      cases hlast
    have hcurrent := h.current_ne (hcall ▸ Option.some_ne_none n) hhistory
    obtain ⟨c, hc⟩ := Option.ne_none_iff_exists'.mp hcurrent
    have hsame : c = p := Option.some.inj ((htraced.last c hc).symm.trans hlast)
    subst hsame
    obtain ⟨hdispatch, hn⟩ := htraced.runs.perform_dispatch hcall
    rw [after_concat]
    apply hdispatch n c hn hc
    · rwa [htraced.length]
    · rwa [htraced.length]
  · rintro before stretch rest j rfl hready
    exact (h.dispatches_le hready).2

/-- Two tasks that are preempted in turn. -/
theorem roundRobin_of_preempting_two :
    let calls : List Call := [.spawn 1 .zero, .spawn 2 .zero, .schedule 0, .tick 1, .tick 2]
    Preempting calls (withQuantum 3 1) ∧ dispatches calls (withQuantum 3 1) = [0, 1, 0] ∧
      ¬(after calls (withQuantum 3 1)).Ready 2 := by
  intro calls
  have hpreempting : Preempting calls (withQuantum 3 1) := by decide
  have hlaw := (roundRobin_of_preempting 3 1 calls hpreempting).1
    [.spawn 1 .zero, .spawn 2 .zero, .schedule 0, .tick 1] (.tick 2) [] 0 1 rfl (by decide)
    (by decide) 2 (by decide) (by decide)
  exact ⟨hpreempting, by decide, hlaw⟩

/-- A task that goes to sleep sends the search back to slot 0: slot 2 is ready all the time,
and the processor goes from slot 1 to slot 0 and stays there. -/
theorem roundRobin_broken_by_sleep :
    let before : List Call := [.spawn 1 .zero, .spawn 2 .zero, .spawn 3 .zero]
    let first : List Call := [.schedule 0, .schedule 0, .sleepCurrent 5]
    let again : List Call := [.schedule 0, .sleepCurrent 0, .schedule 0]
    (dispatches (before ++ first) (withQuantum 3 1)).getLast? = some 1 ∧
    dispatched (.schedule 0) (after (before ++ first) (withQuantum 3 1)) = some 0 ∧
    steps 3 1 2 < steps 3 1 0 ∧
    (after (before ++ first ++ [.schedule 0]) (withQuantum 3 1)).Ready 2 ∧
    (∀ k ≤ (first ++ again).length,
      (after (before ++ (first ++ again).take k) (withQuantum 3 1)).Ready 2) ∧
    3 - 1 < (dispatches (first ++ again) (after before (withQuantum 3 1))).length := by
  decide

end Scheduler

end NexOs.Runtime
