import NexOs.Lib.Hoare
import NexOs.Lib.Runs
import NexOs.Lib.Slots
import NexOs.Runtime.Scheduler

/-! What the calls of the scheduler do to the slots, and what holds in every run. -/
namespace NexOs.Runtime
open List Bytes Exec

namespace Scheduler
variable {s t u : Scheduler} {i j n now : Nat} {task : Task} {state : TaskState} {id : TaskId}
  {value : Option Task} {status : Int}

/-! ## Slots -/

theorem slot_lt (h : s.slot i = some task) : i < s.tasks.length := Slots.value_lt h

theorem slot_setSlot (hi : i < s.tasks.length) :
    (s.setSlot i value).slot j = if j = i then value else s.slot j :=
  Slots.value_set hi value

theorem slot_setState : (s.setState i state).slot j =
    if j = i then (s.slot i).map fun task => { task with state := state } else s.slot j := by
  by_cases hi : i < s.tasks.length
  · exact slot_setSlot hi
  · have hnone : s.slot i = none := Slots.value_of_le (Nat.le_of_not_lt hi)
    rw [setState, setSlot, slot, set_eq_of_length_le (Nat.le_of_not_lt hi), hnone]
    by_cases hj : j = i
    · rw [if_pos hj, hj]
      exact hnone
    · rw [if_neg hj]
      rfl

theorem slot_wakeSleepers (i : Nat) :
    (wakeSleepers now s).slot i = (s.slot i).map (wakeTask now) := by
  rw [slot, slot, wakeSleepers, getElem?_map]
  cases s.tasks[i]? with
  | none => rfl
  | some slot => rfl

theorem index_slot (h : s.slot i = some task) :
    (index s.tasks i : Result SchedulerError (Option Task)) = .ok (some task) := by
  have hlt := slot_lt h
  rw [slot, getElem?_eq_getElem hlt] at h
  apply index_eq
  rw [getElem?_eq_getElem hlt]
  exact congrArg some h

theorem wakeTask_id : (wakeTask now task).id = task.id := by
  unfold wakeTask
  split <;> rfl

theorem wakeTask_state (task : Task) :
    (∃ wakeTick, task.state = .sleeping wakeTick ∧ (wakeTask now task).state = .ready) ∨
      wakeTask now task = task := by
  unfold wakeTask
  cases hstate : task.state with
  | sleeping wakeTick =>
    by_cases hdue : TaskState.isDue now (.sleeping wakeTick) = true
    · rw [if_pos hdue]
      exact .inl ⟨wakeTick, rfl, rfl⟩
    · rw [if_neg hdue]
      exact .inr rfl
  | ready => exact .inr rfl
  | running => exact .inr rfl
  | blocked => exact .inr rfl
  | exited status => exact .inr rfl

theorem position_eq_some (h : s.position id = some i) :
    ∃ task, s.slot i = some task ∧ task.id = id := by
  obtain ⟨task, hslot, hid⟩ := Slots.firstWhere_eq_some (p := fun task : Task => task.id = id) h
  exact ⟨task, hslot, of_decide_eq_true hid⟩

/-! ## Tasks that stay in the table -/

/-- Every slot keeps its task, and what has exited stays so. -/
structure Retains (s t : Scheduler) : Prop where
  nextId : t.nextId = s.nextId
  quantum : t.quantumTicks = s.quantumTicks
  length : t.tasks.length = s.tasks.length
  empty : ∀ i, s.slot i = none → t.slot i = none
  task : ∀ i a, s.slot i = some a → ∃ b, t.slot i = some b ∧ b.id = a.id ∧
    (a.state.isExited = true → b.state.isExited = true)

theorem Retains.refl : s.Retains s :=
  ⟨rfl, rfl, rfl, fun _ h => h, fun _ a h => ⟨a, h, rfl, id⟩⟩

theorem Retains.trans (h : s.Retains t) (h' : t.Retains u) : s.Retains u := by
  refine ⟨h'.nextId.trans h.nextId, h'.quantum.trans h.quantum, h'.length.trans h.length,
    fun i hi => h'.empty i (h.empty i hi), ?_⟩
  intro i a ha
  obtain ⟨b, hb, hid, hexit⟩ := h.task i a ha
  obtain ⟨c, hc, hid', hexit'⟩ := h'.task i b hb
  exact ⟨c, hc, hid'.trans hid, fun hx => hexit' (hexit hx)⟩

theorem Retains.of_slot (h : s.Retains t) (hb : t.slot i = some b) :
    ∃ a, s.slot i = some a ∧ b.id = a.id ∧
      (a.state.isExited = true → b.state.isExited = true) := by
  cases hslot : s.slot i with
  | none =>
    rw [h.empty i hslot] at hb
    cases hb
  | some a =>
    obtain ⟨c, hc, hid, hexit⟩ := h.task i a hslot
    rw [hb] at hc
    cases hc
    exact ⟨a, rfl, hid, hexit⟩

theorem retains_wakeSleepers : s.Retains (wakeSleepers now s) := by
  refine ⟨rfl, rfl, length_map _, ?_, ?_⟩
  · intro i hi
    rw [slot_wakeSleepers, hi]
    rfl
  · intro i a ha
    refine ⟨wakeTask now a, ?_, wakeTask_id, ?_⟩
    · rw [slot_wakeSleepers, ha]
      rfl
    · intro hexit
      rcases wakeTask_state a with ⟨wakeTick, hsleep, _⟩ | hsame
      · rw [hsleep] at hexit
        cases hexit
      · rwa [hsame]

theorem retains_setState
    (h : ∀ a, s.slot i = some a → a.state.isExited = true → state.isExited = true) :
    s.Retains (s.setState i state) := by
  refine ⟨rfl, rfl, length_set .., ?_, ?_⟩
  · intro j hj
    rw [slot_setState]
    by_cases heq : j = i
    · rw [if_pos heq, ← heq, hj]
      rfl
    · rw [if_neg heq, hj]
  · intro j a ha
    rw [slot_setState]
    by_cases heq : j = i
    · rw [if_pos heq, ← heq, ha]
      exact ⟨_, rfl, rfl, h a (heq ▸ ha)⟩
    · rw [if_neg heq]
      exact ⟨a, ha, rfl, id⟩

theorem retains_setState_of_live (hslot : s.slot i = some task)
    (hlive : task.state.isExited = false) : s.Retains (s.setState i state) := by
  apply retains_setState
  intro a ha hexit
  rw [hslot] at ha
  cases ha
  rw [hlive] at hexit
  cases hexit

theorem isExited_of_isWaiting (h : state.isWaiting = true) : state.isExited = false := by
  cases state <;> first | rfl | cases h

theorem Retains.congr (h : s.Retains t) (htasks : u.tasks = t.tasks)
    (hnext : u.nextId = t.nextId) (hquantum : u.quantumTicks = t.quantumTicks) :
    s.Retains u := by
  have hslot : ∀ i, u.slot i = t.slot i := by
    intro i
    rw [slot, slot, htasks]
  refine ⟨hnext.trans h.nextId, hquantum.trans h.quantum, htasks ▸ h.length, ?_, ?_⟩
  · intro i hi
    rw [hslot]
    exact h.empty i hi
  · intro i a ha
    rw [hslot]
    exact h.task i a ha

theorem retains_preempt : s.Retains s.preempt := by
  unfold preempt
  cases s.current with
  | none => exact .refl
  | some i =>
    dsimp only
    split
    · rename_i hany
      apply retains_setState
      intro a ha hexit
      rw [ha] at hany
      rw [of_decide_eq_true hany] at hexit
      cases hexit
    · exact .refl

/-! ## The current task -/

def Running (s : Scheduler) (i : Nat) : Prop := ∃ task, s.slot i = some task ∧ task.state = .running

def Ready (s : Scheduler) (i : Nat) : Prop := ∃ task, s.slot i = some task ∧ task.state = .ready

theorem ready_iff : s.Ready i ↔ (s.slot i).any (fun task => task.state = .ready) = true := by
  rw [Ready, Option.any_eq_true]
  simp

theorem running_wakeSleepers : (wakeSleepers now s).Running i ↔ s.Running i := by
  rw [Running, Running, slot_wakeSleepers]
  cases s.slot i with
  | none => simp
  | some task =>
    have hstate : (wakeTask now task).state = .running ↔ task.state = .running := by
      rcases wakeTask_state task with ⟨wakeTick, hsleep, hready⟩ | hsame
      · rw [hsleep, hready]
        simp
      · rw [hsame]
    simp [hstate]

def CurrentRuns (s : Scheduler) : Prop := ∀ i, s.current = some i → s.Running i

theorem CurrentRuns.currentTask_eq (h : s.CurrentRuns) :
    s.currentTask = .ok (s.current.bind s.slot) := by
  unfold currentTask
  cases hcurrent : s.current with
  | none => rfl
  | some i =>
    obtain ⟨task, hslot, _⟩ := h i hcurrent
    rw [Option.bind_some, hslot]
    exact index_slot hslot

theorem CurrentRuns.woken (h : s.CurrentRuns) (now : Nat) : (wakeSleepers now s).CurrentRuns :=
  fun i hi => running_wakeSleepers.mpr (h i hi)

/-- The scheduler when `schedule` looks for the next task. -/
def offered (now : Nat) (s : Scheduler) : Scheduler := (wakeSleepers now s).preempt

theorem retains_offered (now : Nat) (s : Scheduler) : s.Retains (offered now s) :=
  retains_wakeSleepers.trans retains_preempt

theorem current_offered (now : Nat) (s : Scheduler) : (offered now s).current = s.current := by
  unfold offered preempt
  cases hcurrent : (wakeSleepers now s).current with
  | none => rfl
  | some i =>
    dsimp only
    split
    · rfl
    · rfl

def startOf (s : Scheduler) : Nat := s.current.elim 0 fun i => (i + 1) % max s.tasks.length 1

def dispatch (s : Scheduler) (n : Nat) : Scheduler :=
  { s.setState n .running with current := some n, remainingTicks := s.quantumTicks }

theorem slot_dispatch : (s.dispatch n).slot j =
    if j = n then (s.slot n).map fun task => { task with state := .running } else s.slot j :=
  slot_setState

theorem retains_dispatch (h : s.Ready n) : s.Retains (s.dispatch n) := by
  obtain ⟨task, hslot, hstate⟩ := h
  have hlive : task.state.isExited = false := by
    rw [hstate]
    rfl
  exact (retains_setState_of_live hslot hlive).congr rfl rfl rfl

theorem findReadyFrom_ready (h : s.findReadyFrom start = some n) : s.Ready n := by
  unfold findReadyFrom at h
  split at h
  · cases h
  · have hready := find?_some h
    exact ready_iff.mpr hready

def named : ScheduleDecision → Option TaskId
  | .continues task => some task
  | .switch _ next => some next
  | .idle => none

theorem CurrentRuns.schedule_run (h : s.CurrentRuns) (now : Nat) :
    (∃ t, schedule now s = (.ok .idle, t) ∧ t = { offered now s with current := none } ∧
      (offered now s).findReadyFrom (offered now s).startOf = none) ∨
    ∃ n task decision switches, schedule now s = (.ok decision,
        { (offered now s).dispatch n with contextSwitches := switches }) ∧
      (offered now s).findReadyFrom (offered now s).startOf = some n ∧
      (offered now s).slot n = some task ∧ named decision = some task.id := by
  have hprevious := (h.woken now).currentTask_eq
  unfold schedule
  rw [modify_bind, get_bind, hprevious, lift_ok_bind, modify_bind, get_bind]
  cases hfind : (offered now s).findReadyFrom (offered now s).startOf with
  | none =>
    unfold offered startOf at hfind
    rw [hfind]
    exact .inl ⟨_, rfl, rfl, rfl⟩
  | some n =>
    obtain ⟨task, hslot, _⟩ := findReadyFrom_ready hfind
    unfold offered startOf at hfind
    unfold offered at hslot
    rw [hfind]
    dsimp only
    rw [hslot, lift_ok_bind]
    split
    · exact .inr ⟨n, task, _, _, rfl, rfl, hslot, rfl⟩
    · exact .inr ⟨n, task, _, _, rfl, rfl, hslot, rfl⟩

def hasTicks (s : Scheduler) : Prop := s.current ≠ none ∧ s.remainingTicks - 1 ≠ 0

instance (s : Scheduler) : Decidable s.hasTicks := inferInstanceAs (Decidable (_ ∧ _))

def ticked (now : Nat) (s : Scheduler) : Scheduler :=
  match s.current with
  | none => wakeSleepers now s
  | some _ => { wakeSleepers now s with remainingTicks := s.remainingTicks - 1 }

theorem ticked_fields (now : Nat) (s : Scheduler) : (ticked now s).current = s.current ∧
    (ticked now s).tasks = (wakeSleepers now s).tasks ∧ (ticked now s).nextId = s.nextId ∧
    (ticked now s).quantumTicks = s.quantumTicks := by
  unfold ticked
  cases hcurrent : s.current with
  | none => exact ⟨hcurrent, rfl, rfl, rfl⟩
  | some i => exact ⟨hcurrent, rfl, rfl, rfl⟩

theorem CurrentRuns.tick_run (h : s.CurrentRuns) :
    (s.hasTicks ∧ ∃ i task, s.current = some i ∧ s.slot i = some task ∧
      tick now s = (.ok (.continues task.id), ticked now s)) ∨
    (¬s.hasTicks ∧ tick now s = schedule now (ticked now s)) := by
  unfold tick ticked hasTicks
  rw [modify_bind, get_bind]
  cases hcurrent : s.current with
  | none =>
    have hwoken : (wakeSleepers now s).current = none := hcurrent
    rw [hwoken]
    exact .inr ⟨fun hticks => hticks.1 rfl, rfl⟩
  | some i =>
    obtain ⟨task, hslot, hstate⟩ := h i hcurrent
    have hwoken : (wakeSleepers now s).current = some i := hcurrent
    have hsame : (wakeSleepers now s).slot i = some task := by
      rw [slot_wakeSleepers, hslot, Option.map_some, wakeTask, hstate]
      rfl
    rw [hwoken]
    dsimp only
    rw [index_slot hsame, lift_ok_bind]
    dsimp only
    rw [if_neg (not_not.mpr hstate), modify_bind, get_bind]
    by_cases hzero : (wakeSleepers now s).remainingTicks - 1 = 0
    · rw [if_pos hzero]
      exact .inr ⟨fun hticks => hticks.2 hzero, rfl⟩
    · rw [if_neg hzero]
      exact .inl ⟨⟨Option.some_ne_none i, hzero⟩, i, task, rfl, hslot, rfl⟩

theorem CurrentRuns.ticked (h : s.CurrentRuns) (now : Nat) : (ticked now s).CurrentRuns := by
  obtain ⟨hcurrent, htasks, _⟩ := ticked_fields now s
  intro i hi
  rw [hcurrent] at hi
  obtain ⟨task, hslot, hstate⟩ := h.woken now i hi
  refine ⟨task, ?_, hstate⟩
  rwa [slot, htasks]

theorem retains_ticked (now : Nat) (s : Scheduler) : s.Retains (ticked now s) :=
  retains_wakeSleepers.congr (ticked_fields now s).2.1 (ticked_fields now s).2.2.1
    (ticked_fields now s).2.2.2

/-! ## The other calls -/

theorem CurrentRuns.stopCurrent_run (h : s.CurrentRuns) :
    (s.current = none ∧ stopCurrent state s = (.error (.error .noCurrentTask), s)) ∨
    ∃ i task, s.current = some i ∧ s.slot i = some task ∧ task.state = .running ∧
      stopCurrent state s = (.ok task.id, { s.setState i state with current := none }) := by
  unfold stopCurrent
  rw [get_bind]
  cases hcurrent : s.current with
  | none => exact .inl ⟨rfl, rfl⟩
  | some i =>
    obtain ⟨task, hslot, hstate⟩ := h i hcurrent
    rw [okOr_some, pure_bind_run, index_slot hslot]
    exact .inr ⟨i, task, rfl, hslot, hstate, rfl⟩

theorem spawn_run (processId : Nat) (context : CpuContext) :
    (s.tasks.findIdx? Option.isNone = none ∧
      spawn processId context s = (.error (.error .full), s)) ∨
    ∃ i, i < s.tasks.length ∧ s.slot i = none ∧
      spawn processId context s = (.ok ⟨s.nextId⟩,
        { s with nextId := (checkedAddU32 s.nextId 1).getD 1 }.setSlot i
          (some ⟨⟨s.nextId⟩, processId, .ready, context⟩)) := by
  unfold spawn
  rw [get_bind]
  cases hfind : s.tasks.findIdx? Option.isNone with
  | none => exact .inl ⟨rfl, rfl⟩
  | some i =>
    obtain ⟨hlt, hnone, _⟩ := Slots.firstFree_eq_some hfind
    exact .inr ⟨i, hlt, hnone, rfl⟩

theorem wake_run :
    wake id s = (.error (.error .taskNotFound), s) ∨ wake id s = (.ok (), s) ∨
    ∃ i task, s.slot i = some task ∧ task.id = id ∧ task.state.isWaiting = true ∧
      wake id s = (.ok (), s.setState i .ready) := by
  unfold wake
  rw [get_bind]
  cases hposition : s.position id with
  | none => exact .inl rfl
  | some i =>
    obtain ⟨task, hslot, hid⟩ := position_eq_some hposition
    rw [okOr_some, pure_bind_run, hslot, Option.any_some]
    by_cases hwaiting : task.state.isWaiting = true
    · rw [if_pos hwaiting]
      exact .inr (.inr ⟨i, task, hslot, hid, hwaiting, rfl⟩)
    · rw [if_neg hwaiting]
      exact .inr (.inl rfl)

theorem CurrentRuns.exitTask_run (h : s.CurrentRuns) :
    exitTask id status s = (.error (.error .taskNotFound), s) ∨
    ∃ i task, s.slot i = some task ∧ task.id = id ∧ exitTask id status s = (.ok (),
      { s.setState i (.exited status) with
        current := if (s.current.bind s.slot).any (fun task => task.id = id) then none
          else s.current }) := by
  unfold exitTask
  rw [get_bind]
  cases hposition : s.position id with
  | none => exact .inl rfl
  | some i =>
    obtain ⟨task, hslot, hid⟩ := position_eq_some hposition
    refine .inr ⟨i, task, hslot, hid, ?_⟩
    have hretains : s.Retains (s.setState i (.exited status)) :=
      retains_setState fun _ _ _ => rfl
    have hcurrent : ∃ slot, (s.setState i (.exited status)).currentTask = .ok slot ∧
        slot.any (fun task => task.id = id) =
          (s.current.bind s.slot).any fun task => task.id = id := by
      unfold currentTask
      cases hcase : s.current with
      | none =>
        have hsame : (s.setState i (.exited status)).current = none := hcase
        rw [hsame]
        exact ⟨none, rfl, rfl⟩
      | some c =>
        obtain ⟨current, hrun, _⟩ := h c hcase
        obtain ⟨later, hlater, hsame, _⟩ := hretains.task c current hrun
        have hstill : (s.setState i (.exited status)).current = some c := hcase
        rw [hstill]
        refine ⟨some later, index_slot hlater, ?_⟩
        rw [Option.bind_some, hrun, Option.any_some, Option.any_some, hsame]
    obtain ⟨slot, hlookup, hany⟩ := hcurrent
    rw [okOr_some, pure_bind_run, modify_bind, get_bind, hlookup, lift_ok_bind, hany]
    split
    · rfl
    · rfl

theorem reap_run (id : TaskId) :
    reap id s = (.error (.error .taskNotFound), s) ∨
    ∃ i task, s.slot i = some task ∧ task.id = id ∧ task.state.isExited = true ∧
      reap id s = (.ok task, s.setSlot i none) := by
  unfold reap
  rw [get_bind]
  cases hposition : s.position id with
  | none => exact .inl rfl
  | some i =>
    obtain ⟨task, hslot, hid⟩ := position_eq_some hposition
    rw [okOr_some, pure_bind_run, hslot, okOr_some, pure_bind_run]
    by_cases hexited : task.state.isExited = true
    · rw [ensure_bind_pos hexited]
      exact .inr ⟨i, task, hslot, hid, hexited, rfl⟩
    · rw [ensure_bind_neg hexited]
      exact .inl rfl

/-! ## One call -/

def Distinct (s : Scheduler) : Prop := Slots.Unique (fun task => task.id.value) s.tasks

theorem Distinct.slot_eq (hd : s.Distinct) (ha : s.slot i = some a)
    (hb : s.slot j = some b) (hid : a.id = b.id) : i = j :=
  hd i j a b ha hb (congrArg TaskId.value hid)

structure Leaves (s t : Scheduler) : Prop where
  length : t.tasks.length = s.tasks.length
  quantum : t.quantumTicks = s.quantumTicks
  ticks : t.remainingTicks = s.remainingTicks
  current : t.current = s.current ∨ t.current = none
  slot : ∀ i, t.current = some i → t.slot i = s.slot i
  running : s.Distinct → ∀ i, t.Running i →
    s.Running i ∧ (s.current = some i → t.current = some i)

theorem Leaves.refl : s.Leaves s :=
  ⟨rfl, rfl, rfl, .inl rfl, fun _ _ => rfl, fun _ _ h => ⟨h, id⟩⟩

theorem Leaves.runs (h : s.Leaves t) (hs : s.CurrentRuns) : t.CurrentRuns := by
  intro i hi
  rw [Running, h.slot i hi]
  rcases h.current with hsame | hnone
  · exact hs i (hsame.symm.trans hi)
  · rw [hnone] at hi
    cases hi

theorem leaves_set (hi : i < s.tasks.length) (hvalue : ∀ a, value = some a → a.state ≠ .running)
    (htasks : t.tasks = s.tasks.set i value) (hquantum : t.quantumTicks = s.quantumTicks)
    (hticks : t.remainingTicks = s.remainingTicks)
    (hcurrent : t.current = s.current ∨ t.current = none) (hne : t.current ≠ some i)
    (hkeep : s.Distinct → ∀ j, s.current = some j → j ≠ i → t.current = some j) : s.Leaves t := by
  have hslot : ∀ j, t.slot j = if j = i then value else s.slot j := by
    intro j
    rw [slot, htasks]
    exact Slots.value_set hi value
  refine ⟨by rw [htasks, length_set], hquantum, hticks, hcurrent, ?_, ?_⟩
  · intro j hj
    rw [hslot, if_neg]
    rintro rfl
    exact hne hj
  · rintro hd j ⟨a, ha, hstate⟩
    rw [hslot] at ha
    split at ha
    · exact absurd hstate (hvalue a ha)
    · rename_i hj
      exact ⟨⟨a, ha, hstate⟩, fun hc => hkeep hd j hc hj⟩

theorem CurrentRuns.current_ne (h : s.CurrentRuns)
    (hnot : ∀ task, s.slot i = some task → task.state ≠ .running) : s.current ≠ some i := by
  intro hi
  obtain ⟨task, hslot, hstate⟩ := h i hi
  exact hnot task hslot hstate

theorem CurrentRuns.setState_leaves (h : s.CurrentRuns) (hslot : s.slot i = some task)
    (hold : task.state ≠ .running) (hstate : state ≠ .running) : s.Leaves (s.setState i state) := by
  refine leaves_set (slot_lt hslot) ?_ rfl rfl rfl (.inl rfl) (h.current_ne ?_) fun _ _ hc _ => hc
  · intro a ha
    obtain ⟨old, _, rfl⟩ := Option.map_eq_some_iff.mp ha
    exact hstate
  · intro a ha
    rw [hslot] at ha
    cases ha
    exact hold

theorem leaves_free (hslot : s.slot i = some task) (hstate : state ≠ .running)
    (hcurrent : s.Distinct → ∀ j, s.current = some j → j = i) :
    s.Leaves { s.setState i state with current := none } := by
  refine leaves_set (slot_lt hslot) ?_ rfl rfl rfl (.inr rfl) nofun ?_
  · intro a ha
    obtain ⟨old, _, rfl⟩ := Option.map_eq_some_iff.mp ha
    exact hstate
  · exact fun hd j hj hne => absurd (hcurrent hd j hj) hne

def issued : Call → Result SchedulerError Reply → Option Nat
  | .spawn _ _, .ok (.id id) => some id.value
  | _, _ => none

inductive Edit (s : Scheduler) : Call → Result SchedulerError Reply → Scheduler → Prop where
  | keep {call : Call} {r : Result SchedulerError Reply} {t : Scheduler} (retains : s.Retains t)
      (number : issued call r = none) : Edit s call r t
  | spawn {i processId : Nat} {context : CpuContext} {t : Scheduler} (hi : i < s.tasks.length)
      (hfree : s.slot i = none) (hnext : t.nextId = (checkedAddU32 s.nextId 1).getD 1)
      (htasks : t.tasks = s.tasks.set i (some ⟨⟨s.nextId⟩, processId, .ready, context⟩)) :
      Edit s (.spawn processId context) (.ok (.id ⟨s.nextId⟩)) t
  | reap {i : Nat} {task : Task} (hslot : s.slot i = some task)
      (hexited : task.state.isExited = true) :
      Edit s (.reap task.id) (.ok (.task task)) (s.setSlot i none)

def currentId (s : Scheduler) : Option TaskId := (s.current.bind s.slot).map Task.id

/-- The current task has ticks left, and not more than the quantum. -/
def Timed (s : Scheduler) : Prop :=
  s.current ≠ none → 1 ≤ s.remainingTicks ∧ s.remainingTicks ≤ s.quantumTicks

structure Decides (s : Scheduler) (decision : ScheduleDecision) (t : Scheduler) : Prop where
  retains : s.Retains t
  runs : t.CurrentRuns
  running : ∀ i, t.Running i → t.current = some i ∨ s.Running i ∧ s.current ≠ some i
  timed : 1 ≤ s.quantumTicks → s.Timed → t.Timed
  names : ∀ id, named decision = some id → t.currentId = some id

def Call.decides : Call → Bool
  | .schedule _ => true
  | .tick _ => true
  | _ => false

structure Performed (call : Call) (s : Scheduler) (r : Result SchedulerError Reply)
    (t : Scheduler) : Prop where
  total : r.Total
  edit : s.Edit call r t
  turn : (call.decides = false ∧ s.Leaves t ∧ ∀ decision, r ≠ .ok (.decision decision)) ∨
    call.decides = true ∧ ∃ decision, r = .ok (.decision decision) ∧ s.Decides decision t

variable {call : Call} {r : Result SchedulerError Reply}

theorem Performed.runs (h : Performed call s r t) (hs : s.CurrentRuns) : t.CurrentRuns := by
  rcases h.turn with ⟨_, hleaves, _⟩ | ⟨_, _, _, hdecides⟩
  · exact hleaves.runs hs
  · exact hdecides.runs

theorem Performed.length (h : Performed call s r t) : t.tasks.length = s.tasks.length := by
  rcases h.turn with ⟨_, hleaves, _⟩ | ⟨_, _, _, hdecides⟩
  · exact hleaves.length
  · exact hdecides.retains.length

theorem running_offered (h : (offered now s).Running i) :
    s.Running i ∧ (s.CurrentRuns → s.current ≠ some i) := by
  unfold offered preempt at h
  cases hcurrent : (wakeSleepers now s).current with
  | none =>
    rw [hcurrent] at h
    have hnone : s.current = none := hcurrent
    exact ⟨running_wakeSleepers.mp h, fun _ => hnone ▸ nofun⟩
  | some c =>
    have hc : s.current = some c := hcurrent
    rw [hcurrent] at h
    dsimp only at h
    split at h
    · obtain ⟨a, ha, hstate⟩ := h
      rw [slot_setState] at ha
      split at ha
      · obtain ⟨old, _, rfl⟩ := Option.map_eq_some_iff.mp ha
        cases hstate
      · rename_i hne
        refine ⟨running_wakeSleepers.mp ⟨a, ha, hstate⟩, fun _ heq => hne ?_⟩
        exact Option.some.inj (heq.symm.trans hc)
    · rename_i hidle
      refine ⟨running_wakeSleepers.mp h, fun hruns _ => hidle ?_⟩
      obtain ⟨task, hslot, hstate⟩ := hruns.woken now c hcurrent
      rw [hslot]
      exact decide_eq_true hstate

theorem CurrentRuns.schedule_decides (h : s.CurrentRuns) :
    ∃ decision t, schedule now s = (.ok decision, t) ∧ s.Decides decision t ∧
      (1 ≤ s.quantumTicks → t.Timed) := by
  have hoffered := retains_offered now s
  have hrunning : ∀ i, (offered now s).Running i → s.Running i ∧ s.current ≠ some i :=
    fun i hi => (running_offered hi).imp_right fun hne => hne h
  rcases h.schedule_run now with ⟨t, hrun, rfl, _⟩ |
    ⟨n, task, decision, switches, hrun, hfind, hslot, hnamed⟩
  · refine ⟨_, _, hrun, ⟨hoffered.congr rfl rfl rfl, nofun, ?_, nofun, nofun⟩, nofun⟩
    exact fun i hi => .inr (hrunning i hi)
  · have hretains : s.Retains { (offered now s).dispatch n with contextSwitches := switches } :=
      (hoffered.trans (retains_dispatch (findReadyFrom_ready hfind))).congr rfl rfl rfl
    have hn : ((offered now s).dispatch n).slot n = some { task with state := .running } := by
      rw [slot_dispatch, if_pos rfl, hslot]
      rfl
    have htimed : 1 ≤ s.quantumTicks →
        { (offered now s).dispatch n with contextSwitches := switches }.Timed := by
      intro hpos _
      rw [← hoffered.quantum] at hpos
      exact ⟨hpos, Nat.le_refl _⟩
    refine ⟨decision, _, hrun, ⟨hretains, ?_, ?_, fun hpos _ => htimed hpos, ?_⟩, htimed⟩
    · intro i hi
      cases hi
      exact ⟨_, hn, rfl⟩
    · rintro i ⟨a, ha, hstate⟩
      by_cases hin : i = n
      · rw [hin]
        exact .inl rfl
      · have hold : ((offered now s).dispatch n).slot i = some a := ha
        rw [slot_dispatch, if_neg hin] at hold
        exact .inr (hrunning i ⟨a, hold, hstate⟩)
    · intro id hid
      change (((offered now s).dispatch n).slot n).map Task.id = some id
      rw [hn, Option.map_some, ← hid, hnamed]

theorem CurrentRuns.tick_decides (h : s.CurrentRuns) (now : Nat) :
    ∃ decision t, tick now s = (.ok decision, t) ∧ s.Decides decision t := by
  have hretains := retains_ticked now s
  obtain ⟨hcurrent, htasks, _, hquantum⟩ := ticked_fields now s
  have hrunning : ∀ i, (Scheduler.ticked now s).Running i ↔ s.Running i := by
    intro i
    have hsame : (Scheduler.ticked now s).slot i = (wakeSleepers now s).slot i := by
      rw [slot, htasks, slot]
    rw [Running, hsame]
    exact running_wakeSleepers
  rcases h.tick_run with ⟨hticks, i, task, hi, hslot, hrun⟩ | ⟨hticks, hrun⟩
  · refine ⟨_, _, hrun, hretains, h.ticked now, ?_, ?_, ?_⟩
    · intro j hj
      rw [hcurrent]
      by_cases hc : s.current = some j
      · exact .inl hc
      · exact .inr ⟨(hrunning j).mp hj, hc⟩
    · intro _ htimed _
      have hremaining := htimed hticks.1
      have hpos := hticks.2
      rw [hquantum, Scheduler.ticked, hi]
      dsimp only
      omega
    · intro id hid
      cases hid
      obtain ⟨later, hlater, hsame, _⟩ := hretains.task i task hslot
      rw [currentId, hcurrent, hi, Option.bind_some, hlater, Option.map_some, hsame]
  · obtain ⟨decision, t, hschedule, hdecides, htimed⟩ := (h.ticked now).schedule_decides
    refine ⟨decision, t, hrun.trans hschedule, hretains.trans hdecides.retains, hdecides.runs, ?_,
      ?_, hdecides.names⟩
    · intro i hi
      rw [← hrunning, ← hcurrent]
      exact hdecides.running i hi
    · intro hpos _
      rw [← hquantum] at hpos
      exact htimed hpos

/-! ### Calls that decide nothing -/

section
variable {α : Type} {f : α → Reply}

theorem performed_failed {x : Exec Scheduler SchedulerError α} {e : SchedulerError}
    (hx : x s = (.error (.error e), s)) (hcall : call.decides = false)
    (hnumber : issued call (.error (.error e)) = none) :
    Performed call s ((x >>= fun a => pure (f a)) s).1 ((x >>= fun a => pure (f a)) s).2 := by
  rw [bind_of_error hx]
  exact ⟨.inr ⟨e, rfl⟩, .keep .refl hnumber, .inl ⟨hcall, .refl, nofun⟩⟩

theorem performed_ok {x : Exec Scheduler SchedulerError α} {a : α} (hx : x s = (.ok a, t))
    (hcall : call.decides = false) (hf : ∀ decision, f a ≠ .decision decision)
    (hedit : s.Edit call (.ok (f a)) t) (hleaves : s.Leaves t) :
    Performed call s ((x >>= fun a => pure (f a)) s).1 ((x >>= fun a => pure (f a)) s).2 := by
  rw [bind_of_ok hx]
  exact ⟨.inl ⟨f a, rfl⟩, hedit,
    .inl ⟨hcall, hleaves, fun decision hr => hf decision (Except.ok.inj hr)⟩⟩

end

theorem CurrentRuns.exitTask_leaves (h : s.CurrentRuns) (hslot : s.slot i = some task)
    (hid : task.id = id) :
    s.Leaves { s.setState i (.exited status) with
      current := if (s.current.bind s.slot).any (fun task => task.id = id) then none
        else s.current } := by
  have hexited : TaskState.exited status ≠ .running := nofun
  by_cases hsame : (s.current.bind s.slot).any (fun task => task.id = id) = true
  · rw [if_pos hsame]
    refine leaves_free hslot hexited fun hd j hj => ?_
    obtain ⟨a, ha, _⟩ := h j hj
    rw [hj, Option.bind_some, ha] at hsame
    exact hd.slot_eq ha hslot ((of_decide_eq_true hsame).trans hid.symm)
  · rw [if_neg hsame]
    refine leaves_set (slot_lt hslot) ?_ rfl rfl rfl (.inl rfl) ?_ fun _ _ hc _ => hc
    · intro a ha
      obtain ⟨old, _, rfl⟩ := Option.map_eq_some_iff.mp ha
      exact hexited
    · intro hi
      rw [hi, Option.bind_some, hslot] at hsame
      exact hsame (decide_eq_true hid)

theorem CurrentRuns.performed_stop (h : s.CurrentRuns) (hstate : state ≠ .running)
    (hcall : call.decides = false) (hnumber : ∀ r, issued call r = none) :
    Performed call s ((stopCurrent state >>= fun id => pure (Reply.id id)) s).1
      ((stopCurrent state >>= fun id => pure (Reply.id id)) s).2 := by
  rcases h.stopCurrent_run with ⟨_, hrun⟩ | ⟨i, task, hi, hslot, hold, hrun⟩
  · exact performed_failed hrun hcall (hnumber _)
  · have hlive : task.state.isExited = false := by
      rw [hold]
      rfl
    refine performed_ok hrun hcall nofun
      (.keep ((retains_setState_of_live hslot hlive).congr rfl rfl rfl) (hnumber _))
      (leaves_free hslot hstate fun _ j hj => ?_)
    exact Option.some.inj (hj.symm.trans hi)

theorem CurrentRuns.performed (h : s.CurrentRuns) (call : Call) :
    Performed call s (perform call s).1 (perform call s).2 := by
  cases call with
  | spawn processId context =>
    rcases spawn_run processId context with ⟨_, hrun⟩ | ⟨i, hi, hfree, hrun⟩
    · exact performed_failed hrun rfl rfl
    · refine performed_ok hrun rfl nofun (.spawn hi hfree rfl rfl)
        (leaves_set hi ?_ rfl rfl rfl (.inl rfl) (h.current_ne ?_) fun _ _ hc _ => hc)
      · intro a ha
        cases ha
        nofun
      · intro a ha
        rw [hfree] at ha
        cases ha
  | schedule now =>
    obtain ⟨decision, t, hrun, hdecides, _⟩ := h.schedule_decides
    rw [perform, bind_of_ok hrun]
    exact ⟨.inl ⟨_, rfl⟩, .keep hdecides.retains rfl, .inr ⟨rfl, decision, rfl, hdecides⟩⟩
  | tick now =>
    obtain ⟨decision, t, hrun, hdecides⟩ := h.tick_decides now
    rw [perform, bind_of_ok hrun]
    exact ⟨.inl ⟨_, rfl⟩, .keep hdecides.retains rfl, .inr ⟨rfl, decision, rfl, hdecides⟩⟩
  | sleepCurrent wakeTick => exact h.performed_stop nofun rfl fun _ => rfl
  | blockCurrent => exact h.performed_stop nofun rfl fun _ => rfl
  | exitCurrent status => exact h.performed_stop nofun rfl fun _ => rfl
  | wake id =>
    rcases wake_run with hrun | hrun | ⟨i, task, hslot, _, hwaiting, hrun⟩
    · exact performed_failed hrun rfl rfl
    · exact performed_ok hrun rfl nofun (.keep .refl rfl) .refl
    · refine performed_ok hrun rfl nofun
        (.keep (retains_setState_of_live hslot (isExited_of_isWaiting hwaiting)) rfl)
        (h.setState_leaves hslot ?_ nofun)
      intro hstate
      rw [hstate] at hwaiting
      cases hwaiting
  | exitTask id status =>
    rcases h.exitTask_run with hrun | ⟨i, task, hslot, hid, hrun⟩
    · exact performed_failed hrun rfl rfl
    · exact performed_ok hrun rfl nofun
        (.keep ((retains_setState fun _ _ _ => rfl).congr rfl rfl rfl) rfl)
        (h.exitTask_leaves hslot hid)
  | reap id =>
    rcases reap_run id with hrun | ⟨i, task, hslot, rfl, hexited, hrun⟩
    · exact performed_failed hrun rfl rfl
    · refine performed_ok hrun rfl nofun (.reap hslot hexited)
        (leaves_set (slot_lt hslot) ?_ rfl rfl rfl (.inl rfl) (h.current_ne ?_)
          fun _ _ hc _ => hc)
      · nofun
      · intro a ha hstate
        rw [hslot] at ha
        cases ha
        rw [hstate] at hexited
        cases hexited

/-! ## Numbers -/

theorem Retains.issue (h : s.Retains t) :
    Slots.Issue (fun n => (checkedAddU32 n 1).getD 1) (fun task => task.id.value) s.nextId s.tasks
      none t.nextId t.tasks := by
  rw [h.nextId]
  apply Slots.Issue.keep
  intro i b hb
  obtain ⟨a, ha, hid, _⟩ := h.of_slot hb
  exact ⟨a, ha, congrArg TaskId.value hid⟩

theorem Edit.issue (h : s.Edit call r t) :
    Slots.Issue (fun n => (checkedAddU32 n 1).getD 1) (fun task => task.id.value) s.nextId s.tasks
      (issued call r) t.nextId t.tasks := by
  cases h with
  | keep hretains hnumber =>
    rw [hnumber]
    exact hretains.issue
  | spawn hi hfree hnext htasks =>
    rw [hnext, htasks]
    exact .insert hi hfree rfl
  | reap hslot hexited => exact .keep Slots.keeps_set_none

theorem Edit.stays (h : s.Edit call r t) (ha : s.slot i = some a) :
    (∃ b, t.slot i = some b ∧ b.id = a.id) ∨ call = .reap a.id ∧ a.state.isExited = true := by
  cases h with
  | keep hretains _ =>
    obtain ⟨b, hb, hid, _⟩ := hretains.task i a ha
    exact .inl ⟨b, hb, hid⟩
  | spawn hi hfree _ htasks =>
    refine .inl ⟨a, ?_, rfl⟩
    have hother : t.slot i = _ := (congrArg (Slots.value · i) htasks).trans (Slots.value_set hi _)
    rw [hother, if_neg]
    · exact ha
    · rintro rfl
      rw [hfree] at ha
      cases ha
  | @reap j task hslot hexited =>
    by_cases hij : i = j
    · subst hij
      rw [hslot] at ha
      cases ha
      exact .inr ⟨rfl, hexited⟩
    · refine .inl ⟨a, ?_, rfl⟩
      rw [slot_setSlot (slot_lt hslot), if_neg hij, ha]

/-- What exited with the number `id` stays exited, also when the slot is used again. -/
def Gone (id : TaskId) (s : Scheduler) : Prop :=
  ∀ i a, s.slot i = some a → a.id = id → a.state.isExited = true

theorem Edit.gone (h : s.Edit call r t) (hgone : s.Gone id) (hold : id.value < s.nextId) :
    t.Gone id := by
  intro i b hb hid
  cases h with
  | keep hretains _ =>
    obtain ⟨a, ha, hsame, hexit⟩ := hretains.of_slot hb
    exact hexit (hgone i a ha (hsame.symm.trans hid))
  | spawn hi hfree _ htasks =>
    have hslot : t.slot i = _ := (congrArg (Slots.value · i) htasks).trans (Slots.value_set hi _)
    rw [hslot] at hb
    split at hb
    · cases hb
      subst hid
      exact absurd hold (Nat.lt_irrefl _)
    · exact hgone i b hb hid
  | reap hslot _ =>
    rw [slot_setSlot (slot_lt hslot)] at hb
    split at hb
    · cases hb
    · exact hgone i b hb hid

/-! ## Runs -/

theorem after_append (before rest : List Call) :
    after (before ++ rest) s = after rest (after before s) :=
  foldl_append

theorem after_concat (calls : List Call) :
    after (calls ++ [call]) s = (perform call (after calls s)).2 := by
  rw [after_append]
  rfl

theorem slot_withQuantum (slots quantum i : Nat) : (withQuantum slots quantum).slot i = none :=
  Slots.value_replicate i

theorem runs_after (slots quantum : Nat) (calls : List Call) :
    (after calls (withQuantum slots quantum)).CurrentRuns := by
  induction calls using reverseRecOn with
  | nil => nofun
  | append_singleton calls call ih =>
    rw [after_concat]
    exact (ih.performed call).runs ih

def spawned (calls : List Call) (s : Scheduler) : Nat :=
  (Runs.emitted (fun s call => (perform call s).2) (fun s call => issued call (perform call s).1)
    calls s).length

theorem spawned_append (before rest : List Call) (s : Scheduler) :
    spawned (before ++ rest) s = spawned before s + spawned rest (after before s) := by
  rw [spawned, Runs.emitted_append, length_append]
  rfl

theorem spawned_concat (calls : List Call) :
    spawned (calls ++ [call]) s =
      spawned calls s + (issued call (perform call (after calls s)).1).toList.length := by
  rw [spawned, Runs.emitted_concat, length_append]
  rfl

theorem numbered_after (slots quantum : Nat) (calls : List Call)
    (hcalls : spawned calls (withQuantum slots quantum) ≤ 2 ^ 32 - 1) :
    Slots.Numbered (2 ^ 32 - 1) (fun task : Task => task.id.value)
      (spawned calls (withQuantum slots quantum)) (after calls (withQuantum slots quantum)).nextId
      (after calls (withQuantum slots quantum)).tasks := by
  induction calls using reverseRecOn with
  | nil => exact Slots.numbered_replicate _ _
  | append_singleton calls call ih =>
    rw [spawned_concat] at hcalls ⊢
    rw [after_concat]
    have hissue := ((runs_after slots quantum calls).performed call).edit.issue
    exact hissue.numbered (ih (by omega)) hcalls fun n hn => checkedAddU32_getD hn

structure Seated (quantum : Nat) (s : Scheduler) : Prop where
  quantum_eq : s.quantumTicks = quantum
  current : ∀ i, s.current = some i ↔ s.Running i
  timed : s.Timed

theorem Performed.seated (h : Performed call s r t) (hd : s.Distinct)
    (hquantum : 1 ≤ quantum) (hs : s.Seated quantum) : t.Seated quantum := by
  have hruns : s.CurrentRuns := fun i hi => (hs.current i).mp hi
  rcases h.turn with ⟨_, hleaves, _⟩ | ⟨_, _, _, hdecides⟩
  · refine ⟨hleaves.quantum.trans hs.quantum_eq, fun i => ⟨h.runs hruns i, fun hi => ?_⟩, ?_⟩
    · obtain ⟨hold, hkeep⟩ := hleaves.running hd i hi
      exact hkeep ((hs.current i).mpr hold)
    · intro hne
      rw [hleaves.ticks, hleaves.quantum]
      rcases hleaves.current with hsame | hnone
      · exact hs.timed (hsame ▸ hne)
      · exact absurd hnone hne
  · refine ⟨hdecides.retains.quantum.trans hs.quantum_eq, fun i => ⟨hdecides.runs i, fun hi => ?_⟩,
      hdecides.timed (hs.quantum_eq ▸ hquantum) hs.timed⟩
    rcases hdecides.running i hi with hc | ⟨hold, hne⟩
    · exact hc
    · exact absurd ((hs.current i).mpr hold) hne

section
variable {slots quantum : Nat}

theorem seated_after (hquantum : 1 ≤ quantum) (calls : List Call)
    (hcalls : spawned calls (withQuantum slots quantum) ≤ 2 ^ 32 - 1) :
    (after calls (withQuantum slots quantum)).Seated quantum := by
  induction calls using reverseRecOn with
  | nil =>
    refine ⟨rfl, fun i => iff_of_false nofun ?_, nofun⟩
    rintro ⟨a, ha, _⟩
    exact nomatch (slot_withQuantum slots quantum i).symm.trans ha
  | append_singleton calls call ih =>
    rw [spawned_concat] at hcalls
    rw [after_concat]
    exact ((runs_after slots quantum calls).performed call).seated
      (numbered_after slots quantum calls (by omega)).unique hquantum (ih (by omega))

theorem gone_after (before rest : List Call)
    (hcalls : spawned (before ++ rest) (withQuantum slots quantum) < 2 ^ 32 - 1)
    (hold : id.value < (after before (withQuantum slots quantum)).nextId)
    (hgone : (after before (withQuantum slots quantum)).Gone id) :
    (after (before ++ rest) (withQuantum slots quantum)).Gone id := by
  induction rest using reverseRecOn with
  | nil =>
    rw [append_nil]
    exact hgone
  | append_singleton rest call ih =>
    rw [← append_assoc, spawned_concat] at hcalls
    rw [← append_assoc, after_concat]
    have hnow := numbered_after slots quantum (before ++ rest) (by omega)
    have hthen := numbered_after slots quantum before (by rw [spawned_append] at hcalls; omega)
    refine ((runs_after slots quantum (before ++ rest)).performed call).edit.gone (ih (by omega)) ?_
    rw [spawned_append] at hcalls
    rw [hthen.next_eq (by omega)] at hold
    rw [hnow.next_eq (by rw [spawned_append]; omega), spawned_append]
    omega

end

/-! ## Counting the calls -/

def Call.spawnCount : Call → Nat
  | .spawn _ _ => 1
  | _ => 0

def spawnsOf (calls : List Call) : Nat := (calls.map Call.spawnCount).sum

theorem length_issued_le (call : Call) (r : Result SchedulerError Reply) :
    (issued call r).toList.length ≤ call.spawnCount := by
  cases call with
  | spawn processId context =>
    unfold issued
    split
    · exact Nat.le_refl 1
    · exact Nat.zero_le 1
  | _ => exact Nat.le_refl 0

theorem spawned_le (calls : List Call) (s : Scheduler) : spawned calls s ≤ spawnsOf calls := by
  induction calls using reverseRecOn with
  | nil => exact Nat.le_refl 0
  | append_singleton calls call ih =>
    have hone := length_issued_le call (perform call (after calls s)).1
    rw [spawned_concat, spawnsOf, map_append, sum_append]
    exact Nat.add_le_add ih hone

/-- In every run with fewer than 2^32 - 1 spawns the current slot is the only one that runs
and has ticks left, the tasks are told apart by their numbers, calls return, only `reap`
takes a task out and only when it has exited, decisions name the current task, and what has
exited is never ready or running again. -/
theorem scheduler_runs_safely (slots : Nat) {quantum : Nat} (hquantum : 1 ≤ quantum)
    (calls : List Call) (hspawns : spawnsOf calls < 2 ^ 32 - 1) :
    let start := withQuantum slots quantum
    let s := after calls start
    (∀ i, s.current = some i ↔ s.Running i) ∧
    (∀ i j, s.Running i → s.Running j → i = j) ∧
    (s.current ≠ none → 1 ≤ s.remainingTicks ∧ s.remainingTicks ≤ quantum) ∧
    (∀ i j a b, s.slot i = some a → s.slot j = some b → a.id = b.id → i = j) ∧
    (∀ before call rest, calls = before ++ call :: rest →
      (perform call (after before start)).1.Total ∧
      (∀ i a, (after before start).slot i = some a →
        (∃ b, (after (before ++ [call]) start).slot i = some b ∧ b.id = a.id) ∨
          call = .reap a.id ∧ a.state.isExited = true) ∧
      ∀ decision id, (perform call (after before start)).1 = .ok (.decision decision) →
        named decision = some id → (after (before ++ [call]) start).currentId = some id) ∧
    ∀ before rest, calls = before ++ rest → ∀ i a, (after before start).slot i = some a →
      a.state.isExited = true → ∀ j b, s.slot j = some b → b.id = a.id →
        b.state ≠ .ready ∧ b.state ≠ .running := by
  intro start s
  have hle := spawned_le calls (withQuantum slots quantum)
  have hs : s.Seated quantum := seated_after hquantum calls (by omega)
  have hd : s.Distinct := (numbered_after slots quantum calls (by omega)).unique
  refine ⟨hs.current, ?_, fun hne => hs.quantum_eq ▸ hs.timed hne, ?_, ?_, ?_⟩
  · intro i j hi hj
    rw [← hs.current] at hi hj
    exact Option.some.inj (hi.symm.trans hj)
  · exact fun i j a b ha hb hid => hd.slot_eq ha hb hid
  · rintro before call rest rfl
    have hperformed := (runs_after slots quantum before).performed call
    rw [after_concat]
    refine ⟨hperformed.total, fun i a ha => hperformed.edit.stays ha, fun decision id hr => ?_⟩
    rcases hperformed.turn with ⟨_, _, hsilent⟩ | ⟨_, other, hother, hdecides⟩
    · exact absurd hr (hsilent decision)
    · cases hother.symm.trans hr
      exact hdecides.names id
  · rintro before rest rfl i a ha hexited j b hb hid
    have hsum := spawned_append before rest (withQuantum slots quantum)
    have hnumbered := numbered_after slots quantum before (by omega)
    have hdistinct : (after before start).Distinct := hnumbered.unique
    have hgone : (after before start).Gone a.id := by
      intro k c hc hsame
      cases hdistinct.slot_eq hc ha hsame
      rw [ha] at hc
      cases hc
      exact hexited
    have hexit := gone_after before rest (by omega) (hnumbered.fresh (by omega) ha) hgone j b hb hid
    constructor
    · intro hstate
      rw [hstate] at hexit
      cases hexit
    · intro hstate
      rw [hstate] at hexit
      cases hexit

/-- Two tasks share the processor for three ticks. -/
theorem scheduler_runs_safely_two :
    let calls : List Call := [.spawn 1 .zero, .spawn 2 .zero, .schedule 0, .tick 1, .tick 2]
    let s := after calls (withQuantum 4 2)
    spawnsOf calls < 2 ^ 32 - 1 ∧ s.current = some 1 ∧ s.Running 1 ∧ 1 ≤ s.remainingTicks := by
  intro calls s
  have hsafe := scheduler_runs_safely 4 (show 1 ≤ 2 by decide) calls (by decide)
  have hcurrent : s.current = some 1 := by decide
  exact ⟨by decide, hcurrent, (hsafe.1 1).mp hcurrent,
    (hsafe.2.2.1 (hcurrent ▸ Option.some_ne_none 1)).1⟩

end Scheduler

end NexOs.Runtime
