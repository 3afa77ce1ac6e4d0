import NexOs.Runtime.Identifiers

/-! The runtime of the kernel: the process table and the scheduler as one state, with the calls
that create and finish user processes. -/
namespace NexOs.Kernel.Runtime
open List NexOs.Runtime Exec

def maxProcesses : Nat := 16
def maxHandles : Nat := 16
def maxTasks : Nat := 32
def quantumTicks : Nat := 5

structure State where
  processes : ProcessTable maxHandles
  scheduler : Scheduler
  initialized : Bool
  rescheduleDecisions : Nat

def boot : State where
  processes := .new maxProcesses maxHandles
  scheduler := .withQuantum maxTasks quantumTicks
  initialized := false
  rescheduleDecisions := 0

structure UserProcess where
  process : ProcessId
  task : TaskId
  deriving DecidableEq

/-- The functions of the runtime return no error of their own. -/
abbrev RuntimeM := Exec State Empty

def onProcesses {α : Type} (x : Exec (ProcessTable maxHandles) Abi.Error α) :
    RuntimeM (Except Abi.Error α) :=
  Exec.outcome (Exec.zoom State.processes (fun t k => { k with processes := t }) x)

def onScheduler {α : Type} (x : Exec Scheduler SchedulerError α) :
    RuntimeM (Except SchedulerError α) :=
  Exec.outcome (Exec.zoom State.scheduler (fun s k => { k with scheduler := s }) x)

def startContext (addressSpace entryPoint stackPointer : Nat) : CpuContext :=
  { CpuContext.zero with
    instructionPointer := entryPoint
    stackPointer := stackPointer
    addressSpace := addressSpace
    flags := 0x202 }

def init (addressSpace kernelEntry kernelStack : Nat) : RuntimeM Bool := do
  let k ← Exec.get
  if k.initialized then
    pure true
  else do
    match ← onProcesses (ProcessTable.create none addressSpace kernelEntry kernelStack) with
    | .error _ => pure false
    | .ok kernelProcess => do
      let _ ← onProcesses (ProcessTable.setState kernelProcess .running)
      match ← onScheduler (Scheduler.spawn kernelProcess.value
        (startContext addressSpace kernelEntry kernelStack)) with
      | .error _ => pure false
      | .ok _ => do
        let _ ← onScheduler (Scheduler.schedule 0)
        Exec.modify fun k => { k with initialized := true }
        pure true

def onTimerTick (now : Nat) : RuntimeM Unit := do
  let k ← Exec.get
  if k.initialized then do
    let before := k.scheduler.contextSwitches
    let _ ← onScheduler (Scheduler.tick now)
    let k ← Exec.get
    if k.scheduler.contextSwitches ≠ before then
      Exec.modify fun k => { k with rescheduleDecisions := (k.rescheduleDecisions + 1) % 2 ^ 64 }
    else
      pure ()
  else
    pure ()

def createUserProcess (addressSpace entryPoint stackPointer : Nat) :
    RuntimeM (Option UserProcess) := do
  let k ← Exec.get
  if k.initialized then do
    match ← onProcesses (ProcessTable.create none addressSpace entryPoint stackPointer) with
    | .error _ => pure none
    | .ok process => do
      match ← onScheduler (Scheduler.spawn process.value
        (startContext addressSpace entryPoint stackPointer)) with
      | .error _ => pure none
      | .ok task => pure (some ⟨process, task⟩)
  else
    pure none

def finishUserProcess (process : UserProcess) (status : Int) : RuntimeM Bool := do
  let k ← Exec.get
  if k.initialized then do
    match ← onProcesses (ProcessTable.exit process.process status) with
    | .error _ => pure false
    | .ok _ => do
      match ← onScheduler (Scheduler.exitTask process.task status) with
      | .error _ => pure false
      | .ok _ => pure true
  else
    pure false

/-! ## Calls -/

inductive Call where
  | createUserProcess (addressSpace entryPoint stackPointer : Nat)
  | finishUserProcess (process : UserProcess) (status : Int)
  | onTimerTick (now : Nat)
  deriving DecidableEq

inductive Reply where
  | created (process : Option UserProcess)
  | finished (done : Bool)
  | unit
  deriving DecidableEq

def perform : Call → RuntimeM Reply
  | .createUserProcess addressSpace entryPoint stackPointer =>
    return .created (← createUserProcess addressSpace entryPoint stackPointer)
  | .finishUserProcess process status => return .finished (← finishUserProcess process status)
  | .onTimerTick now => do onTimerTick now; return .unit

def after (calls : List Call) (k : State) : State :=
  calls.foldl (fun k call => (perform call k).2) k

/-! ## Slots in use -/

section
variable {α : Type} {k : State} {a : α} {x : Exec (ProcessTable maxHandles) Abi.Error α}
  {y : Exec Scheduler SchedulerError α} {t : ProcessTable maxHandles} {s : Scheduler}

theorem onProcesses_of_ok (h : x k.processes = (.ok a, t)) :
    onProcesses x k = (.ok (.ok a), { k with processes := t }) := by
  apply outcome_of_ok
  rw [zoom, h]

theorem onProcesses_of_error (h : x k.processes = (.error (.error e), t)) :
    onProcesses x k = (.ok (.error e), { k with processes := t }) := by
  apply outcome_of_error
  rw [zoom, h]

theorem onScheduler_of_ok (h : y k.scheduler = (.ok a, s)) :
    onScheduler y k = (.ok (.ok a), { k with scheduler := s }) := by
  apply outcome_of_ok
  rw [zoom, h]

theorem onScheduler_of_error (h : y k.scheduler = (.error (.error e), s)) :
    onScheduler y k = (.ok (.error e), { k with scheduler := s }) := by
  apply outcome_of_error
  rw [zoom, h]

end

structure Holds (count : Nat) (k : State) : Prop where
  initialized : k.initialized = true
  processSlots : k.processes.processes.length = maxProcesses
  taskSlots : k.scheduler.tasks.length = maxTasks
  processes : Slots.occupied k.processes.processes = count
  tasks : Slots.occupied k.scheduler.tasks = count
  runs : k.scheduler.CurrentRuns

variable {count addressSpace : Nat} {k : State} {calls : List Call}

theorem Holds.scheduled (h : Holds count k) (hr : k.scheduler.Retains s)
    (hruns : s.CurrentRuns) : Holds count { k with scheduler := s } :=
  ⟨h.initialized, h.processSlots, hr.length.trans h.taskSlots, h.processes,
    hr.occupied.trans h.tasks, hruns⟩

theorem Holds.tick (h : Holds count k) (now : Nat) :
    ∃ k', onTimerTick now k = (.ok (), k') ∧ Holds count k' := by
  obtain ⟨decision, s, htick, hdecides⟩ := h.runs.tick_decides now
  have hlater := h.scheduled hdecides.retains hdecides.runs
  unfold onTimerTick
  rw [get_bind, if_pos h.initialized, bind_of_ok (onScheduler_of_ok htick), get_bind]
  split
  · exact ⟨_, rfl, ⟨hlater.initialized, hlater.processSlots, hlater.taskSlots, hlater.processes,
      hlater.tasks, hlater.runs⟩⟩
  · exact ⟨_, rfl, hlater⟩

theorem Holds.finish (h : Holds count k) (process : UserProcess) (status : Int) :
    ∃ done k', finishUserProcess process status k = (.ok done, k') ∧ Holds count k' := by
  unfold finishUserProcess
  rw [get_bind, if_pos h.initialized]
  rcases ProcessTable.exit_run status with hrun | ⟨i, _, hrun⟩
  · rw [bind_of_ok (onProcesses_of_error hrun)]
    exact ⟨_, _, rfl, h⟩
  · rw [bind_of_ok (onProcesses_of_ok hrun)]
    dsimp only
    have hexited : Holds count
        { k with processes := k.processes.update i (ProcessTable.finished status) } :=
      ⟨h.initialized, Slots.length_update.trans h.processSlots, h.taskSlots,
        Slots.occupied_update.trans h.processes, h.tasks, h.runs⟩
    rcases hexited.runs.exitTask_run with hrun | ⟨j, task, hslot, hid, hrun⟩
    · rw [bind_of_ok (onScheduler_of_error hrun)]
      exact ⟨_, _, rfl, hexited⟩
    · have hretains : k.scheduler.Retains (k.scheduler.setState j (.exited status)) :=
        Scheduler.retains_setState fun _ _ _ => rfl
      rw [bind_of_ok (onScheduler_of_ok hrun)]
      exact ⟨_, _, rfl, hexited.scheduled (hretains.congr rfl rfl rfl)
        ((hexited.runs.exitTask_leaves hslot hid).runs hexited.runs)⟩

theorem spawn_free (k : State) (hfree : Slots.occupied k.scheduler.tasks < k.scheduler.tasks.length)
    (hruns : k.scheduler.CurrentRuns) (processId : Nat) (context : CpuContext) :
    ∃ task s, onScheduler (Scheduler.spawn processId context) k =
        (.ok (.ok task), { k with scheduler := s }) ∧
      s.tasks.length = k.scheduler.tasks.length ∧
      Slots.occupied s.tasks = Slots.occupied k.scheduler.tasks + 1 ∧ s.CurrentRuns := by
  have hlater := (hruns.performed (.spawn processId context)).runs hruns
  rcases Scheduler.spawn_run processId context with ⟨hfull, _⟩ | ⟨i, hi, hempty, hrun⟩
  · have hsame := Slots.firstFree_eq_none_iff.mp hfull
    rw [hsame] at hfree
    exact absurd hfree (Nat.lt_irrefl _)
  · rw [Scheduler.perform, bind_of_ok hrun] at hlater
    exact ⟨_, _, onScheduler_of_ok hrun, length_set, Slots.occupied_insert hi hempty _, hlater⟩

theorem Holds.create (h : Holds count k)
    (hargs : entryPoint ≠ 0 ∧ stackPointer ≠ 0) :
    (count = maxProcesses ∧
      createUserProcess addressSpace entryPoint stackPointer k = (.ok none, k)) ∨
    count < maxProcesses ∧ ∃ process k',
      createUserProcess addressSpace entryPoint stackPointer k = (.ok (some process), k') ∧
        Holds (count + 1) k' := by
  unfold createUserProcess
  rw [get_bind, if_pos h.initialized]
  rcases ProcessTable.create_orphan_run hargs with ⟨hfull, hrun⟩ | ⟨i, hfree, hrun⟩
  · rw [bind_of_ok (onProcesses_of_error hrun)]
    refine .inl ⟨?_, rfl⟩
    rw [Slots.firstFree_eq_none_iff, h.processes, h.processSlots] at hfull
    exact hfull
  · obtain ⟨hlt, hnone, _⟩ := Slots.firstFree_eq_some hfree
    have hcount : count < maxProcesses := by
      have hle := Slots.occupied_le k.processes.processes
      have hfull := mt Slots.firstFree_eq_none_iff.mpr (hfree ▸ Option.some_ne_none i)
      rw [h.processes, h.processSlots] at hle hfull
      exact Nat.lt_of_le_of_ne hle hfull
    rw [bind_of_ok (onProcesses_of_ok hrun)]
    dsimp only
    refine .inr ⟨hcount, ?_⟩
    have htasks : Slots.occupied k.scheduler.tasks < k.scheduler.tasks.length := by
      rw [h.tasks, h.taskSlots]
      exact Nat.lt_trans hcount (by decide)
    obtain ⟨task, s, hspawn, hlength, hoccupied, hruns⟩ := spawn_free
      { k with processes := k.processes.inserted i (ProcessTable.created maxHandles
        ⟨k.processes.nextId⟩ none addressSpace entryPoint stackPointer) } htasks h.runs
      k.processes.nextId (startContext addressSpace entryPoint stackPointer)
    rw [bind_of_ok hspawn]
    refine ⟨_, _, rfl, h.initialized, ?_, ?_, ?_, ?_, hruns⟩
    · exact length_set.trans h.processSlots
    · exact hlength.trans h.taskSlots
    · exact (Slots.occupied_insert hlt hnone _).trans (congrArg (· + 1) h.processes)
    · exact hoccupied.trans (congrArg (· + 1) h.tasks)

theorem setState_slots (id : ProcessId) (state : ProcessState) :
    ∃ r t, onProcesses (ProcessTable.setState id state) k = (.ok r, { k with processes := t }) ∧
      t.processes.length = k.processes.processes.length ∧
      Slots.occupied t.processes = Slots.occupied k.processes.processes := by
  rcases ProcessTable.setState_run state with hrun | ⟨i, _, hrun⟩
  · exact ⟨_, _, onProcesses_of_error hrun, rfl, rfl⟩
  · exact ⟨_, _, onProcesses_of_ok hrun, Slots.length_update, Slots.occupied_update⟩

theorem init_holds
    (h : init addressSpace kernelEntry kernelStack boot = (.ok true, k)) : Holds 1 k := by
  have hboot : ¬boot.initialized = true := nofun
  unfold init at h
  rw [get_bind, if_neg hboot] at h
  rcases ProcessTable.create_run none addressSpace kernelEntry kernelStack with
    ⟨e, hrun⟩ | ⟨i, _, hfree, hrun⟩
  · rw [bind_of_ok (onProcesses_of_error hrun)] at h
    cases h
  obtain ⟨hlt, hnone, _⟩ := Slots.firstFree_eq_some hfree
  rw [bind_of_ok (onProcesses_of_ok hrun)] at h
  dsimp only at h
  obtain ⟨r, t, hstate, hslots, hprocesses⟩ := setState_slots
    ⟨boot.processes.nextId⟩ .running
  rw [bind_of_ok hstate] at h
  have hidle := Scheduler.runs_after maxTasks quantumTicks []
  have hroom : Slots.occupied boot.scheduler.tasks < boot.scheduler.tasks.length := by decide
  obtain ⟨task, s, hspawn, hlength, hoccupied, hruns⟩ := spawn_free { boot with processes := t }
    hroom hidle boot.processes.nextId (startContext addressSpace kernelEntry kernelStack)
  rw [bind_of_ok hspawn] at h
  dsimp only at h
  obtain ⟨decision, s', hschedule, hdecides, _⟩ := hruns.schedule_decides
  rw [bind_of_ok (onScheduler_of_ok hschedule)] at h
  cases h
  have hempty : Slots.occupied boot.processes.processes = 0 := Slots.occupied_replicate
  refine ⟨rfl, ?_, ?_, ?_, ?_, hdecides.runs⟩
  · exact hslots.trans length_set
  · exact hdecides.retains.length.trans hlength
  · exact hprocesses.trans ((Slots.occupied_insert hlt hnone _).trans (congrArg (· + 1) hempty))
  · exact hdecides.retains.occupied.trans hoccupied

/-! ## Runs -/

def Call.isCreation : Call → Bool
  | .createUserProcess .. => true
  | _ => false

def creations (calls : List Call) : Nat := calls.countP Call.isCreation

theorem creations_concat (call : Call) :
    creations (calls ++ [call]) = creations calls + if call.isCreation then 1 else 0 := by
  rw [creations, countP_append, countP_singleton]
  rfl

theorem after_concat (call : Call) :
    after (calls ++ [call]) k = (perform call (after calls k)).2 := by
  rw [after, foldl_append]
  rfl

def Call.Valid : Call → Prop
  | .createUserProcess _ entryPoint stackPointer => entryPoint ≠ 0 ∧ stackPointer ≠ 0
  | _ => True

/-- What a call does: a creation fails exactly when all slots are in use. -/
inductive Step (count : Nat) (k : State) : Call → Result Empty Reply → State → Prop where
  | full {addressSpace entryPoint stackPointer : Nat} (hcount : count = maxProcesses) :
      Step count k (.createUserProcess addressSpace entryPoint stackPointer)
        (.ok (.created none)) k
  | created {addressSpace entryPoint stackPointer : Nat} {process : UserProcess} {k' : State}
      (hcount : count < maxProcesses) (hlater : Holds (count + 1) k') :
      Step count k (.createUserProcess addressSpace entryPoint stackPointer)
        (.ok (.created (some process))) k'
  | finished {process : UserProcess} {status : Int} {done : Bool} {k' : State}
      (hlater : Holds count k') :
      Step count k (.finishUserProcess process status) (.ok (.finished done)) k'
  | ticked {now : Nat} {k' : State} (hlater : Holds count k') :
      Step count k (.onTimerTick now) (.ok .unit) k'

section
variable (h : Holds count k)
include h

variable {call : Call}

theorem Holds.step (hcall : call.Valid) :
    Step count k call (perform call k).1 (perform call k).2 := by
  cases call with
  | createUserProcess addressSpace entryPoint stackPointer =>
    rcases h.create hcall with ⟨hcount, hrun⟩ |
      ⟨hcount, process, k', hrun, hlater⟩
    · rw [perform, bind_of_ok hrun]
      exact .full hcount
    · rw [perform, bind_of_ok hrun]
      exact .created hcount hlater
  | finishUserProcess process status =>
    obtain ⟨done, k', hrun, hlater⟩ := h.finish process status
    rw [perform, bind_of_ok hrun]
    exact .finished hlater
  | onTimerTick now =>
    obtain ⟨k', hrun, hlater⟩ := h.tick now
    rw [perform, bind_of_ok hrun]
    exact .ticked hlater

theorem Holds.performed (hcall : call.Valid) :
    Holds (min (count + if call.isCreation then 1 else 0) maxProcesses) (perform call k).2 := by
  have hle : count ≤ maxProcesses := by
    rw [← h.processes, ← h.processSlots]
    exact Slots.occupied_le _
  have hstep := h.step hcall
  generalize (perform call k).1 = r at hstep
  generalize (perform call k).2 = k' at hstep
  cases hstep with
  | full hcount =>
    rw [Nat.min_eq_right (Nat.le_add_right_of_le hcount.ge), ← hcount]
    exact h
  | created hcount hlater =>
    rw [Call.isCreation, if_pos rfl, Nat.min_eq_left hcount]
    exact hlater
  | finished hlater =>
    change Holds (min count maxProcesses) _
    rwa [Nat.min_eq_left hle]
  | ticked hlater =>
    change Holds (min count maxProcesses) _
    rwa [Nat.min_eq_left hle]

theorem Holds.after (calls : List Call) (hcalls : ∀ call ∈ calls, call.Valid) :
    Holds (min (count + creations calls) maxProcesses) (after calls k) := by
  induction calls using reverseRecOn with
  | nil =>
    have hle : count ≤ maxProcesses := by
      rw [← h.processes, ← h.processSlots]
      exact Slots.occupied_le _
    rwa [creations, countP_nil, Nat.add_zero, Nat.min_eq_left hle]
  | append_singleton calls call ih =>
    rw [forall_mem_append, forall_mem_singleton] at hcalls
    have hlater := (ih hcalls.1).performed hcalls.2
    have hmin : ∀ n, min (min (count + creations calls) maxProcesses + n) maxProcesses =
        min (count + (creations calls + n)) maxProcesses := by omega
    rw [hmin] at hlater
    rwa [after_concat, creations_concat]

def Fails (k : State) (call : Call) : Prop :=
  call.isCreation = true ∧ ∀ process, (perform call k).1 ≠ .ok (.created (some process))

theorem Holds.fails_iff (hcall : call.Valid) :
    Fails k call ↔ call.isCreation = true ∧ count = maxProcesses := by
  refine and_congr_right fun hcreation => ?_
  have hstep := h.step hcall
  generalize (perform call k).1 = r at hstep
  generalize (perform call k).2 = k' at hstep
  cases hstep with
  | full hcount => exact iff_of_true nofun hcount
  | created hcount hlater => exact iff_of_false (fun hnot => hnot _ rfl) (Nat.ne_of_lt hcount)
  | finished => cases hcreation
  | ticked => cases hcreation

theorem Holds.unchanged_of_fails (hcall : call.Valid) (hfails : Fails k call) :
    (perform call k).2 = k := by
  obtain ⟨hcreation, hnot⟩ := hfails
  have hstep := h.step hcall
  generalize (perform call k).1 = r at hstep hnot
  generalize (perform call k).2 = k' at hstep
  cases hstep with
  | full => rfl
  | created => exact absurd rfl (hnot _)
  | finished => cases hcreation
  | ticked => cases hcreation

end

/-- After `init` every creation succeeds exactly as long as the run has at most 15 of them: the
slots of finished processes are not used again. A creation that fails changes nothing. -/
theorem user_processes_created_iff {addressSpace kernelEntry kernelStack : Nat}
    (hinit : init addressSpace kernelEntry kernelStack boot = (.ok true, k)) (calls : List Call)
    (hcalls : ∀ call ∈ calls, call.Valid) :
    (Runs.Never (fun before => Fails (after before k)) calls ↔ creations calls ≤ 15) ∧
    ∀ before call rest, calls = before ++ call :: rest → Fails (after before k) call →
      (perform call (after before k)).2 = after before k := by
  have hstart := init_holds hinit
  constructor
  · induction calls using reverseRecOn with
    | nil => exact iff_of_true (Runs.never_nil _) (Nat.zero_le _)
    | append_singleton calls call ih =>
      rw [forall_mem_append, forall_mem_singleton] at hcalls
      have hbefore := hstart.after calls hcalls.1
      rw [Runs.never_concat, ih hcalls.1, hbefore.fails_iff hcalls.2, creations_concat]
      cases call.isCreation with
      | true =>
        simp only [if_true, true_and, maxProcesses]
        omega
      | false => simp
  · rintro before call rest rfl
    rw [forall_mem_append, forall_mem_cons] at hcalls
    exact (hstart.after before hcalls.1).unchanged_of_fails hcalls.2.1

/-- The kernel starts and one user process is created and finished. -/
theorem user_processes_created_iff_one :
    let k := (init 1 1 1 boot).2
    let calls : List Call := [.createUserProcess 2 3 4, .onTimerTick 1,
      .finishUserProcess ⟨⟨2⟩, ⟨2⟩⟩ 0]
    init 1 1 1 boot = (.ok true, k) ∧ (∀ call ∈ calls, call.Valid) ∧
      Runs.Never (fun before => Fails (after before k)) calls := by
  intro k calls
  have hinit : init 1 1 1 boot = (.ok true, k) := rfl
  have hvalid : ∀ call ∈ calls, call.Valid := by simp [calls, Call.Valid]
  exact ⟨hinit, hvalid, (user_processes_created_iff hinit calls hvalid).1.mpr (by decide)⟩

def fifteenRounds : List Call := (List.range 15).flatMap fun n =>
  [.createUserProcess 2 3 4, .finishUserProcess ⟨⟨n + 2⟩, ⟨n + 2⟩⟩ 0]

/-- Every finish succeeds, so that no user process is left, and still the next creation fails. -/
theorem finished_slots_not_reused : let k := (init 1 1 1 boot).2
    init 1 1 1 boot = (.ok true, k) ∧
      Runs.emitted (fun k call => (perform call k).2) (fun k call => (perform call k).1.toOption)
        (fifteenRounds ++ [.createUserProcess 2 3 4]) k =
      ((range 15).flatMap fun n =>
        [.created (some ⟨⟨n + 2⟩, ⟨n + 2⟩⟩), .finished true]) ++ [.created none] := by
  exact ⟨rfl, by decide +kernel⟩

end NexOs.Kernel.Runtime
