import NexOs.Lib.Bytes

/-! The round-robin scheduler of the runtime crate, on a table of task slots. -/
namespace NexOs.Runtime
open Bytes

structure TaskId where
  value : Nat
  deriving DecidableEq

inductive TaskState where
  | ready
  | running
  | sleeping (wakeTick : Nat)
  | blocked
  | exited (status : Int)
  deriving DecidableEq

structure CpuContext where
  r15 : Nat
  r14 : Nat
  r13 : Nat
  r12 : Nat
  rbx : Nat
  rbp : Nat
  instructionPointer : Nat
  stackPointer : Nat
  flags : Nat
  addressSpace : Nat
  deriving DecidableEq

/-- `CpuContext::default()` -/
def CpuContext.zero : CpuContext := ⟨0, 0, 0, 0, 0, 0, 0, 0, 0, 0⟩

structure Task where
  id : TaskId
  processId : Nat
  state : TaskState
  context : CpuContext
  deriving DecidableEq

inductive SchedulerError where
  | full
  | noCurrentTask
  | taskNotFound
  | invalidQuantum
  deriving DecidableEq

inductive ScheduleDecision where
  | continues (task : TaskId)
  | switch (previous : Option TaskId) (next : TaskId)
  | idle
  deriving DecidableEq

/-- The number of slots is the length of the table, which never changes. -/
structure Scheduler where
  tasks : List (Option Task)
  nextId : Nat
  current : Option Nat
  quantumTicks : Nat
  remainingTicks : Nat
  contextSwitches : Nat
  deriving DecidableEq

def TaskState.isExited : TaskState → Bool
  | .exited _ => true
  | _ => false

/-- `matches!(state, Blocked | Sleeping { .. })` -/
def TaskState.isWaiting : TaskState → Bool
  | .blocked => true
  | .sleeping _ => true
  | _ => false

/-- `matches!(state, Sleeping { wake_tick } if wake_tick <= now)` -/
def TaskState.isDue (now : Nat) : TaskState → Bool
  | .sleeping wakeTick => wakeTick ≤ now
  | _ => false

namespace Scheduler

def withQuantum (slots quantumTicks : Nat) : Scheduler where
  tasks := List.replicate slots none
  nextId := 1
  current := none
  quantumTicks := quantumTicks
  remainingTicks := quantumTicks
  contextSwitches := 0

def new (slots quantumTicks : Nat) : Result SchedulerError Scheduler := do
  Result.ensure (quantumTicks ≠ 0) .invalidQuantum
  .ok (withQuantum slots quantumTicks)

def slot (s : Scheduler) (i : Nat) : Option Task := (s.tasks[i]?).join

def setSlot (s : Scheduler) (i : Nat) (task : Option Task) : Scheduler :=
  { s with tasks := s.tasks.set i task }

/-- `task.state = state` for the task in a slot. -/
def setState (s : Scheduler) (i : Nat) (state : TaskState) : Scheduler :=
  s.setSlot i ((s.slot i).map fun task => { task with state := state })

def position (s : Scheduler) (id : TaskId) : Option Nat :=
  s.tasks.findIdx? fun slot => slot.any fun task => task.id = id

/-- The body of the loop of `wake_sleepers`. -/
def wakeTask (now : Nat) (task : Task) : Task :=
  if task.state.isDue now then { task with state := .ready } else task

def wakeSleepers (now : Nat) (s : Scheduler) : Scheduler :=
  { s with tasks := s.tasks.map (Option.map (wakeTask now)) }

def findReadyFrom (s : Scheduler) (start : Nat) : Option Nat :=
  if s.tasks.length = 0 then
    none
  else
    ((List.range s.tasks.length).map fun offset => (start + offset) % s.tasks.length).find?
      fun i => (s.slot i).any fun task => task.state = .ready

/-- The task in the current slot; a slot outside of the table is a panic. -/
def currentTask (s : Scheduler) : Result SchedulerError (Option Task) :=
  match s.current with
  | none => .ok none
  | some i => index s.tasks i

def preempt (s : Scheduler) : Scheduler :=
  match s.current with
  | none => s
  | some i => if (s.slot i).any (fun task => task.state = .running) then s.setState i .ready else s

def spawn (processId : Nat) (context : CpuContext) : Exec Scheduler SchedulerError TaskId := do
  let s ← Exec.get
  let slot ← Exec.okOr (s.tasks.findIdx? Option.isNone) .full
  let id : TaskId := ⟨s.nextId⟩
  Exec.modify fun s => { s with nextId := (checkedAddU32 s.nextId 1).getD 1 }
  Exec.modify fun s => s.setSlot slot (some ⟨id, processId, .ready, context⟩)
  pure id

def schedule (now : Nat) : Exec Scheduler SchedulerError ScheduleDecision := do
  Exec.modify (wakeSleepers now)
  let s ← Exec.get
  let previous ← Exec.lift s.currentTask
  Exec.modify preempt
  let s ← Exec.get
  let start := s.current.elim 0 fun i => (i + 1) % max s.tasks.length 1
  match s.findReadyFrom start with
  | none => do
    Exec.modify fun s => { s with current := none }
    pure .idle
  | some next => do
    let task ← Exec.lift (match s.slot next with
      | some task => .ok task
      | none => .error .panic)
    Exec.modify fun s => { s.setState next .running with
      current := some next, remainingTicks := s.quantumTicks }
    if previous.map Task.id = some task.id then
      pure (.continues task.id)
    else do
      Exec.modify fun s => { s with contextSwitches := saturatingAdd s.contextSwitches 1 }
      pure (.switch (previous.map Task.id) task.id)

def tick (now : Nat) : Exec Scheduler SchedulerError ScheduleDecision := do
  Exec.modify (wakeSleepers now)
  let s ← Exec.get
  match s.current with
  | none => schedule now
  | some current => do
    match ← Exec.lift (index s.tasks current) with
    | none => do
      Exec.modify fun s => { s with current := none }
      schedule now
    | some task =>
      if task.state ≠ .running then
        schedule now
      else do
        Exec.modify fun s => { s with remainingTicks := s.remainingTicks - 1 }
        let s ← Exec.get
        if s.remainingTicks = 0 then schedule now else pure (.continues task.id)

/-- `sleep_current`, `block_current` and `exit_current`: the current task gives up the
processor in another state. -/
def stopCurrent (state : TaskState) : Exec Scheduler SchedulerError TaskId := do
  let s ← Exec.get
  let i ← Exec.okOr s.current .noCurrentTask
  let slot ← Exec.lift (index s.tasks i)
  let task ← Exec.okOr slot .noCurrentTask
  Exec.modify fun s => { s.setState i state with current := none }
  pure task.id

def sleepCurrent (wakeTick : Nat) : Exec Scheduler SchedulerError TaskId :=
  stopCurrent (.sleeping wakeTick)

def blockCurrent : Exec Scheduler SchedulerError TaskId := stopCurrent .blocked

def exitCurrent (status : Int) : Exec Scheduler SchedulerError TaskId :=
  stopCurrent (.exited status)

def wake (id : TaskId) : Exec Scheduler SchedulerError Unit := do
  let s ← Exec.get
  let i ← Exec.okOr (s.position id) .taskNotFound
  if (s.slot i).any (fun task => task.state.isWaiting) then
    Exec.modify fun s => s.setState i .ready
  else
    pure ()

def exitTask (id : TaskId) (status : Int) : Exec Scheduler SchedulerError Unit := do
  let s ← Exec.get
  let i ← Exec.okOr (s.position id) .taskNotFound
  Exec.modify fun s => s.setState i (.exited status)
  let s ← Exec.get
  let current ← Exec.lift s.currentTask
  if current.any (fun task => task.id = id) then
    Exec.modify fun s => { s with current := none }
  else
    pure ()

def reap (id : TaskId) : Exec Scheduler SchedulerError Task := do
  let s ← Exec.get
  let i ← Exec.okOr (s.position id) .taskNotFound
  let task ← Exec.okOr (s.slot i) .taskNotFound
  Exec.ensure (task.state.isExited = true) .taskNotFound
  Exec.modify fun s => s.setSlot i none
  pure task

/-! ## Calls -/

inductive Call where
  | spawn (processId : Nat) (context : CpuContext)
  | schedule (now : Nat)
  | tick (now : Nat)
  | sleepCurrent (wakeTick : Nat)
  | blockCurrent
  | wake (id : TaskId)
  | exitCurrent (status : Int)
  | exitTask (id : TaskId) (status : Int)
  | reap (id : TaskId)
  deriving DecidableEq

inductive Reply where
  | id (task : TaskId)
  | decision (decision : ScheduleDecision)
  | unit
  | task (task : Task)
  deriving DecidableEq

def perform : Call → Exec Scheduler SchedulerError Reply
  | .spawn processId context => return .id (← spawn processId context)
  | .schedule now => return .decision (← schedule now)
  | .tick now => return .decision (← tick now)
  | .sleepCurrent wakeTick => return .id (← sleepCurrent wakeTick)
  | .blockCurrent => return .id (← blockCurrent)
  | .wake id => do wake id; return .unit
  | .exitCurrent status => return .id (← exitCurrent status)
  | .exitTask id status => do exitTask id status; return .unit
  | .reap id => return .task (← reap id)

def after (calls : List Call) (s : Scheduler) : Scheduler :=
  calls.foldl (fun s call => (perform call s).2) s

end Scheduler

end NexOs.Runtime
