import NexOs.Runtime.Scheduler

/-! The queue of waiting tasks: the occupied slots come first, the oldest task at the front. -/
namespace NexOs.Runtime
open List Bytes Exec

structure WaitQueue where
  waiters : List (Option TaskId)

namespace WaitQueue

def new (WAITERS : Nat) : WaitQueue := ⟨replicate WAITERS none⟩

def push (task : TaskId) : Exec WaitQueue SchedulerError Unit := do
  let self ← Exec.get
  let slot ← Exec.okOr (self.waiters.findIdx? Option.isNone) .full
  Exec.modify fun self => ⟨self.waiters.set slot (some task)⟩

/-- The body of the loop of `pop`. -/
def moveDown (waiters : List (Option TaskId)) (position : Nat) :
    Result SchedulerError (List (Option TaskId)) := do
  let next ← index waiters (position + 1)
  store waiters position next

def pop : Exec WaitQueue SchedulerError (Option TaskId) := do
  let self ← Exec.get
  match self.waiters.findIdx? Option.isSome with
  | none => pure none
  | some first => do
    let task ← Exec.lift (index self.waiters first)
    let last := self.waiters.length - 1
    let waiters ← Exec.lift ((range' first (last - first)).foldlM moveDown self.waiters)
    let waiters ← Exec.lift
      (if self.waiters.length ≠ 0 then store waiters last none else .ok waiters)
    Exec.modify fun _ => ⟨waiters⟩
    pure task

inductive Call where
  | push (task : TaskId)
  | pop

def perform : Call → Exec WaitQueue SchedulerError (Option TaskId)
  | .push task => do
    push task
    pure none
  | .pop => pop

/-- The same calls on a list of at most `WAITERS` tasks. -/
def fifo (WAITERS : Nat) : Call → List TaskId →
    Result SchedulerError (Option TaskId) × List TaskId
  | .push task, tasks =>
    if tasks.length = WAITERS then (Result.fail .full, tasks) else (.ok none, tasks ++ [task])
  | .pop, [] => (.ok none, [])
  | .pop, task :: tasks => (.ok (some task), tasks)

/-- What the calls of a run return, with the state after it. -/
def answers {σ β : Type} (step : Call → σ → β × σ) : List Call → σ → List β × σ
  | [], s => ([], s)
  | call :: calls, s =>
    let (reply, t) := step call s
    let (replies, u) := answers step calls t
    (reply :: replies, u)

def ofTasks (WAITERS : Nat) (tasks : List TaskId) : WaitQueue :=
  ⟨tasks.map some ++ replicate (WAITERS - tasks.length) none⟩

variable {tasks : List TaskId}

theorem ofTasks_eq (free : Nat) :
    ofTasks (tasks.length + free) tasks = ⟨tasks.map some ++ replicate free none⟩ := by
  rw [ofTasks, Nat.add_sub_cancel_left]

variable {rest : List (Option TaskId)}

theorem findIdx?_tasks :
    (tasks.map some ++ rest).findIdx? Option.isNone =
      (rest.findIdx? Option.isNone).map (· + tasks.length) := by
  have hnone : (tasks.map some).findIdx? Option.isNone = none := by
    simp [findIdx?_eq_none_iff]
  rw [findIdx?_append, hnone, length_map, Option.none_or]

variable {task : TaskId}

theorem push_full :
    push task ⟨tasks.map some ++ []⟩ = (Result.fail .full, ⟨tasks.map some ++ []⟩) := by
  rw [push, get_bind, findIdx?_tasks]
  rfl

theorem push_free :
    push task ⟨tasks.map some ++ none :: rest⟩ =
      (.ok (), ⟨(tasks ++ [task]).map some ++ rest⟩) := by
  have hset : (tasks.map some ++ none :: rest).set (0 + tasks.length) (some task) =
      (tasks ++ [task]).map some ++ rest := by
    simp
  rw [push, get_bind, findIdx?_tasks, ← hset]
  rfl

theorem moveDown_run (before : List (Option TaskId)) (slot : Option TaskId)
    (after : List (Option TaskId)) :
    ∃ left, (range' before.length after.length).foldlM moveDown (before ++ slot :: after) =
      .ok (before ++ (after ++ [left])) := by
  induction after generalizing before slot with
  | nil => exact ⟨slot, rfl⟩
  | cons next after ih =>
    obtain ⟨left, hleft⟩ := ih (before ++ [next]) next
    have hmove : moveDown (before ++ slot :: next :: after) before.length =
        .ok (before ++ [next] ++ next :: after) := by
      rw [moveDown, index_eq (a := next) (by simp), Result.bind_ok, store_eq (by simp)]
      simp
    refine ⟨left, ?_⟩
    rw [length_cons, range'_succ, foldlM_cons, hmove, Result.bind_ok]
    simpa using hleft

theorem pop_run : pop ⟨some task :: rest⟩ = (.ok (some task), ⟨rest ++ [none]⟩) := by
  have hfind : (some task :: rest).findIdx? Option.isSome = some 0 := by
    simp [findIdx?_cons]
  obtain ⟨left, hmoved⟩ := moveDown_run [] (some task) rest
  rw [nil_append, nil_append, length_nil] at hmoved
  have hset : (rest ++ [left]).set rest.length none = rest ++ [none] := by simp
  rw [pop, get_bind, hfind]
  dsimp only
  rw [index_eq rfl, lift_ok_bind, length_cons, Nat.add_sub_cancel, Nat.sub_zero, hmoved,
    lift_ok_bind, if_pos (Nat.succ_ne_zero _), store_eq (by simp), hset]
  rfl

theorem perform_run (hle : tasks.length ≤ WAITERS) (call : Call) :
    perform call (ofTasks WAITERS tasks) =
        ((fifo WAITERS call tasks).1, ofTasks WAITERS (fifo WAITERS call tasks).2) ∧
      (fifo WAITERS call tasks).2.length ≤ WAITERS := by
  obtain ⟨free, rfl⟩ := Nat.exists_eq_add_of_le hle
  cases call with
  | push task =>
    rw [fifo]
    cases free with
    | zero =>
      rw [if_pos (Nat.add_zero _).symm, ofTasks_eq]
      exact ⟨bind_of_error push_full, hle⟩
    | succ free =>
      have hlength : tasks.length + (free + 1) = (tasks ++ [task]).length + free := by
        rw [length_append, Nat.add_right_comm]
        rfl
      rw [if_neg (by omega), ofTasks_eq, hlength, ofTasks_eq]
      exact ⟨bind_of_ok push_free, Nat.le_add_right _ _⟩
  | pop =>
    cases tasks with
    | nil =>
      have hnone : (replicate free (none : Option TaskId)).findIdx? Option.isSome = none := by
        simp
      refine ⟨?_, hle⟩
      rw [fifo, ofTasks_eq, perform, pop, get_bind, map_nil, nil_append, hnone]
      rfl
    | cons task tasks =>
      have hlength : (task :: tasks).length + free = tasks.length + (free + 1) := by
        rw [length_cons, Nat.add_assoc, Nat.add_comm 1]
      refine ⟨?_, Nat.le_of_succ_le hle⟩
      rw [ofTasks_eq, perform, fifo, hlength, ofTasks_eq, map_cons, cons_append, pop_run,
        append_assoc, ← replicate_succ']

/-- Every run of calls answers as a list of at most `WAITERS` tasks does, and leaves the queue
that holds this list. -/
theorem waitQueue_is_fifo (WAITERS : Nat) (calls : List Call) :
    answers perform calls (new WAITERS) =
        ((answers (fifo WAITERS) calls []).1,
          ofTasks WAITERS (answers (fifo WAITERS) calls []).2) ∧
      (answers (fifo WAITERS) calls []).2.length ≤ WAITERS := by
  have hstart : ([] : List TaskId).length ≤ WAITERS := Nat.zero_le WAITERS
  change answers perform calls (ofTasks WAITERS []) = _ ∧ _
  generalize ([] : List TaskId) = tasks at hstart
  induction calls generalizing tasks with
  | nil => exact ⟨rfl, hstart⟩
  | cons call calls ih =>
    obtain ⟨hrun, hnext⟩ := perform_run hstart call
    obtain ⟨hreplies, hlength⟩ := ih _ hnext
    refine ⟨?_, hlength⟩
    simp only [answers, hrun, hreplies]

end WaitQueue

end NexOs.Runtime
