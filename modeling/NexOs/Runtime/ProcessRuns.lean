import NexOs.Lib.Hoare
import NexOs.Lib.Runs
import NexOs.Runtime.Process

/-! What the calls of the process table do, and what holds in every run. -/
namespace NexOs.Runtime.ProcessTable
open List Bytes Exec

variable {HANDLES : Nat} {t u : ProcessTable HANDLES} {i j d : Nat} {p q : Process}
  {id parent child : ProcessId} {h : Handle} {call : Call} {f : Process → Process}
  {r : Result Abi.Error Reply} {calls : List Call} {α : Type}

/-! ## Slots -/

theorem slot_setSlot (hi : i < t.processes.length) (process : Option Process) :
    (t.setSlot i process).slot j = if j = i then process else t.slot j :=
  Slots.value_set hi process

theorem slot_setSlot_none : (t.setSlot i none).slot j = if j = i then none else t.slot j :=
  Slots.value_set_none

theorem slot_update : (t.update i f).slot j = if j = i then (t.slot j).map f else t.slot j :=
  Slots.value_update

theorem update_update (g : Process → Process) : (t.update i f).update i g = t.update i (g ∘ f) := by
  rw [update, update, update, Slots.update_update]

theorem position_eq_some (hi : t.position id = some i) : ∃ p, t.slot i = some p ∧ p.id = id := by
  obtain ⟨p, hp, hid⟩ := Slots.firstWhere_eq_some hi
  exact ⟨p, hp, of_decide_eq_true hid⟩

theorem positionOfChild_eq_some (hi : t.positionOfChild parent child = some i) :
    ∃ p, t.slot i = some p ∧ p.id = child ∧ p.parent = some parent := by
  obtain ⟨p, hp, hboth⟩ := Slots.firstWhere_eq_some hi
  rw [Bool.and_eq_true] at hboth
  exact ⟨p, hp, of_decide_eq_true hboth.1, of_decide_eq_true hboth.2⟩

theorem get_eq : t.get id = (t.position id).bind t.slot :=
  Slots.find?_reduceOption

def Present (t : ProcessTable HANDLES) (id : ProcessId) : Prop :=
  ∃ i p, t.slot i = some p ∧ p.id = id

theorem isSome_get : (t.get id).isSome = true ↔ t.Present id := by
  rw [get_eq]
  constructor
  · intro hsome
    cases hposition : t.position id with
    | none =>
      rw [hposition] at hsome
      cases hsome
    | some i => exact ⟨i, position_eq_some hposition⟩
  · rintro ⟨i, p, hp, rfl⟩
    cases hposition : t.position p.id with
    | none =>
      have hmiss := Slots.firstWhere_eq_none hposition hp
      rw [decide_eq_true rfl] at hmiss
      cases hmiss
    | some j =>
      obtain ⟨q, hq, _⟩ := position_eq_some hposition
      rw [Option.bind_some, hq]
      rfl

/-! ## One call -/

def inserted (t : ProcessTable HANDLES) (i : Nat) (process : Process) : ProcessTable HANDLES :=
  { t with nextId := (checkedAddU32 t.nextId 1).getD 1 }.setSlot i (some process)

theorem slot_inserted (hi : i < t.processes.length) (process : Process) :
    (t.inserted i process).slot j = if j = i then some process else t.slot j :=
  slot_setSlot (t := { t with nextId := _ }) hi (some process)

def finished (status : Int) (p : Process) : Process :=
  { p with state := .exited status, handles := p.handles.map fun _ => none }

/-- All that a call can do. A call that fails leaves the table as it was. -/
inductive Step (t : ProcessTable HANDLES) :
    Call → Result Abi.Error Reply → ProcessTable HANDLES → Prop where
  | refused (call : Call) (e : Abi.Error) : Step t call (.error (.error e)) t
  | create {parent : Option ProcessId} {i addressSpace entryPoint userStack : Nat}
      (hparent : ∀ id, parent = some id → t.Present id)
      (hi : Slots.firstFree t.processes = some i) :
      Step t (.create parent addressSpace entryPoint userStack) (.ok (.id ⟨t.nextId⟩))
        (t.inserted i (created HANDLES ⟨t.nextId⟩ parent addressSpace entryPoint userStack))
  | setState {id : ProcessId} {i : Nat} (state : ProcessState) (hi : t.position id = some i) :
      Step t (.setState id state) (.ok .unit) (t.update i fun p => { p with state := state })
  | setCurrentDirectory {id : ProcessId} {i : Nat} (path buffer : List UInt8)
      (hi : t.position id = some i) :
      Step t (.setCurrentDirectory id path) (.ok .unit)
        (t.update i fun p =>
          { p with currentDirectory := buffer, currentDirectoryLength := path.length })
  | allocateHandle {id : ProcessId} {i d : Nat} {p : Process} (h : Handle)
      (hi : t.position id = some i) (hp : t.slot i = some p)
      (hd : Slots.firstFree p.handles = some d) :
      Step t (.allocateHandle id h) (.ok (.descriptor d))
        (t.update i fun p => { p with handles := p.handles.set d (some h) })
  | closeHandle {id : ProcessId} {i d : Nat} {p : Process} {h : Handle}
      (hi : t.position id = some i) (hp : t.slot i = some p) (hd : p.handle d = some h) :
      Step t (.closeHandle id d) (.ok (.handle h))
        (t.update i fun p => { p with handles := p.handles.set d none })
  | exit {id : ProcessId} {i : Nat} (status : Int) (hi : t.position id = some i) :
      Step t (.exit id status) (.ok .unit) (t.update i (finished status))
  | reap {parent child : ProcessId} {i : Nat} {p : Process} {status : Int}
      (hi : t.positionOfChild parent child = some i) (hp : t.slot i = some p)
      (hstate : p.state = .exited status) :
      Step t (.reap parent child) (.ok (.status status)) (t.setSlot i none)

theorem create_run (parent : Option ProcessId) (addressSpace entryPoint userStack : Nat) :
    (∃ e, create parent addressSpace entryPoint userStack t = (.error (.error e), t)) ∨
    ∃ i, (∀ id, parent = some id → t.Present id) ∧ Slots.firstFree t.processes = some i ∧
      create parent addressSpace entryPoint userStack t = (.ok ⟨t.nextId⟩,
        t.inserted i (created HANDLES ⟨t.nextId⟩ parent addressSpace entryPoint userStack)) := by
  unfold create
  by_cases hzero : entryPoint = 0 ∨ userStack = 0
  · rw [ensure_bind_neg (not_not.mpr hzero)]
    exact .inl ⟨_, rfl⟩
  rw [ensure_bind_pos hzero, get_bind]
  by_cases hmissing : parent.any (fun id => (t.get id).isNone) = true
  · rw [ensure_bind_neg (not_not.mpr hmissing)]
    exact .inl ⟨_, rfl⟩
  rw [ensure_bind_pos hmissing]
  cases hfree : Slots.firstFree t.processes with
  | none => exact .inl ⟨_, rfl⟩
  | some i =>
    refine .inr ⟨i, ?_, rfl, rfl⟩
    rintro id rfl
    rw [Option.any_some, Bool.not_eq_true, Option.isNone_eq_false_iff] at hmissing
    exact isSome_get.mp hmissing

theorem create_orphan_run
    (hargs : entryPoint ≠ 0 ∧ userStack ≠ 0) :
    (Slots.firstFree t.processes = none ∧
      create none addressSpace entryPoint userStack t = (.error (.error .processLimit), t)) ∨
    ∃ i, Slots.firstFree t.processes = some i ∧
      create none addressSpace entryPoint userStack t = (.ok ⟨t.nextId⟩,
        t.inserted i (created HANDLES ⟨t.nextId⟩ none addressSpace entryPoint userStack)) := by
  have hzero : ¬(entryPoint = 0 ∨ userStack = 0) := not_or.mpr hargs
  unfold create
  rw [ensure_bind_pos hzero, get_bind]
  cases Slots.firstFree t.processes with
  | none => exact .inl ⟨rfl, rfl⟩
  | some i => exact .inr ⟨i, rfl, rfl⟩

theorem getMut_run (f : Nat → Exec (ProcessTable HANDLES) Abi.Error α) :
    (getMut id >>= f) t = (.error (.error .notFound), t) ∨
    ∃ i p, t.position id = some i ∧ t.slot i = some p ∧ (getMut id >>= f) t = f i t := by
  unfold getMut
  cases hposition : t.position id with
  | none =>
    refine .inl ?_
    apply bind_of_error
    rw [get_bind, hposition]
    rfl
  | some i =>
    obtain ⟨p, hp, _⟩ := position_eq_some hposition
    refine .inr ⟨i, p, rfl, hp, ?_⟩
    apply bind_of_ok
    rw [get_bind, hposition]
    rfl

theorem setState_run (state : ProcessState) :
    setState id state t = (.error (.error .notFound), t) ∨
    ∃ i, t.position id = some i ∧
      setState id state t = (.ok (), t.update i fun p => { p with state := state }) := by
  rcases getMut_run _ with hrun | ⟨i, _, hi, _, hrun⟩
  · exact .inl hrun
  · exact .inr ⟨i, hi, hrun⟩

theorem exit_run (status : Int) :
    exit id status t = (.error (.error .notFound), t) ∨
    ∃ i, t.position id = some i ∧ exit id status t = (.ok (), t.update i (finished status)) := by
  rcases getMut_run _ with hrun | ⟨i, _, hi, _, hrun⟩
  · exact .inl hrun
  · exact .inr ⟨i, hi, hrun⟩

theorem reap_run :
    (∃ e, reap parent child t = (.error (.error e), t)) ∨
    ∃ i p status, t.positionOfChild parent child = some i ∧ t.slot i = some p ∧
      p.state = .exited status ∧ reap parent child t = (.ok status, t.setSlot i none) := by
  unfold reap
  rw [get_bind]
  cases hi : t.positionOfChild parent child with
  | none => exact .inl ⟨_, rfl⟩
  | some i =>
    obtain ⟨p, hp, _⟩ := positionOfChild_eq_some hi
    rw [okOr_some, pure_bind_run, hp, okOr_some, pure_bind_run]
    cases hstate : p.state with
    | exited status => exact .inr ⟨i, p, status, rfl, hp, hstate, rfl⟩
    | ready => exact .inl ⟨_, rfl⟩
    | running => exact .inl ⟨_, rfl⟩
    | waiting child => exact .inl ⟨_, rfl⟩

theorem step_reply {x : Exec (ProcessTable HANDLES) Abi.Error α} {f : α → Reply}
    (hx : (∃ e, x t = (.error (.error e), t)) ∨
      ∃ a u, x t = (.ok a, u) ∧ Step t call (.ok (f a)) u) :
    Step t call ((x >>= fun a => pure (f a)) t).1 ((x >>= fun a => pure (f a)) t).2 := by
  rcases hx with ⟨e, hx⟩ | ⟨a, u, hx, hstep⟩
  · rw [bind_of_error hx]
    exact .refused call e
  · rw [bind_of_ok hx]
    exact hstep

theorem perform_step (call : Call) (t : ProcessTable HANDLES) :
    Step t call (perform call t).1 (perform call t).2 := by
  cases call with
  | create parent addressSpace entryPoint userStack =>
    apply step_reply
    rcases create_run parent addressSpace entryPoint userStack with ⟨e, hrun⟩ | ⟨i, hparent, hi, hrun⟩
    · exact .inl ⟨e, hrun⟩
    · exact .inr ⟨_, _, hrun, .create hparent hi⟩
  | setState id state =>
    apply step_reply
    rcases setState_run state with hrun | ⟨i, hi, hrun⟩
    · exact .inl ⟨_, hrun⟩
    · exact .inr ⟨_, _, hrun, .setState state hi⟩
  | setCurrentDirectory id path =>
    apply step_reply
    unfold setCurrentDirectory
    by_cases hpath : path = [] ∨ path.head? ≠ some 47 ∨
        currentDirectoryCapacity ≤ path.length ∨ 0 ∈ path
    · rw [ensure_bind_neg (not_not.mpr hpath)]
      exact .inl ⟨_, rfl⟩
    rw [ensure_bind_pos hpath]
    rcases getMut_run _ with hrun | ⟨i, p, hi, hp, hrun⟩
    · exact .inl ⟨_, hrun⟩
    · have hshort : path.length < 256 := by
        unfold currentDirectoryCapacity at hpath
        omega
      rw [hrun, modify_bind, ensure_bind_pos hshort]
      refine .inr ⟨(), _, rfl, ?_⟩
      dsimp only
      rw [update_update]
      exact .setCurrentDirectory path _ hi
  | allocateHandle id h =>
    apply step_reply
    rcases getMut_run _ with hrun | ⟨i, p, hi, hp, hrun⟩
    · exact .inl ⟨_, hrun⟩
    · unfold allocateHandle
      rw [hrun, get_bind, hp, Option.bind_some]
      cases hd : Slots.firstFree p.handles with
      | none => exact .inl ⟨_, rfl⟩
      | some d => exact .inr ⟨_, _, rfl, .allocateHandle h hi hp hd⟩
  | closeHandle id d =>
    apply step_reply
    rcases getMut_run _ with hrun | ⟨i, p, hi, hp, hrun⟩
    · exact .inl ⟨_, hrun⟩
    · unfold closeHandle
      rw [hrun, get_bind, hp, Option.bind_some]
      cases hd : p.handle d with
      | none => exact .inl ⟨_, rfl⟩
      | some h => exact .inr ⟨_, _, rfl, .closeHandle hi hp hd⟩
  | exit id status =>
    apply step_reply
    rcases exit_run status with hrun | ⟨i, hi, hrun⟩
    · exact .inl ⟨_, hrun⟩
    · exact .inr ⟨_, _, hrun, .exit status hi⟩
  | reap parent child =>
    apply step_reply
    rcases reap_run with ⟨e, hrun⟩ |
      ⟨i, p, status, hi, hp, hstate, hrun⟩
    · exact .inl ⟨e, hrun⟩
    · exact .inr ⟨_, _, hrun, .reap hi hp hstate⟩

def issued : Result Abi.Error Reply → Option Nat
  | .ok (.id id) => some id.value
  | _ => none

theorem keeps_update (hid : ∀ p, (f p).id = p.id) :
    Slots.Keeps (fun p => p.id.value) t.processes (t.update i f).processes := by
  apply Slots.keeps_update
  intro p
  rw [hid]

theorem Step.issue (hstep : Step t call r u) :
    Slots.Issue (fun n => (checkedAddU32 n 1).getD 1) (fun p => p.id.value) t.nextId t.processes
      (issued r) u.nextId u.processes := by
  cases hstep with
  | refused => exact .keep .refl
  | create hparent hi =>
    obtain ⟨hlt, hfree, _⟩ := Slots.firstFree_eq_some hi
    exact .insert hlt hfree rfl
  | setState => exact .keep (keeps_update fun _ => rfl)
  | setCurrentDirectory => exact .keep (keeps_update fun _ => rfl)
  | allocateHandle => exact .keep (keeps_update fun _ => rfl)
  | closeHandle => exact .keep (keeps_update fun _ => rfl)
  | exit => exact .keep (keeps_update fun _ => rfl)
  | reap => exact .keep Slots.keeps_set_none

theorem after_append (before rest : List Call) :
    after (before ++ rest) t = after rest (after before t) :=
  foldl_append

theorem after_concat : after (calls ++ [call]) t = (perform call (after calls t)).2 := by
  rw [after_append]
  rfl

/-! ## Numbers -/

def Distinct (t : ProcessTable HANDLES) : Prop := Slots.Unique (fun p => p.id.value) t.processes

theorem Distinct.slot_eq (hd : t.Distinct) (hp : t.slot i = some p) (hq : t.slot j = some q)
    (hid : p.id = q.id) : i = j :=
  hd i j p q hp hq (congrArg ProcessId.value hid)

def Reissues (t : ProcessTable HANDLES) (call : Call) : Prop :=
  ∃ i p, t.slot i = some p ∧ (perform call t).1 = .ok (.id p.id)

theorem issued_eq_some : issued r = some id.value ↔ r = .ok (.id id) := by
  constructor
  · intro hissued
    unfold issued at hissued
    split at hissued
    · rename_i other
      cases other
      cases hissued
      rfl
    · cases hissued
  · rintro rfl
    rfl

theorem Distinct.perform_iff (hd : t.Distinct) :
    (perform call t).2.Distinct ↔ ¬t.Reissues call := by
  rw [Distinct, (perform_step call t).issue.unique_iff hd, Reissues]
  simp only [not_exists, not_and]
  refine forall_congr' fun i => forall_congr' fun p => forall_congr' fun _ => ?_
  rw [Ne, issued_eq_some]

def creations (calls : List Call) (t : ProcessTable HANDLES) : Nat :=
  (Runs.emitted (fun t call => (perform call t).2) (fun t call => issued (perform call t).1)
    calls t).length

theorem creations_append (before rest : List Call) :
    creations (before ++ rest) t = creations before t + creations rest (after before t) := by
  rw [creations, Runs.emitted_append, length_append]
  rfl

theorem creations_concat :
    creations (calls ++ [call]) t =
      creations calls t + (issued (perform call (after calls t)).1).toList.length := by
  rw [creations, Runs.emitted_concat, length_append]
  rfl

/-- The processes are numbered in the order of their creation, and parents come first. -/
structure Numbered (count : Nat) (t : ProcessTable HANDLES) : Prop where
  numbered : Slots.Numbered (2 ^ 32 - 1) (fun p => p.id.value) count t.nextId t.processes
  older : ∀ i p parent, t.slot i = some p → p.parent = some parent → parent.value < p.id.value

theorem slot_new (PROCESSES HANDLES i : Nat) : (new PROCESSES HANDLES).slot i = none :=
  Slots.value_replicate i

theorem numbered_new (PROCESSES HANDLES : Nat) : (new PROCESSES HANDLES).Numbered 0 := by
  refine ⟨Slots.numbered_replicate _ _, ?_⟩
  intro i p parent hp
  rw [slot_new] at hp
  cases hp

section
variable {count : Nat}

theorem Numbered.distinct (hn : t.Numbered count) : t.Distinct := hn.numbered.unique

theorem older_update (hid : ∀ p, (f p).id = p.id) (hparent : ∀ p, (f p).parent = p.parent)
    (holder : ∀ i p parent, t.slot i = some p → p.parent = some parent →
      parent.value < p.id.value) (j : Nat) (q : Process) (parent : ProcessId)
    (hq : (t.update i f).slot j = some q) (hqparent : q.parent = some parent) :
    parent.value < q.id.value := by
  rw [slot_update] at hq
  split at hq
  · obtain ⟨p, hp, rfl⟩ := Option.map_eq_some_iff.mp hq
    rw [hid]
    rw [hparent] at hqparent
    exact holder j p parent hp hqparent
  · exact holder j q parent hq hqparent

theorem Numbered.step (hn : t.Numbered count) (hstep : Step t call r u)
    (hcount : count + (issued r).toList.length ≤ 2 ^ 32 - 1) :
    u.Numbered (count + (issued r).toList.length) := by
  constructor
  · apply hstep.issue.numbered hn.numbered hcount
    exact fun n hlt => checkedAddU32_getD hlt
  · cases hstep with
    | refused => exact hn.older
    | create hparent hi =>
      obtain ⟨hlt, hfree, _⟩ := Slots.firstFree_eq_some hi
      intro j q parent hq hqparent
      rw [slot_inserted hlt] at hq
      split at hq
      · cases hq
        obtain ⟨k, r, hr, rfl⟩ := hparent parent hqparent
        exact hn.numbered.fresh hcount hr
      · exact hn.older j q parent hq hqparent
    | setState => exact older_update (fun _ => rfl) (fun _ => rfl) hn.older
    | setCurrentDirectory => exact older_update (fun _ => rfl) (fun _ => rfl) hn.older
    | allocateHandle => exact older_update (fun _ => rfl) (fun _ => rfl) hn.older
    | closeHandle => exact older_update (fun _ => rfl) (fun _ => rfl) hn.older
    | exit => exact older_update (fun _ => rfl) (fun _ => rfl) hn.older
    | reap =>
      intro j q parent hq hqparent
      rw [slot_setSlot_none] at hq
      split at hq
      · cases hq
      · exact hn.older j q parent hq hqparent

theorem Numbered.after (hn : t.Numbered count) (calls : List Call)
    (hcount : count + creations calls t ≤ 2 ^ 32 - 1) :
    (after calls t).Numbered (count + creations calls t) := by
  induction calls using reverseRecOn with
  | nil => exact hn
  | append_singleton calls call ih =>
    rw [creations_concat, ← Nat.add_assoc] at hcount ⊢
    rw [after_concat]
    exact (ih (by omega)).step (perform_step call _) hcount

end

/-! ## Parents -/

def Parented (t : ProcessTable HANDLES) : Prop :=
  ∀ i p parent, t.slot i = some p → p.parent = some parent → t.Present parent

def Orphans (t : ProcessTable HANDLES) (call : Call) : Prop :=
  ∃ parent child status, call = .reap parent child ∧ (perform call t).1 = .ok (.status status) ∧
    ∃ i p, t.slot i = some p ∧ p.parent = some child

theorem Present.update (hid : ∀ p, (f p).id = p.id) (hpresent : t.Present id) :
    (t.update i f).Present id := by
  obtain ⟨j, p, hp, rfl⟩ := hpresent
  by_cases hj : j = i
  · refine ⟨j, f p, ?_, hid p⟩
    rw [slot_update, if_pos hj, hp]
    rfl
  · refine ⟨j, p, ?_, rfl⟩
    rw [slot_update, if_neg hj, hp]

section
variable (hparented : t.Parented)
include hparented

theorem Parented.update (hid : ∀ p, (f p).id = p.id) (hparent : ∀ p, (f p).parent = p.parent) :
    (t.update i f).Parented := by
  intro j q parent hq hqparent
  rw [slot_update] at hq
  split at hq
  · obtain ⟨p, hp, rfl⟩ := Option.map_eq_some_iff.mp hq
    rw [hparent] at hqparent
    exact (hparented j p parent hp hqparent).update hid
  · exact (hparented j q parent hq hqparent).update hid

theorem Parented.inserted (hlt : i < t.processes.length) (hfree : t.slot i = none)
    (hparent : ∀ id, p.parent = some id → t.Present id) : (t.inserted i p).Parented := by
  have hstays : ∀ id, t.Present id → (t.inserted i p).Present id := by
    rintro id ⟨j, q, hq, hid⟩
    refine ⟨j, q, ?_, hid⟩
    have hj : j ≠ i := by
      rintro rfl
      rw [hfree] at hq
      cases hq
    rw [slot_inserted hlt, if_neg hj, hq]
  intro j q parent hq hqparent
  rw [slot_inserted hlt] at hq
  split at hq
  · cases hq
    exact hstays parent (hparent parent hqparent)
  · exact hstays parent (hparented j q parent hq hqparent)

theorem Parented.removed_iff {count : Nat} (hn : t.Numbered count) (hp : t.slot i = some p) :
    (t.setSlot i none).Parented ↔ ∀ j q, t.slot j = some q → q.parent ≠ some p.id := by
  constructor
  · intro hlater j q hq hparent
    have hj : j ≠ i := by
      rintro rfl
      rw [hp] at hq
      cases hq
      exact Nat.lt_irrefl _ (hn.older j p p.id hp hparent)
    have hstill : (t.setSlot i none).slot j = some q := by
      rw [slot_setSlot_none, if_neg hj, hq]
    obtain ⟨k, r, hr, hid⟩ := hlater j q p.id hstill hparent
    rw [slot_setSlot_none] at hr
    split at hr
    · cases hr
    · rename_i hk
      exact hk (hn.distinct.slot_eq hr hp hid)
  · intro hchildless j q parent hq hparent
    rw [slot_setSlot_none] at hq
    split at hq
    · cases hq
    · obtain ⟨k, r, hr, rfl⟩ := hparented j q parent hq hparent
      refine ⟨k, r, ?_, rfl⟩
      have hk : k ≠ i := by
        rintro rfl
        rw [hp] at hr
        cases hr
        exact hchildless j q hq hparent
      rw [slot_setSlot_none, if_neg hk, hr]

theorem Parented.perform_iff {count : Nat} (hn : t.Numbered count) (call : Call) :
    (perform call t).2.Parented ↔ ¬t.Orphans call := by
  unfold Orphans
  have hstep := perform_step call t
  generalize (perform call t).1 = r at hstep ⊢
  generalize (perform call t).2 = u at hstep ⊢
  cases hstep with
  | refused => exact iff_of_true hparented (by rintro ⟨_, _, _, _, ⟨⟩, _⟩)
  | create hparent hi =>
    obtain ⟨hlt, hfree, _⟩ := Slots.firstFree_eq_some hi
    exact iff_of_true (hparented.inserted hlt hfree hparent) (by rintro ⟨_, _, _, ⟨⟩, _⟩)
  | setState | setCurrentDirectory | allocateHandle | closeHandle | exit =>
    exact iff_of_true (hparented.update (fun _ => rfl) fun _ => rfl)
      (by rintro ⟨_, _, _, ⟨⟩, _⟩)
  | @reap parent child i p status hi hp hstate =>
    obtain ⟨q, hq, rfl, _⟩ := positionOfChild_eq_some hi
    rw [hp] at hq
    cases hq
    rw [hparented.removed_iff hn hp]
    constructor
    · rintro hchildless ⟨_, _, _, ⟨⟩, _, j, q, hq, hparent⟩
      exact hchildless j q hq hparent
    · intro hnot j q hq hparent
      exact hnot ⟨parent, p.id, status, rfl, rfl, j, q, hq, hparent⟩

/-- Every exited child of a process in the table can be reaped, which frees its slot. -/
def Collectable (t : ProcessTable HANDLES) : Prop :=
  ∀ i p parent status, t.slot i = some p → p.parent = some parent → p.state = .exited status →
    t.Present parent ∧ reap parent p.id t = (.ok status, t.setSlot i none)

theorem Parented.collectable (hd : t.Distinct) : t.Collectable := by
  intro i p parent status hp hparent hstate
  refine ⟨hparented i p parent hp hparent, ?_⟩
  have hposition : t.positionOfChild parent p.id = some i := by
    apply Slots.firstWhere_of_only hp
    · rw [Bool.and_eq_true]
      exact ⟨decide_eq_true rfl, decide_eq_true hparent⟩
    · intro j q hq hboth
      rw [Bool.and_eq_true] at hboth
      exact hd.slot_eq hq hp (of_decide_eq_true hboth.1)
  unfold reap
  rw [get_bind, hposition, okOr_some, pure_bind_run, hp, okOr_some, pure_bind_run, hstate]
  rfl

end

theorem parented_new (PROCESSES HANDLES : Nat) : (new PROCESSES HANDLES).Parented := by
  intro i p parent hp
  rw [slot_new] at hp
  cases hp

/-- The table never loses a parent, and with it the slots of its exited children, exactly when
no reaped process still has a child in the table. -/
theorem parents_present_iff (PROCESSES HANDLES : Nat) (calls : List Call)
    (hcalls : creations calls (new PROCESSES HANDLES) < 2 ^ 32 - 1) :
    Runs.Always (fun before => (after before (new PROCESSES HANDLES)).Parented ∧
      (after before (new PROCESSES HANDLES)).Collectable) calls ↔
    Runs.Never (fun before => (after before (new PROCESSES HANDLES)).Orphans) calls := by
  have hnumbered : ∀ before rest, calls = before ++ rest →
      ∃ count, (after before (new PROCESSES HANDLES)).Numbered count := by
    rintro before rest rfl
    rw [creations_append] at hcalls
    exact ⟨_, (numbered_new PROCESSES HANDLES).after before (by omega)⟩
  apply Runs.always_iff_never
  · have hstart := parented_new PROCESSES HANDLES
    exact ⟨hstart, hstart.collectable (numbered_new PROCESSES HANDLES).distinct⟩
  · intro before call rest heq hbefore
    obtain ⟨count, hn⟩ := hnumbered before (call :: rest) heq
    obtain ⟨later, hlater⟩ := hnumbered (before ++ [call]) rest
      (by rw [heq, append_assoc]; rfl)
    rw [after_concat] at hlater ⊢
    rw [← hbefore.1.perform_iff hn call]
    exact and_iff_left_of_imp fun hparented => hparented.collectable hlater.distinct

/-- A parent with an exited child. -/
theorem parents_present_iff_two :
    let calls : List Call := [.create none 1 1 1, .create (some ⟨1⟩) 1 1 1, .exit ⟨2⟩ 7]
    creations calls (new 4 2) < 2 ^ 32 - 1 ∧ (after calls (new 4 2)).Parented ∧
      (after calls (new 4 2)).Collectable := by
  intro calls
  have hcount : creations calls (new 4 2) < 2 ^ 32 - 1 := by decide
  refine ⟨hcount, ((parents_present_iff 4 2 calls hcount).mpr ?_).last⟩
  rintro before call rest heq ⟨parent, child, status, rfl, _⟩
  have hmem : Call.reap parent child ∈ calls := by simp [heq]
  simp [calls] at hmem

/-- Process 1 reaps process 2, whose child 3 has exited but is still in the table: its slot can
no longer be freed for a parent that exists. -/
theorem reap_orphans_child :
    let calls : List Call := [.create none 1 1 1, .create (some ⟨1⟩) 1 1 1,
      .create (some ⟨2⟩) 1 1 1, .exit ⟨3⟩ 0, .exit ⟨2⟩ 0, .reap ⟨1⟩ ⟨2⟩]
    creations calls (new 4 2) < 2 ^ 32 - 1 ∧ ¬(after calls (new 4 2)).Parented ∧
      ((after calls (new 4 2)).slot 2).map (fun p => (p.id, p.parent, p.state)) =
        some (⟨3⟩, some ⟨2⟩, .exited 0) ∧ (after calls (new 4 2)).get ⟨2⟩ = none := by
  intro calls
  have hslot : ((after calls (new 4 2)).slot 2).map (fun p => (p.id, p.parent, p.state)) =
      some (⟨3⟩, some ⟨2⟩, .exited 0) := by decide
  have hget : (after calls (new 4 2)).get ⟨2⟩ = none := by decide
  refine ⟨by decide, ?_, hslot, hget⟩
  intro hparented
  obtain ⟨p, hp, hfields⟩ := Option.map_eq_some_iff.mp hslot
  simp only [Prod.mk.injEq] at hfields
  have hpresent := isSome_get.mpr (hparented 2 p ⟨2⟩ hp hfields.2.1)
  rw [hget] at hpresent
  cases hpresent

end NexOs.Runtime.ProcessTable
