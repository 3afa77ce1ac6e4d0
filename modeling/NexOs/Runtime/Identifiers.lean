import NexOs.Runtime.ProcessRuns
import NexOs.Runtime.SchedulerRuns

/-! The numbers of tasks and processes in runs of any length. Both tables take them from a
counter of 32 bits that starts again at 1, whether or not the number is still in use. -/
namespace NexOs.Runtime
open List Bytes Exec

namespace Scheduler
variable {s t : Scheduler} {i j : Nat} {task : Task} {call : Call}

def Reissues (s : Scheduler) (call : Call) : Prop :=
  ∃ processId context i task, call = .spawn processId context ∧ s.slot i = some task ∧
    (perform call s).1 = .ok (.id task.id)

/-! ## One call -/

theorem Retains.occupied (h : s.Retains t) : Slots.occupied t.tasks = Slots.occupied s.tasks := by
  apply Slots.occupied_congr h.length
  intro i
  change (t.slot i).isSome = (s.slot i).isSome
  cases hslot : s.slot i with
  | none => rw [h.empty i hslot]
  | some a =>
    obtain ⟨b, hb, _⟩ := h.task i a hslot
    rw [hb]
    rfl

theorem issued_eq_some {id : TaskId} : issued call r = some id.value ↔
      ∃ processId context, call = .spawn processId context ∧ r = .ok (.id id) := by
  constructor
  · intro hissued
    unfold issued at hissued
    split at hissued
    · rename_i processId context other
      cases other
      cases hissued
      exact ⟨processId, context, rfl, rfl⟩
    · cases hissued
  · rintro ⟨processId, context, rfl, rfl⟩
    rfl

end Scheduler

namespace ProcessTable
variable {HANDLES : Nat} {t : ProcessTable HANDLES}

end ProcessTable

section
variable {n nextId : Nat} (hn : n ≠ 1) {state : ProcessState}
include hn

end

end NexOs.Runtime
