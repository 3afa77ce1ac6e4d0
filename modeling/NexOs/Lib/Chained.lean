import Mathlib.Data.List.Nodup

/-! Chained lists: the elements that one reaches by following `next` until it ends. -/
namespace NexOs
open List

variable {α : Type}

/-- `xs` are the elements from `a` on, in order; the last one has no successor. -/
inductive Chained (next : α → Option α) : α → List α → Prop
  | last {a : α} (h : next a = none) : Chained next a [a]
  | link {a b : α} {xs : List α} (h : next a = some b) (rest : Chained next b xs) :
      Chained next a (a :: xs)

namespace Chained
variable {next : α → Option α} {a : α} {xs ys : List α}

variable (h : Chained next a xs)
include h

theorem head?_eq : xs.head? = some a := by
  cases h <;> rfl

theorem mem_head : a ∈ xs := mem_of_mem_head? h.head?_eq

theorem unique (h' : Chained next a ys) : xs = ys := by
  induction h generalizing ys with
  | last hnone =>
    cases h' with
    | last => rfl
    | link hsome => rw [hnone] at hsome; cases hsome
  | link hsome _ ih =>
    cases h' with
    | last hnone => rw [hnone] at hsome; cases hsome
    | link hsome' rest' =>
      cases hsome.symm.trans hsome'
      rw [ih rest']

theorem of_mem (hx : x ∈ xs) : ∃ ys, Chained next x ys ∧ ys.length ≤ xs.length := by
  induction h with
  | last hnone =>
    cases mem_singleton.mp hx
    exact ⟨_, .last hnone, Nat.le_refl _⟩
  | link hsome rest ih =>
    rcases mem_cons.mp hx with rfl | hx
    · exact ⟨_, .link hsome rest, Nat.le_refl _⟩
    · obtain ⟨ys, hys, hle⟩ := ih hx
      exact ⟨ys, hys, Nat.le_succ_of_le hle⟩

theorem nodup : xs.Nodup := by
  induction h with
  | last => exact nodup_singleton _
  | link hsome rest ih =>
    refine nodup_cons.mpr ⟨?_, ih⟩
    intro hmem
    obtain ⟨ys, hys, hle⟩ := rest.of_mem hmem
    rw [← (link hsome rest).unique hys] at hle
    exact Nat.not_succ_le_self _ hle

end Chained

end NexOs
