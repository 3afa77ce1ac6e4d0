import NexOs.Lib.CycleRing

/-! A queue in a ring of cells. What was put in is numbered from the start; the ring has the
entries from the first one that is not yet given up. -/
namespace NexOs.SlotQueue
variable {α : Type} {N first : Nat} {cells : Vector α N} {stream : List α} {a : α}

/-- The cells hold the entries of `stream` from number `first` on, and one cell more is free. -/
structure Holds (cells : Vector α N) (stream : List α) (first : Nat) : Prop where
  behind : first ≤ stream.length
  room : stream.length < first + N
  entry : ∀ k a, stream[k]? = some a → first ≤ k → cells[k % N]? = some a

theorem holds_nil (hN : 0 < N) : Holds cells [] 0 where
  behind := Nat.le_refl 0
  room := by simpa using hN
  entry := by
    intro k a ha
    cases ha

variable (h : Holds cells stream first)
include h

theorem Holds.set (hi : i = stream.length % N) (hlt : i < N) :
    Holds (cells.set i a hlt) stream first where
  behind := h.behind
  room := h.room
  entry := by
    intro k b hb hk
    have hroom := h.room
    have hlast := (List.getElem?_eq_some_iff.mp hb).1
    have hne : i ≠ k % N := hi ▸ (CycleRing.mod_ne_of_lt hlast (by omega)).symm
    rw [Vector.getElem?_set, if_neg hne]
    exact h.entry k b hb hk

theorem Holds.push (hcell : cells[stream.length % N]? = some a)
    (hroom : stream.length + 1 < first + N) : Holds cells (stream ++ [a]) first where
  behind := by
    rw [List.length_append]
    exact Nat.le_add_right_of_le h.behind
  room := by
    rw [List.length_append]
    exact hroom
  entry := by
    intro k b hb hk
    rcases CycleRing.getElem?_concat_eq_some.mp hb with hold | ⟨rfl, rfl⟩
    · exact h.entry k b hold hk
    · exact hcell

theorem Holds.pop (hlt : first < stream.length) : Holds cells stream (first + 1) where
  behind := hlt
  room := Nat.lt_of_lt_of_le h.room (by omega)
  entry := fun k b hb hk => h.entry k b hb (by omega)

theorem Holds.mod_eq_iff : first % N = stream.length % N ↔ first = stream.length := by
  constructor
  · intro heq
    by_contra hne
    exact CycleRing.mod_ne_of_lt (Nat.lt_of_le_of_ne h.behind hne) h.room heq
  · exact congrArg (· % N)

theorem Holds.succ_mod_eq_iff :
    (stream.length + 1) % N = first % N ↔ stream.length + 1 = first + N := by
  have hbehind := h.behind
  have hroom := h.room
  constructor
  · intro heq
    by_contra hne
    exact CycleRing.mod_ne_of_lt (show first < stream.length + 1 by omega) (by omega) heq.symm
  · intro heq
    rw [heq, Nat.add_mod_right]

end NexOs.SlotQueue
