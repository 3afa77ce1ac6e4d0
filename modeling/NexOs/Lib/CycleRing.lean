import Mathlib.Data.Vector.Defs
import Mathlib.Data.List.Induction
import Mathlib.Data.Nat.ModEq

/-! A ring of cells in which a reader knows the fresh cells by a bit that changes from lap to lap.
Writes are numbered from the start: the number of a write gives its cell and the bit of its
lap. -/
namespace NexOs.CycleRing
open List hiding Vector

variable {α : Type} {N k index l : Nat} {bit link : α → Bool} {cells : Vector α N}
  {stream : List α} {a : α}
  {b : Bool}

/-- The bit of the lap of a write. The first lap has `true`. -/
def phase (N k : Nat) : Bool := k / N % 2 == 0

theorem phase_of_lt (h : k < N) : phase N k = true := by
  rw [phase, Nat.div_eq_of_lt h]
  rfl

theorem phase_eq_not (h : l / N = k / N + 1) : phase N l = !phase N k := by
  rw [phase, phase, Bool.eq_not, ne_eq, Bool.eq_iff_iff, beq_iff_eq, beq_iff_eq]
  omega

theorem phase_add (hN : 0 < N) : phase N (k + N) = !phase N k :=
  phase_eq_not (Nat.add_div_right k hN)

theorem succ_mod_eq_zero_iff (hN : 0 < N) : (k + 1) % N = 0 ↔ k % N = N - 1 := by
  obtain ⟨M, rfl⟩ := Nat.exists_eq_add_of_lt hN
  rw [Nat.succ_mod_succ_eq_zero_iff, Nat.add_sub_cancel]

theorem succ_mod_of_ne (hN : 0 < N) (h : k % N ≠ N - 1) : (k + 1) % N = k % N + 1 := by
  have hlt : k % N < N := Nat.mod_lt k hN
  have hsucc : k % N + 1 < N := by omega
  rw [← Nat.mod_add_mod, Nat.mod_eq_of_lt hsucc]

theorem mod_ne_of_lt (hlt : k < l) (hnear : l < k + N) : k % N ≠ l % N := by
  intro heq
  have hdvd : N ∣ l - k := (Nat.modEq_iff_dvd' hlt.le).mp heq
  have hle := Nat.le_of_dvd (Nat.sub_pos_of_lt hlt) hdvd
  omega

/-- An index and a bit stand at a number: they are its cell and the bit of its lap. -/
structure Located (N : Nat) (index : Nat) (b : Bool) (k : Nat) : Prop where
  index_eq : index = k % N
  bit_eq : b = phase N k

theorem located_zero (hN : 0 < N) : Located N 0 true 0 :=
  ⟨(Nat.zero_mod N).symm, (phase_of_lt hN).symm⟩

theorem Located.succ (h : Located N index b k) (hN : 0 < N) (hne : index ≠ N - 1) :
    Located N (index + 1) b (k + 1) := by
  rw [h.index_eq] at hne ⊢
  refine ⟨(succ_mod_of_ne hN hne).symm, ?_⟩
  rw [h.bit_eq, phase, phase, Nat.succ_div_of_mod_ne_zero (mt (succ_mod_eq_zero_iff hN).mp hne)]

theorem Located.wrap (h : Located N index b k) (hN : 0 < N) (hlast : index = N - 1) :
    Located N 0 (!b) (k + 1) := by
  have hmod : (k + 1) % N = 0 := (succ_mod_eq_zero_iff hN).mpr (h.index_eq ▸ hlast)
  refine ⟨hmod.symm, ?_⟩
  rw [h.bit_eq, phase_eq_not (Nat.succ_div_of_mod_eq_zero hmod)]

/-! ## What the cells hold -/

/-- The cells after the writes of `stream`: each has its last write, or is blank as long as it was
never written. -/
structure Holds (bit : α → Bool) (cells : Vector α N) (stream : List α) : Prop where
  recent : ∀ k a, stream[k]? = some a → stream.length ≤ k + N → cells[k % N]? = some a
  marked : ∀ k a, stream[k]? = some a → bit a = phase N k
  blank : ∀ i a, stream.length ≤ i → cells[i]? = some a → bit a = false

theorem holds_blank (h : ∀ (i : Nat) a, cells[i]? = some a → bit a = false) : Holds bit cells [] where
  recent := by
    intro k b hb
    cases hb
  marked := by
    intro k b hb
    cases hb
  blank := fun i b _ hb => h i b hb

theorem holds_replicate (h : bit a = false) : Holds bit (Vector.replicate N a) [] := by
  apply holds_blank
  intro i b hb
  obtain ⟨hlt, rfl⟩ := Vector.getElem?_eq_some_iff.mp hb
  rwa [Vector.getElem_replicate]

theorem getElem?_concat_eq_some {b : α} :
    (stream ++ [a])[k]? = some b ↔ stream[k]? = some b ∨ k = stream.length ∧ b = a := by
  rcases Nat.lt_trichotomy k stream.length with hlt | rfl | hgt
  · simp [getElem?_append_left hlt, hlt.ne]
  · simp [eq_comm]
  · have hlen : (stream ++ [a]).length ≤ k := by
      rw [length_append]
      exact hgt
    simp [getElem?_eq_none hlen, getElem?_eq_none hgt.le, hgt.ne']

theorem concat_isPrefix {taken : List α} (h : taken <+: stream)
    (ha : stream[taken.length]? = some a) : taken ++ [a] <+: stream := by
  have htaken : taken ++ [a] = stream.take (taken.length + 1) := by
    rw [take_add_one, ha, ← prefix_iff_eq_take.mp h]
    rfl
  rw [htaken]
  exact take_prefix _ _

section
variable (h : Holds bit cells stream)
include h

theorem Holds.write (hindex : Located N index (bit a) stream.length)
    (hlt : index < N) : Holds bit (cells.set index a hlt) (stream ++ [a]) where
  recent := by
    intro k b hb hroom
    rw [length_append, length_singleton] at hroom
    rw [Vector.getElem?_set]
    rcases getElem?_concat_eq_some.mp hb with hold | ⟨rfl, rfl⟩
    · -- the other writes of the last lap are in other cells
      have hk : k < stream.length := (List.getElem?_eq_some_iff.mp hold).1
      have hne : index ≠ k % N := hindex.index_eq ▸ (mod_ne_of_lt hk (by omega)).symm
      rw [if_neg hne]
      exact h.recent k b hold (by omega)
    · rw [if_pos hindex.index_eq]
  marked := by
    intro k b hb
    rcases getElem?_concat_eq_some.mp hb with hold | ⟨rfl, rfl⟩
    · exact h.marked k b hold
    · exact hindex.bit_eq
  blank := by
    intro i b hi hb
    rw [length_append, length_singleton] at hi
    have hle : index ≤ stream.length := hindex.index_eq ▸ Nat.mod_le _ _
    rw [Vector.getElem?_set, if_neg (by omega)] at hb
    exact h.blank i b (by omega) hb

theorem Holds.fresh (ha : stream[k]? = some a)
    (hroom : stream.length ≤ k + N) : cells[k % N]? = some a ∧ bit a = phase N k :=
  ⟨h.recent k a ha hroom, h.marked k a ha⟩

theorem Holds.stale (ha : cells[stream.length % N]? = some a) : bit a = !phase N stream.length := by
  by_cases hlt : stream.length < N
  · rw [Nat.mod_eq_of_lt hlt] at ha
    rw [h.blank _ a (Nat.le_refl _) ha, phase_of_lt hlt]
    rfl
  · -- the cell still has the write one lap before
    have hN : 0 < N := Nat.zero_lt_of_lt (Vector.getElem?_eq_some_iff.mp ha).1
    obtain ⟨k, hk⟩ := Nat.exists_eq_add_of_le' (Nat.le_of_not_lt hlt)
    have hb : stream[k]? = some stream[k] := getElem?_eq_getElem (by omega)
    have hcell := h.recent k _ hb hk.le
    rw [hk, Nat.add_mod_right, hcell] at ha
    rw [hk, phase_add hN, Bool.not_not, ← Option.some.inj ha]
    exact h.marked k _ hb

end

/-! ## Links

A cell in each lap may be spent on a link, which says that the next lap begins. -/

/-- Exactly the last cell of each lap is a link. -/
def Linked (N : Nat) (link : α → Bool) (stream : List α) : Prop :=
  ∀ k a, stream[k]? = some a → (link a = true ↔ k % N = N - 1)

theorem linked_nil : Linked N link [] := by
  intro k a ha
  cases ha

theorem linked_concat :
    Linked N link (stream ++ [a]) ↔
      Linked N link stream ∧ (link a = true ↔ stream.length % N = N - 1) := by
  constructor
  · intro h
    exact ⟨fun k b hb => h k b (getElem?_concat_eq_some.mpr (.inl hb)),
      h stream.length a (getElem?_concat_eq_some.mpr (.inr ⟨rfl, rfl⟩))⟩
  · rintro ⟨h, ha⟩ k b hb
    rcases getElem?_concat_eq_some.mp hb with hold | ⟨rfl, rfl⟩
    · exact h k b hold
    · exact ha

theorem Linked.take (h : Linked N link stream) (t : Nat) : Linked N link (stream.take t) := by
  intro k a ha
  rw [getElem?_take] at ha
  split at ha
  · exact h k a ha
  · cases ha

def payload (link : α → Bool) (stream : List α) : List α := stream.filter fun a => !link a

theorem payload_concat :
    payload link (stream ++ [a]) = if link a then payload link stream
      else payload link stream ++ [a] := by
  cases h : link a <;> simp [payload, h]

theorem Linked.length_payload (h : Linked N link stream) (hN : 0 < N) :
    (payload link stream).length + stream.length / N = stream.length := by
  induction stream using reverseRecOn with
  | nil => simp [payload]
  | append_singleton stream a ih =>
    obtain ⟨hold, ha⟩ := linked_concat.mp h
    have ih := ih hold
    rw [← succ_mod_eq_zero_iff hN] at ha
    rw [payload_concat, length_append, length_singleton]
    split
    · rename_i hlink
      rw [Nat.succ_div_of_mod_eq_zero (ha.mp hlink)]
      omega
    · rename_i hlink
      rw [Nat.succ_div_of_mod_ne_zero (mt ha.mpr hlink), length_append, length_singleton]
      omega

theorem Linked.room (h : Linked N link stream) (hN : 0 < N) (ht : t ≤ stream.length)
    (hlap : stream.length ≤ t + N)
    (hless : (payload link stream).length < (payload link (stream.take t)).length + (N - 1)) :
    stream.length < t + N := by
  have hwritten := h.length_payload hN
  have hread := (h.take t).length_payload hN
  rw [length_take, Nat.min_eq_left ht] at hread
  by_contra hfull
  have heq : stream.length = t + N := Nat.le_antisymm hlap (Nat.le_of_not_lt hfull)
  rw [heq, Nat.add_div_right t hN] at hwritten
  omega

end NexOs.CycleRing
