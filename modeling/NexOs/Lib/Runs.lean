import Mathlib.Data.List.Induction

/-! What holds along a run that is a list of calls: a property of a moment is a property of the
calls before it. -/
namespace NexOs.Runs
open List

variable {γ : Type} {calls : List γ} {c : γ} {Inv : List γ → Prop} {P Q : List γ → γ → Prop}

/-- `Inv` holds at every moment of the run. -/
def Always (Inv : List γ → Prop) (calls : List γ) : Prop :=
  ∀ before rest, calls = before ++ rest → Inv before

/-- No call of the run does `P`. -/
def Never (P : List γ → γ → Prop) (calls : List γ) : Prop :=
  ∀ before c rest, calls = before ++ c :: rest → ¬P before c

/-- Some call of the run did `P`, and no call since did `Q`. -/
def Since (P Q : List γ → γ → Prop) (calls : List γ) : Prop :=
  ∃ before c rest, calls = before ++ c :: rest ∧ P before c ∧
    Never (fun mid d => Q (before ++ c :: mid) d) rest

theorem always_nil : Always Inv [] ↔ Inv [] := by
  constructor
  · intro h
    exact h [] [] rfl
  · intro h before rest heq
    obtain ⟨rfl, -⟩ := append_eq_nil_iff.mp heq.symm
    exact h

theorem always_concat : Always Inv (calls ++ [c]) ↔ Always Inv calls ∧ Inv (calls ++ [c]) := by
  constructor
  · intro h
    refine ⟨?_, h _ [] (append_nil _).symm⟩
    intro before rest heq
    exact h before (rest ++ [c]) (by rw [heq, append_assoc])
  · rintro ⟨h, hlast⟩ before rest heq
    cases rest using reverseRecOn with
    | nil =>
      rw [append_nil] at heq
      exact heq ▸ hlast
    | append_singleton rest d =>
      rw [← append_assoc] at heq
      exact h before rest (append_inj_left' heq rfl)

theorem Always.last (h : Always Inv calls) : Inv calls := h calls [] (append_nil _).symm

theorem never_nil (P : List γ → γ → Prop) : Never P [] := by
  intro before c rest heq
  cases append_eq_nil_iff.mp heq.symm with
  | intro _ hcons => cases hcons

theorem never_concat : Never P (calls ++ [c]) ↔ Never P calls ∧ ¬P calls c := by
  constructor
  · intro h
    refine ⟨?_, h calls c [] rfl⟩
    intro before d rest heq
    exact h before d (rest ++ [c]) (by rw [heq, append_assoc, cons_append])
  · rintro ⟨h, hlast⟩ before d rest heq
    cases rest using reverseRecOn with
    | nil =>
      obtain ⟨rfl, hd⟩ := append_inj' heq rfl
      cases hd
      exact hlast
    | append_singleton rest e =>
      rw [← cons_append, ← append_assoc] at heq
      exact h before d rest (append_inj_left' heq rfl)

/-- An invariant that only one kind of call can break holds at every moment exactly when the
run has no such call. -/
theorem always_iff_never (start : Inv [])
    (step : ∀ before c rest, calls = before ++ c :: rest → Inv before →
      (Inv (before ++ [c]) ↔ ¬P before c)) : Always Inv calls ↔ Never P calls := by
  induction calls using reverseRecOn with
  | nil => exact iff_of_true (always_nil.mpr start) (never_nil P)
  | append_singleton calls c ih =>
    have hbefore := ih fun before d rest heq => step before d (rest ++ [c])
      (by rw [heq, append_assoc, cons_append])
    rw [always_concat, never_concat, hbefore]
    refine and_congr_right fun hnever => ?_
    exact step calls c [] rfl (hbefore.mpr hnever).last

theorem not_since_nil : ¬Since P Q [] := by
  rintro ⟨before, c, rest, heq, -⟩
  exact never_nil (fun _ _ => True) before c rest heq trivial

theorem since_concat : Since P Q (calls ++ [c]) ↔ P calls c ∨ Since P Q calls ∧ ¬Q calls c := by
  constructor
  · rintro ⟨before, d, rest, heq, hp, hnever⟩
    cases rest using reverseRecOn with
    | nil =>
      obtain ⟨rfl, hd⟩ := append_inj' heq rfl
      cases hd
      exact .inl hp
    | append_singleton rest e =>
      rw [← cons_append, ← append_assoc] at heq
      obtain ⟨rfl, he⟩ := append_inj' heq rfl
      cases he
      rw [never_concat] at hnever
      exact .inr ⟨⟨before, d, rest, rfl, hp, hnever.1⟩, hnever.2⟩
  · rintro (hp | ⟨⟨before, d, rest, rfl, hp, hnever⟩, hq⟩)
    · exact ⟨calls, c, [], rfl, hp, never_nil _⟩
    · refine ⟨before, d, rest ++ [c], ?_, hp, never_concat.mpr ⟨hnever, hq⟩⟩
      rw [append_assoc, cons_append]

variable {σ β : Type} (step : σ → γ → σ) (emit : σ → γ → Option β) {s : σ}

/-- What the calls of a run give out, one after the other. -/
def emitted : List γ → σ → List β
  | [], _ => []
  | c :: rest, s => (emit s c).toList ++ emitted rest (step s c)

theorem emitted_append (before rest : List γ) :
    emitted step emit (before ++ rest) s =
      emitted step emit before s ++ emitted step emit rest (before.foldl step s) := by
  induction before generalizing s with
  | nil => rfl
  | cons c before ih =>
    rw [cons_append, emitted, emitted, ih, append_assoc]
    rfl

theorem emitted_concat :
    emitted step emit (calls ++ [c]) s =
      emitted step emit calls s ++ (emit (calls.foldl step s) c).toList := by
  rw [emitted_append, emitted, emitted, append_nil]

end NexOs.Runs
