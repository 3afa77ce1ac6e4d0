import NexOs.Lib.Exec

/-! Postconditions. A stateful computation ends in a value or early, and each way
has its own condition on the state it leaves. -/
namespace NexOs
open List

namespace Result

/-- `r.map_err(f)` -/
def mapError {ε ε' α : Type} (f : ε → ε') : Result ε α → Result ε' α
  | .ok a => .ok a
  | .error (.error e) => .error (.error (f e))
  | .error .panic => .error .panic
  | .error .diverge => .error .diverge

theorem mapError_eq_ok {ε ε' α : Type} {f : ε → ε'} {r : Result ε α} {a : α} :
    mapError f r = .ok a ↔ r = .ok a := by
  rcases r with (_ | _ | _) | a <;> simp [mapError]

end Result

namespace Exec
variable {σ τ ε ε' α β γ : Type}

/-- From the state `s`, a value leaves `Q` and an early stop leaves `E`. -/
def Ends (x : Exec σ ε α) (s : σ) (Q : α → σ → Prop) (E : Stop ε → σ → Prop) : Prop :=
  match x s with
  | (.ok a, t) => Q a t
  | (.error e, t) => E e t

variable {x : Exec σ ε α} {s t : σ} {E : Stop ε → σ → Prop}

section
variable {f : α → Exec σ ε β} {a : α} {e : Stop ε}
variable {Q R : α → σ → Prop} {S : β → σ → Prop} {E F : Stop ε → σ → Prop} {c : Prop}

theorem Ends.of_ok (h : x s = (.ok a, t)) (hq : Q a t) : Ends x s Q E := by
  unfold Ends
  rw [h]
  exact hq

theorem Ends.of_error (h : x s = (.error e, t)) (he : E e t) : Ends x s Q E := by
  unfold Ends
  rw [h]
  exact he

theorem Ends.ok (h : Ends x s Q E) (hx : x s = (.ok a, t)) : Q a t := by
  unfold Ends at h
  rwa [hx] at h

theorem Ends.error (h : Ends x s Q E) (hx : x s = (.error e, t)) : E e t := by
  unfold Ends at h
  rwa [hx] at h

theorem Ends.cases (h : Ends x s Q E) :
    (∃ a t, x s = (.ok a, t) ∧ Q a t) ∨ ∃ e t, x s = (.error e, t) ∧ E e t := by
  unfold Ends at h
  rcases hx : x s with ⟨a | a, t⟩
  · rw [hx] at h
    exact .inr ⟨a, t, rfl, h⟩
  · rw [hx] at h
    exact .inl ⟨a, t, rfl, h⟩

theorem Ends.returns (h : Ends x s Q fun _ _ => False) : ∃ a t, x s = (.ok a, t) ∧ Q a t := by
  rcases h.cases with h | ⟨_, _, _, h⟩
  · exact h
  · exact h.elim

theorem Ends.mono (h : Ends x s Q E) (hq : ∀ a t, Q a t → R a t)
    (he : ∀ e t, E e t → F e t) : Ends x s R F := by
  rcases h.cases with ⟨a, t, hx, h⟩ | ⟨e, t, hx, h⟩
  · exact .of_ok hx (hq a t h)
  · exact .of_error hx (he e t h)

theorem Ends.imp (h : Ends x s Q E) (hq : ∀ a t, Q a t → R a t) : Ends x s R E :=
  h.mono hq fun _ _ h => h

theorem Ends.bind (hx : Ends x s Q E) (hf : ∀ a t, Q a t → Ends (f a) t S E) :
    Ends (x >>= f) s S E := by
  rcases hx.cases with ⟨a, t, hx, h⟩ | ⟨e, t, hx, h⟩
  · have hfa := hf a t h
    unfold Ends
    rw [bind_of_ok hx]
    exact hfa
  · exact .of_error (bind_of_error hx) h

theorem Ends.step (hx : x s = (.ok a, t)) (hf : Ends (f a) t S E) : Ends (x >>= f) s S E :=
  Ends.bind (Q := fun b u => b = a ∧ u = t) (.of_ok hx ⟨rfl, rfl⟩) fun b u h => by
    rw [h.1, h.2]
    exact hf

theorem Ends.pure (h : Q a s) : Ends (Pure.pure a) s Q E := .of_ok rfl h

theorem Ends.fail {e : ε} (h : E (.error e) s) : Ends (fail e : Exec σ ε α) s Q E :=
  .of_error rfl h

theorem Ends.get_bind {f : σ → Exec σ ε β} (h : Ends (f s) s S E) : Ends (get >>= f) s S E :=
  .step rfl h

theorem Ends.modify_bind {g : σ → σ} {f : Unit → Exec σ ε β} (h : Ends (f ()) (g s) S E) :
    Ends (modify g >>= f) s S E :=
  .step rfl h

theorem Ends.lift {r : Result ε α} (hq : ∀ a, r = .ok a → Q a s)
    (he : ∀ e, r = .error e → E e s) : Ends (lift r) s Q E := by
  cases r with
  | ok a => exact .of_ok rfl (hq a rfl)
  | error e => exact .of_error rfl (he e rfl)

theorem Ends.lift_bind (h : r = .ok a) (hf : Ends (f a) s S E) : Ends (Exec.lift r >>= f) s S E :=
  .step (by rw [h]; rfl) hf

theorem Ends.ensure_bind {_ : Decidable c} {e : ε} {f : Unit → Exec σ ε β}
    (hf : c → Ends (f ()) s S E) (he : ¬c → E (.error e) s) : Ends (ensure c e >>= f) s S E := by
  by_cases hc : c
  · have h := hf hc
    unfold Ends at h ⊢
    rwa [ensure_bind_pos hc]
  · exact .of_error (ensure_bind_neg hc e f) (he hc)

theorem Ends.ite {_ : Decidable c} (ht : c → Ends x s Q E)
    (hf : ¬c → Ends y s Q E) : Ends (if c then x else y) s Q E := by
  split
  · exact ht ‹_›
  · exact hf ‹_›

end

theorem Ends.forM {body : γ → Exec σ ε Unit} (I : List γ → σ → Prop) (cs : List γ)
    (start : I [] s)
    (step : ∀ l c r, cs = l ++ c :: r → ∀ t, I l t →
      Ends (body c) t (fun _ => I (l ++ [c])) E) :
    Ends (cs.forM body) s (fun _ => I cs) E := by
  suffices h : ∀ rest l t, cs = l ++ rest → I l t → Ends (rest.forM body) t (fun _ => I cs) E by
    exact h cs [] s rfl start
  intro rest
  induction rest with
  | nil =>
    intro l t hl ht
    rw [append_nil] at hl
    rw [hl]
    exact .pure ht
  | cons c rest ih =>
    intro l t hl ht
    apply Ends.bind (step l c rest hl t ht)
    intro _ u hu
    apply ih (l ++ [c]) u _ hu
    rw [hl, append_assoc]
    rfl

theorem Ends.forM_range {body : Nat → Exec σ ε Unit} (I : Nat → σ → Prop) (n : Nat) (start : I 0 s)
    (step : ∀ k < n, ∀ t, I k t → Ends (body k) t (fun _ => I (k + 1)) E) :
    Ends ((range n).forM body) s (fun _ => I n) E := by
  have h : Ends ((range n).forM body) s (fun _ => I (range n).length) E := by
    apply Ends.forM (fun l => I l.length) _ start
    intro l c r hl t ht
    have hc : l.length < n ∧ c = l.length := by
      have hlen := congrArg length hl
      have hget := congrArg (fun xs => xs[l.length]?) hl
      simp only [length_range, length_append, length_cons] at hlen
      have hlt : l.length < n := by omega
      simp only [getElem?_range hlt, getElem?_append_right (Nat.le_refl _), Nat.sub_self,
        getElem?_cons_zero, Option.some.injEq] at hget
      exact ⟨hlt, hget.symm⟩
    rw [hc.2, length_append]
    exact step _ hc.1 t ht
  rwa [length_range] at h

section
variable {read : σ → τ} {write : τ → σ → σ} {x : Exec τ ε α} {Q : α → σ → Prop}

theorem Ends.zoom (h : Ends x (read s) (fun a t => Q a (write t s)) fun e t => E e (write t s)) :
    Ends (zoom read write x) s Q E := by
  rcases h.cases with ⟨a, t, hx, h⟩ | ⟨e, t, hx, h⟩
  · apply Ends.of_ok (t := write t s) _ h
    simp only [Exec.zoom, hx]
  · apply Ends.of_error (t := write t s) _ h
    simp only [Exec.zoom, hx]

end

/-! ## Errors as values -/

/-- The result as a value, for a caller that looks at the error instead of passing it
on. -/
def outcome (x : Exec σ ε α) : Exec σ ε' (Except ε α) := fun s =>
  match x s with
  | (.ok a, t) => (.ok (.ok a), t)
  | (.error (.error e), t) => (.ok (.error e), t)
  | (.error .panic, t) => (.error .panic, t)
  | (.error .diverge, t) => (.error .diverge, t)

/-- The value with the last state, for a caller that drops the state of a run that
failed. -/
def finish (x : Exec σ ε α) (s : σ) : Result ε (α × σ) :=
  match x s with
  | (.ok a, t) => .ok (a, t)
  | (.error e, _) => .error e

theorem finish_eq_ok : finish x s = .ok r ↔ x s = (.ok r.1, r.2) := by
  unfold finish
  rcases h : x s with ⟨e | a, t⟩
  · simp
  · simp [Prod.ext_iff]

theorem finish_of_ok (h : x s = (.ok a, t)) : finish x s = .ok (a, t) :=
  finish_eq_ok.mpr h

theorem mapError_eq_ok {f : ε → ε'} {a : α} : mapError f x s = (.ok a, t) ↔ x s = (.ok a, t) := by
  unfold mapError
  rcases h : x s with ⟨(_ | _ | _) | a, t⟩ <;> simp

theorem outcome_of_ok (h : x s = (.ok a, t)) :
    (outcome x : Exec σ ε' (Except ε α)) s = (.ok (.ok a), t) := by
  rw [outcome, h]

theorem outcome_of_error (h : x s = (.error (.error e), t)) :
    (outcome x : Exec σ ε' (Except ε α)) s = (.ok (.error e), t) := by
  rw [outcome, h]

theorem Ends.outcome {Q : Except ε α → σ → Prop} {R : σ → Prop}
    (h : Ends x s (fun a t => Q (.ok a) t) fun _ t => (∀ e, Q (.error e) t) ∧ R t) :
    Ends (outcome x : Exec σ ε' (Except ε α)) s Q fun _ t => R t := by
  rcases h.cases with ⟨a, t, hx, hq⟩ | ⟨e, t, hx, hq, hr⟩
  · exact .of_ok (outcome_of_ok hx) hq
  · cases e with
    | error e => exact .of_ok (outcome_of_error hx) (hq e)
    | panic => exact .of_error (by rw [Exec.outcome, hx]) hr
    | diverge => exact .of_error (by rw [Exec.outcome, hx]) hr

theorem Ends.mapError {f : ε → ε'} {Q : α → σ → Prop} {R : σ → Prop}
    (h : Ends x s Q fun _ t => R t) : Ends (mapError f x) s Q fun _ t => R t := by
  rcases h.cases with ⟨a, t, hx, hq⟩ | ⟨e, t, hx, hr⟩
  · exact .of_ok (mapError_of_ok hx) hq
  · cases e with
    | error e => exact .of_error (mapError_of_error hx) hr
    | panic => exact .of_error (by rw [Exec.mapError, hx]) hr
    | diverge => exact .of_error (by rw [Exec.mapError, hx]) hr

end Exec

end NexOs
