import NexOs.Lib.Exec

/-! When a computation succeeds, and with what. Unlike `Decides` this leaves open
how it stops otherwise: with an error or in a panic. -/
namespace NexOs
open List

namespace Result
variable {ε α β : Type} {x : Result ε α} {f : α → Result ε β} {P Q : Prop} {a : α} {b : β}

/-- The computation returns `a` if `P` holds, and otherwise does not return. -/
def Accepts (x : Result ε α) (P : Prop) (a : α) : Prop := ∀ c, x = .ok c ↔ P ∧ c = a

theorem Decides.accepts (h : Decides x P a) : Accepts x P a := by
  intro c
  constructor
  · exact h.of_eq_ok
  · rintro ⟨hp, rfl⟩
    exact h.eq_ok hp

theorem Accepts.test (c : Prop) {_ : Decidable c} (e : Stop ε) :
    Accepts (if c then .ok a else .error e) c a := by
  intro b
  by_cases h : c
  · rw [if_pos h, and_iff_right h, Except.ok.injEq, eq_comm]
  · rw [if_neg h]
    exact ⟨fun hb => (nomatch hb), fun hb => absurd hb.1 h⟩

theorem Accepts.eq_ok (h : Accepts x P a) (hp : P) : x = .ok a := (h a).mpr ⟨hp, rfl⟩

theorem Accepts.congr (h : Accepts x P a) (hpq : P ↔ Q) (hac : P → a = c) : Accepts x Q c := by
  intro b
  rw [h b, ← hpq]
  apply and_congr_right
  intro hp
  rw [hac hp]

theorem Accepts.bind (hx : Accepts x P a) (hf : P → Accepts (f a) Q b) :
    Accepts (x >>= f) (P ∧ Q) b := by
  intro c
  constructor
  · intro h
    obtain ⟨a', ha, hfa⟩ := bind_eq_ok h
    obtain ⟨hp, rfl⟩ := (hx a').mp ha
    have ⟨hq, hc⟩ := (hf hp c).mp hfa
    exact ⟨⟨hp, hq⟩, hc⟩
  · rintro ⟨⟨hp, hq⟩, rfl⟩
    rw [hx.eq_ok hp]
    exact (hf hp).eq_ok hq

theorem Accepts.bind_ok (hx : x = .ok a) (hf : Accepts (f a) Q b) : Accepts (x >>= f) Q b := by
  rw [hx]
  exact hf

theorem Accepts.ensure (c : Prop) {_ : Decidable c} (e : ε) : Accepts (ensure c e) c () :=
  (Decides.ensure c e).accepts

theorem Accepts.guard {c : Prop} {_ : Decidable c} {f : Unit → Result ε β}
    (hf : c → Accepts (f ()) Q b) : Accepts (Result.ensure c e >>= f) (c ∧ Q) b :=
  (Accepts.ensure c e).bind hf

end Result

namespace Exec
variable {σ ε α β γ : Type} {x : Exec σ ε α} {f : α → Exec σ ε β} {s : σ} {P Q : Prop} {a : α} {b : β}

/-- In the state `s` the computation returns `a` and changes nothing if `P` holds,
and otherwise it does not return. -/
def Accepts (x : Exec σ ε α) (s : σ) (P : Prop) (a : α) : Prop :=
  ∀ c t, x s = (.ok c, t) ↔ P ∧ c = a ∧ t = s

theorem Decides.accepts (h : Decides x s P a) : Accepts x s P a := by
  intro c t
  constructor
  · exact h.of_run_ok
  · rintro ⟨hp, rfl, rfl⟩
    exact h.run_ok hp

theorem Accepts.run_ok (h : Accepts x s P a) (hp : P) : x s = (.ok a, s) :=
  (h a s).mpr ⟨hp, rfl, rfl⟩

theorem Accepts.congr (h : Accepts x s P a) (hpq : P ↔ Q) (hac : P → a = c) : Accepts x s Q c := by
  intro b t
  rw [h b t, ← hpq]
  apply and_congr_right
  intro hp
  rw [hac hp]

theorem Accepts.lift {r : Result ε α} (h : Result.Accepts r P a) : Accepts (lift r) s P a := by
  intro c t
  change (r, s) = (.ok c, t) ↔ _
  rw [Prod.mk.injEq, h c, and_assoc, eq_comm (a := s)]

theorem Accepts.bind (hx : Accepts x s P a) (hf : P → Accepts (f a) s Q b) :
    Accepts (x >>= f) s (P ∧ Q) b := by
  intro c t
  constructor
  · intro h
    obtain ⟨a', u, ha, hfa⟩ := bind_eq_ok h
    obtain ⟨hp, rfl, rfl⟩ := (hx a' u).mp ha
    have ⟨hq, hc⟩ := (hf hp c t).mp hfa
    exact ⟨⟨hp, hq⟩, hc⟩
  · rintro ⟨⟨hp, hq⟩, rfl, rfl⟩
    rw [bind_of_ok (hx.run_ok hp)]
    exact (hf hp).run_ok hq

theorem Accepts.bind_ok (hx : x s = (.ok a, s)) (hf : Accepts (f a) s Q b) :
    Accepts (x >>= f) s Q b := by
  intro c t
  rw [bind_of_ok hx]
  exact hf c t

theorem Accepts.guard {c : Prop} {_ : Decidable c} {f : Unit → Exec σ ε β}
    (hf : c → Accepts (f ()) s Q b) : Accepts (ensure c e >>= f) s (c ∧ Q) b :=
  (Accepts.lift (.ensure c e)).bind hf

theorem Accepts.ensure (c : Prop) {_ : Decidable c} (e : ε) : Accepts (ensure c e) s c () :=
  .lift (.ensure c e)

theorem Accepts.of_ok (h : x s = (.ok a, s)) : Accepts x s True a :=
  (Decides.of_ok h).accepts

/-- A loop that tests each element of a list. `state` is the value it carries after
a part of the list. -/
theorem Accepts.foldlM {g : α → γ → Exec σ ε α} (test : γ → Prop) (state : List γ → α) (cs : List γ)
    (step : ∀ l c r, cs = l ++ c :: r →
      Accepts (g (state l) c) s (test c) (state (l ++ [c]))) :
    Accepts (cs.foldlM g (state [])) s (∀ c ∈ cs, test c) (state cs) := by
  induction cs using reverseRecOn with
  | nil => exact (Accepts.of_ok rfl).congr (by simp) fun _ => rfl
  | append_singleton cs c ih =>
    have hinit := ih fun l x r hl => step l x (r ++ [c]) (by rw [hl, append_assoc]; rfl)
    have hlast := step cs c [] rfl
    rw [foldlM_append]
    apply (hinit.bind fun _ => _).congr _ fun _ => rfl
    · exact test c
    · intro _
      exact (hlast.bind fun _ => .of_ok rfl).congr (and_iff_left trivial) fun _ => rfl
    · rw [forall_mem_append, forall_mem_singleton]

end Exec

end NexOs
