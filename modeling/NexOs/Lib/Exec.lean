import Mathlib.Data.List.Induction

/-! Stateful computations that end in a value, in an error the caller sees, in
a panic, or not at all. An error keeps the state reached so far: nothing is
rolled back, which is what a chain of `?` on a device does. -/
namespace NexOs
open List

/-- Why a computation stopped early. `panic` is an index, slice or arithmetic
operation outside its range; `diverge` is a loop that used up its fuel. -/
inductive Stop (ε : Type) where
  | error (e : ε)
  | panic
  | diverge

/-- A pure computation that may stop early. -/
abbrev Result (ε α : Type) := Except (Stop ε) α

namespace Result

def fail (e : ε) : Result ε α := .error (.error e)

/-- The early return `if !c { return Err(e) }`. -/
def ensure (c : Prop) [Decidable c] (e : ε) : Result ε Unit :=
  if c then .ok () else fail e

/-- `ok_or(e)?` in a function that touches no state. -/
def okOr (x : Option α) (e : ε) : Result ε α :=
  match x with
  | some a => .ok a
  | none => fail e

theorem okOr_some (a : α) (e : ε) : okOr (some a) e = .ok a := rfl

theorem bind_ok (a : α) (f : α → Result ε β) : ((.ok a : Result ε α) >>= f) = f a := rfl

theorem bind_of_ok {x : Result ε α} {a : α} (h : x = .ok a) (f : α → Result ε β) :
    (x >>= f) = f a := by rw [h, bind_ok]

theorem ensure_pos {c : Prop} {_ : Decidable c} (h : c) (e : ε) : ensure c e = .ok () := by
  simp [ensure, h]

theorem ensure_neg {c : Prop} {_ : Decidable c} (h : ¬c) (e : ε) : ensure c e = fail e := by
  simp [ensure, h]

theorem ensure_bind_cases {ε α : Type} {p : Prop} {_ : Decidable p} (e : ε) (f : Unit → Result ε α) :
    (ensure p e >>= f) = f () ∨ (ensure p e >>= f) = fail e := by
  by_cases h : p
  · exact .inl (by rw [ensure_pos h, bind_ok])
  · exact .inr (by rw [ensure_neg h]; rfl)

theorem bind_eq_ok {f : α → Result ε β} (h : (x >>= f) = .ok b) : ∃ a, x = .ok a ∧ f a = .ok b := by
  cases x with
  | ok a => exact ⟨a, rfl, h⟩
  | error e => cases h

/-- Neither a panic nor a loop without end. -/
def Total (x : Result ε α) : Prop := (∃ a, x = .ok a) ∨ ∃ e, x = .error (.error e)

section
variable {ε α β γ : Type} {x : Result ε α} {f : α → Result ε β} {P Q : Prop} {test : γ → Prop}

/-- A computation that returns `a` exactly when `P` holds and an error
otherwise. It never panics and never runs out of fuel. -/
def Decides (x : Result ε α) (P : Prop) (a : α) : Prop :=
  (P ∧ x = .ok a) ∨ (¬P ∧ ∃ e, x = .error (.error e))

theorem Decides.of_ok (h : x = .ok a) : Decides x True a :=
  .inl ⟨trivial, h⟩

theorem Decides.fail (e : ε) (a : α) (h : ¬P) : Decides (fail e : Result ε α) P a :=
  .inr ⟨h, e, rfl⟩

theorem Decides.congr (h : Decides x P a) (hpq : P ↔ Q) (hab : P → a = b) : Decides x Q b := by
  rcases h with ⟨hp, hx⟩ | ⟨hp, hx⟩
  · exact .inl ⟨hpq.mp hp, by rw [hx, hab hp]⟩
  · exact .inr ⟨fun hq => hp (hpq.mpr hq), hx⟩

theorem Decides.bind (hx : Decides x P a) (hf : P → Decides (f a) Q b) :
    Decides (x >>= f) (P ∧ Q) b := by
  rcases hx with ⟨hp, rfl⟩ | ⟨hp, e, rfl⟩
  · rcases hf hp with ⟨hq, hf⟩ | ⟨hq, e, hf⟩
    · exact .inl ⟨⟨hp, hq⟩, hf⟩
    · exact .inr ⟨fun h => hq h.2, e, hf⟩
  · exact .inr ⟨fun h => hp h.1, e, rfl⟩

theorem Decides.ensure (c : Prop) {_ : Decidable c} (e : ε) : Decides (ensure c e) c () := by
  by_cases h : c
  · exact .inl ⟨h, ensure_pos h e⟩
  · exact .inr ⟨h, e, ensure_neg h e⟩

theorem Decides.okOr_ite {c : Prop} {_ : Decidable c} {a : α} {e : ε} :
    Decides (okOr (if c then some a else none) e) c a := by
  by_cases h : c
  · rw [if_pos h]
    exact .inl ⟨h, rfl⟩
  · rw [if_neg h]
    exact .fail e a h

theorem Decides.guard {c : Prop} {_ : Decidable c} {f : Unit → Result ε β}
    (hf : c → Decides (f ()) Q b) : Decides (Result.ensure c e >>= f) (c ∧ Q) b :=
  (Decides.ensure c e).bind hf

theorem Decides.bind_ok (hx : x = .ok a) (hf : Decides (f a) Q b) : Decides (x >>= f) Q b := by
  rw [hx]
  exact hf

section
variable {a : α} (h : Decides x P a)
include h

theorem Decides.eq_ok (hp : P) : x = .ok a := by
  rcases h with ⟨-, hx⟩ | ⟨hn, -⟩
  · exact hx
  · exact absurd hp hn

theorem Decides.fails (hp : ¬P) : ∃ e, x = .error (.error e) := by
  rcases h with ⟨hp', -⟩ | ⟨-, hx⟩
  · exact absurd hp' hp
  · exact hx

theorem Decides.total : Total x := by
  rcases h with ⟨-, hx⟩ | ⟨-, hx⟩
  · exact .inl ⟨a, hx⟩
  · exact .inr hx

theorem Decides.of_eq_ok (hx : x = .ok b) : P ∧ b = a := by
  rcases h with ⟨hp, h⟩ | ⟨-, e, h⟩
  · rw [h] at hx
    cases hx
    exact ⟨hp, rfl⟩
  · rw [h] at hx
    cases hx

end

/-- A loop that decides a property of the list it runs over, one element at a
time. `state` is the value it carries after a part of the list. -/
theorem Decides.foldlM {g : α → γ → Result ε α} (Good : List γ → Prop) (state : List γ → α)
    (cs : List γ) (start : Good [])
    (step : ∀ l c r, cs = l ++ c :: r → Good l →
      Decides (g (state l) c) (Good (l ++ [c])) (state (l ++ [c])))
    (keep : ∀ l c, Good (l ++ [c]) → Good l) :
    Decides (cs.foldlM g (state [])) (Good cs) (state cs) := by
  induction cs using reverseRecOn with
  | nil => exact .inl ⟨start, rfl⟩
  | append_singleton cs c ih =>
    have hinit := ih fun l x r hl => step l x (r ++ [c]) (by rw [hl, append_assoc]; rfl)
    rw [foldlM_append]
    refine (hinit.bind (Q := Good (cs ++ [c])) (b := state (cs ++ [c])) fun hgood => ?_).congr
      ⟨fun h => h.2, fun h => ⟨keep cs c h, h⟩⟩ fun _ => rfl
    exact ((step cs c [] rfl hgood).bind fun _ => .of_ok rfl).congr (and_iff_left trivial)
      fun _ => rfl

theorem Decides.forM {g : γ → Result ε Unit} (cs : List γ)
    (step : ∀ c ∈ cs, Decides (g c) (test c) ()) : Decides (cs.forM g) (∀ c ∈ cs, test c) () := by
  induction cs with
  | nil => exact .inl ⟨by simp, rfl⟩
  | cons c cs ih =>
    have h := (step c mem_cons_self).bind (f := fun _ => cs.forM g)
      (fun _ => ih fun d hd => step d (mem_cons_of_mem _ hd))
    exact h.congr (by simp) (fun _ => rfl)

theorem Decides.ite {c : Prop} {_ : Decidable c}
    (hx : c → Decides x P a) (hy : ¬c → Decides y Q b) :
    Decides (if c then x else y) (if c then P else Q) (if c then a else b) := by
  by_cases hc : c
  · simpa only [if_pos hc] using hx hc
  · simpa only [if_neg hc] using hy hc

theorem Decides.mapM {g : γ → Result ε α} (test : γ → Prop) (value : γ → α) (cs : List γ)
    (step : ∀ c ∈ cs, Decides (g c) (test c) (value c)) :
    Decides (cs.mapM g) (∀ c ∈ cs, test c) (cs.map value) := by
  induction cs with
  | nil => exact .inl ⟨forall_mem_nil _, rfl⟩
  | cons c cs ih =>
    obtain ⟨hc, hcs⟩ := forall_mem_cons.mp step
    rw [mapM_cons, forall_mem_cons]
    apply Decides.bind hc
    intro _
    have hrest := (ih hcs).bind (f := fun values => pure (value c :: values))
      (b := value c :: cs.map value) (Q := True) fun _ => .of_ok rfl
    exact hrest.congr (and_iff_left trivial) fun _ => rfl

end

theorem foldlM_ok {ε α γ : Type} {g : α → γ → Result ε α} {f : α → γ → α} {P : α → Prop}
    {cs : List γ} (step : ∀ a, ∀ c ∈ cs, P a → g a c = .ok (f a c) ∧ P (f a c)) {a : α} (ha : P a) :
    cs.foldlM g a = .ok (cs.foldl f a) ∧ P (cs.foldl f a) := by
  induction cs generalizing a with
  | nil => exact ⟨rfl, ha⟩
  | cons c cs ih =>
    obtain ⟨hg, hf⟩ := step a c mem_cons_self ha
    rw [foldlM_cons, hg]
    exact ih (fun a c hc => step a c (mem_cons_of_mem _ hc)) hf

variable {ε α β : Type} {f : α → Result ε β} {xs : List α} {x : α} {ys zs : List β} {y : β}

theorem mapM_concat_ok (hxs : xs.mapM f = .ok ys) (hx : f x = .ok y) :
    (xs ++ [x]).mapM f = .ok (ys ++ [y]) := by
  rw [mapM_append, hxs, mapM_cons, hx]
  rfl

theorem of_mapM_concat (h : (xs ++ [x]).mapM f = .ok zs) :
    ∃ ys y, xs.mapM f = .ok ys ∧ f x = .ok y ∧ zs = ys ++ [y] := by
  rw [mapM_append] at h
  obtain ⟨ys, hys, h⟩ := bind_eq_ok h
  obtain ⟨y', hy, h⟩ := bind_eq_ok h
  obtain ⟨y, hx, hy⟩ := bind_eq_ok hy
  cases hy
  cases h
  exact ⟨ys, y, hys, hx, rfl⟩

theorem length_of_mapM (h : xs.mapM f = .ok ys) : ys.length = xs.length := by
  induction xs using reverseRecOn generalizing ys with
  | nil =>
    cases h
    rfl
  | append_singleton xs x ih =>
    obtain ⟨zs, y, hzs, -, rfl⟩ := of_mapM_concat h
    rw [length_append, length_append, ih hzs]
    rfl

theorem forall_of_mapM {P : β → Prop} (hf : ∀ x y, f x = .ok y → P y) (h : xs.mapM f = .ok ys) :
    ∀ y ∈ ys, P y := by
  induction xs using reverseRecOn generalizing ys with
  | nil =>
    cases h
    exact forall_mem_nil P
  | append_singleton xs x ih =>
    obtain ⟨zs, y, hzs, hy, rfl⟩ := of_mapM_concat h
    exact forall_mem_append.mpr ⟨ih hzs, forall_mem_singleton.mpr (hf x y hy)⟩

end Result

def Exec (σ ε α : Type) := σ → Result ε α × σ

namespace Exec

instance : Monad (Exec σ ε) where
  pure a := fun s => (.ok a, s)
  bind x f := fun s =>
    match x s with
    | (.ok a, t) => f a t
    | (.error e, t) => (.error e, t)

theorem id_map_run (x : Exec σ ε α) : id <$> x = x := by
  funext s
  change (match x s with
    | (.ok a, t) => (.ok a, t)
    | (.error e, t) => (.error e, t)) = x s
  rcases x s with ⟨_ | _, _⟩ <;> rfl

theorem bind_assoc_run (x : Exec σ ε α) (f : α → Exec σ ε β) (g : β → Exec σ ε γ) :
    x >>= f >>= g = x >>= fun a => f a >>= g := by
  funext s
  change (match (match x s with
    | (.ok a, t) => f a t
    | (.error e, t) => (.error e, t)) with
    | (.ok b, t) => g b t
    | (.error e, t) => (.error e, t)) = match x s with
    | (.ok a, t) => (f a >>= g) t
    | (.error e, t) => (.error e, t)
  rcases x s with ⟨_ | _, _⟩ <;> rfl

instance : LawfulMonad (Exec σ ε) :=
  LawfulMonad.mk' _ id_map_run (fun _ _ => rfl) bind_assoc_run

def get : Exec σ ε σ := fun s => (.ok s, s)

def modify (f : σ → σ) : Exec σ ε Unit := fun s => (.ok (), f s)

def lift (r : Result ε α) : Exec σ ε α := fun s => (r, s)

def fail (e : ε) : Exec σ ε α := fun s => (.error (.error e), s)

def diverge : Exec σ ε α := fun s => (.error .diverge, s)

def ensure (c : Prop) [Decidable c] (e : ε) : Exec σ ε Unit := lift (Result.ensure c e)

/-- `ok_or(e)?` -/
def okOr (x : Option α) (e : ε) : Exec σ ε α :=
  match x with
  | some a => pure a
  | none => fail e

def mapError (f : ε → ε') (x : Exec σ ε α) : Exec σ ε' α := fun s =>
  match x s with
  | (.ok a, t) => (.ok a, t)
  | (.error (.error e), t) => (.error (.error (f e)), t)
  | (.error .panic, t) => (.error .panic, t)
  | (.error .diverge, t) => (.error .diverge, t)

/-- Run a computation on one component of a larger state. -/
def zoom (read : σ → τ) (write : τ → σ → σ) (x : Exec τ ε α) : Exec σ ε α := fun s =>
  let r := x (read s)
  (r.1, write r.2 s)

section
variable {σ ε α β : Type} {x : Exec σ ε α} {f : α → Exec σ ε β} {s t : σ}

theorem bind_of_ok {a : α} (h : x s = (.ok a, t)) : (x >>= f) s = f a t := by
  change (match x s with | (.ok a, t) => f a t | (.error e, t) => (.error e, t)) = _
  rw [h]

theorem bind_of_error (h : x s = (.error e, t)) : (x >>= f) s = (.error e, t) := by
  change (match x s with | (.ok a, t) => f a t | (.error e, t) => (.error e, t)) = _
  rw [h]

@[simp] theorem pure_run (a : α) : (pure a : Exec σ ε α) s = (.ok a, s) := rfl

@[simp] theorem get_bind (f : σ → Exec σ ε β) : (get >>= f) s = f s s := rfl

@[simp] theorem modify_bind (g : σ → σ) (f : Unit → Exec σ ε β) :
    (modify g >>= f) s = f () (g s) := rfl

@[simp] theorem pure_bind_run (a : α) : (pure a >>= f) s = f a s := rfl

@[simp] theorem lift_ok_bind (a : α) : (lift (.ok a) >>= f) s = f a s := rfl

@[simp] theorem lift_run (r : Result ε α) : (lift r : Exec σ ε α) s = (r, s) := rfl

@[simp] theorem fail_run (e : ε) : (fail e : Exec σ ε α) s = (.error (.error e), s) := rfl

@[simp] theorem okOr_some (a : α) (e : ε) : (okOr (some a) e : Exec σ ε α) = pure a := rfl

@[simp] theorem okOr_none (e : ε) : (okOr none e : Exec σ ε α) = fail e := rfl

theorem ensure_bind_pos {c : Prop} {_ : Decidable c} (h : c) (e : ε) (f : Unit → Exec σ ε β) :
    (ensure c e >>= f) s = f () s := by
  simp [ensure, Result.ensure_pos h]

theorem ensure_bind_neg {c : Prop} {_ : Decidable c} (h : ¬c) (e : ε) (f : Unit → Exec σ ε β) :
    (ensure c e >>= f) s = (.error (.error e), s) := by
  rw [ensure, Result.ensure_neg h]
  rfl

theorem bind_eq_ok (h : (x >>= f) s = (.ok b, t)) :
    ∃ a u, x s = (.ok a, u) ∧ f a u = (.ok b, t) := by
  rcases hx : x s with ⟨r, u⟩
  cases r with
  | ok a => exact ⟨a, u, rfl, by rwa [bind_of_ok hx] at h⟩
  | error e =>
    rw [bind_of_error hx] at h
    cases h

theorem mapError_of_ok {g : ε → ε'} (h : x s = (.ok a, t)) : mapError g x s = (.ok a, t) := by
  simp [mapError, h]

theorem mapError_of_error {g : ε → ε'} (h : x s = (.error (.error e), t)) :
    mapError g x s = (.error (.error (g e)), t) := by
  simp [mapError, h]

end

variable {σ ε α β γ : Type} {x : Exec σ ε α} {f : α → Exec σ ε β} {s : σ} {P Q : Prop}

/-- A read-only computation that decides `P` in the state `s`. -/
def Decides (x : Exec σ ε α) (s : σ) (P : Prop) (a : α) : Prop :=
  ∃ r, x s = (r, s) ∧ Result.Decides r P a

variable {a : α} {e : ε} {b : β} {c : Prop} {_ : Decidable c} {y : Exec σ ε α}

theorem Decides.of_ok (h : x s = (.ok a, s)) : Decides x s True a :=
  ⟨_, h, .of_ok rfl⟩

theorem Decides.lift {r : Result ε α} (h : Result.Decides r P a) : Decides (lift r) s P a :=
  ⟨r, rfl, h⟩

theorem Decides.okOr (h : Result.Decides (Result.okOr o e) P a) : Decides (okOr o e) s P a := by
  cases o with
  | none => exact ⟨_, rfl, h⟩
  | some _ => exact ⟨_, rfl, h⟩

theorem Decides.congr {b : α} (h : Decides x s P a) (hpq : P ↔ Q) (hab : P → a = b) :
    Decides x s Q b := by
  obtain ⟨r, hx, hr⟩ := h
  exact ⟨r, hx, hr.congr hpq hab⟩

theorem Decides.bind (hx : Decides x s P a) (hf : P → Decides (f a) s Q b) :
    Decides (x >>= f) s (P ∧ Q) b := by
  obtain ⟨r, hx, ⟨hp, rfl⟩ | ⟨hp, e, rfl⟩⟩ := hx
  · obtain ⟨r, hf, hr⟩ := hf hp
    refine ⟨r, by rw [bind_of_ok hx, hf], hr.congr ?_ fun _ => rfl⟩
    exact ⟨fun hq => ⟨hp, hq⟩, fun h => h.2⟩
  · exact ⟨_, bind_of_error hx, .inr ⟨fun h => hp h.1, e, rfl⟩⟩

theorem Decides.bind_ok (hx : x s = (.ok a, s)) (hf : Decides (f a) s Q b) :
    Decides (x >>= f) s Q b := by
  obtain ⟨r, hf, hr⟩ := hf
  exact ⟨r, by rw [bind_of_ok hx, hf], hr⟩

theorem Decides.guard {f : Unit → Exec σ ε β} (hf : c → Decides (f ()) s Q b) :
    Decides (ensure c e >>= f) s (c ∧ Q) b :=
  (Decides.lift (.ensure c e)).bind hf

theorem Decides.ite_pos (hc : c) (hx : Decides x s P a) : Decides (if c then x else y) s P a := by
  rwa [if_pos hc]

theorem Decides.ite_neg (hc : ¬c) (hx : Decides x s P a) : Decides (if c then y else x) s P a := by
  rwa [if_neg hc]

theorem Decides.run_ok (h : Decides x s P a) (hp : P) : x s = (.ok a, s) := by
  obtain ⟨r, hx, hr⟩ := h
  rw [hx, hr.eq_ok hp]

theorem Decides.of_run_ok {b : α} (h : Decides x s P a) (hx : x s = (.ok b, t)) :
    P ∧ b = a ∧ t = s := by
  obtain ⟨r, hr, hd⟩ := h
  rw [hr] at hx
  cases hx
  have hd := hd.of_eq_ok rfl
  exact ⟨hd.1, hd.2, rfl⟩

theorem Decides.foldlM {g : α → γ → Exec σ ε α} (Good : List γ → Prop) (state : List γ → α)
    (cs : List γ) (start : Good [])
    (step : ∀ l c r, cs = l ++ c :: r → Good l →
      Decides (g (state l) c) s (Good (l ++ [c])) (state (l ++ [c])))
    (keep : ∀ l c, Good (l ++ [c]) → Good l) :
    Decides (cs.foldlM g (state [])) s (Good cs) (state cs) := by
  induction cs using reverseRecOn with
  | nil => exact ⟨_, rfl, .inl ⟨start, rfl⟩⟩
  | append_singleton cs c ih =>
    have hinit := ih fun l x r hl => step l x (r ++ [c]) (by rw [hl, append_assoc]; rfl)
    rw [foldlM_append]
    refine (hinit.bind (Q := Good (cs ++ [c])) (b := state (cs ++ [c])) fun hgood => ?_).congr
      ⟨fun h => h.2, fun h => ⟨keep cs c h, h⟩⟩ fun _ => rfl
    exact ((step cs c [] rfl hgood).bind fun _ => .of_ok rfl).congr (and_iff_left trivial)
      fun _ => rfl

end Exec

end NexOs
