import NexOs.Lib.Exec

/-! Loops over a list that may end early, and errors after which something has to
be undone. -/
namespace NexOs
open List

variable {m : Type → Type} {σ ε α β γ δ : Type} {cs : List γ}

/-- A `for` loop whose body may leave it with `done`. -/
def scanM [Monad m] (body : α → γ → m (ForInStep α)) : List γ → α → m (ForInStep α)
  | [], a => pure (.yield a)
  | c :: cs, a => do
    match ← body a c with
    | .done a => pure (.done a)
    | .yield a => scanM body cs a

def scan (step : α → γ → ForInStep α) : List γ → α → ForInStep α
  | [], a => .yield a
  | c :: cs, a =>
    match step a c with
    | .done a => .done a
    | .yield a => scan step cs a

section
variable {step : α → γ → ForInStep α}

theorem scan_cons (c : γ) (a : α) : scan step (c :: cs) a =
    match step a c with
    | .done a => .done a
    | .yield a => scan step cs a := rfl

theorem scan_append (ds : List γ) (a : α) : scan step (cs ++ ds) a =
    match scan step cs a with
    | .done a => .done a
    | .yield a => scan step ds a := by
  induction cs generalizing a with
  | nil => rfl
  | cons c cs ih =>
    rw [cons_append, scan_cons, scan_cons]
    cases step a c with
    | done a => rfl
    | yield a => exact ih a

theorem scan_flatMap (f : δ → List γ) (ds : List δ) (a : α) :
    scan (fun a d => scan step (f d) a) ds a = scan step (ds.flatMap f) a := by
  induction ds generalizing a with
  | nil => rfl
  | cons d ds ih =>
    rw [flatMap_cons, scan_append, scan_cons]
    cases scan step (f d) a with
    | done a => rfl
    | yield a => exact ih a

theorem scan_map (f : δ → γ) (ds : List δ) (a : α) :
    scan (fun a d => step a (f d)) ds a = scan step (ds.map f) a := by
  induction ds generalizing a with
  | nil => rfl
  | cons d ds ih =>
    rw [map_cons, scan_cons, scan_cons]
    cases step a (f d) with
    | done a => rfl
    | yield a => exact ih a

theorem Result.scanM_ok {body : α → γ → Result ε (ForInStep α)} {cs : List γ}
    (h : ∀ c ∈ cs, ∀ a, body a c = .ok (step a c)) (a : α) :
    scanM body cs a = .ok (scan step cs a) := by
  induction cs generalizing a with
  | nil => rfl
  | cons c cs ih =>
    rw [scanM, h c (.head cs), scan_cons]
    cases step a c with
    | done a => rfl
    | yield a => exact ih (fun d hd => h d (.tail c hd)) a

theorem Exec.scanM_run {body : α → γ → Exec σ ε (ForInStep α)} {cs : List γ}
    (h : ∀ c ∈ cs, ∀ a, body a c s = (.ok (step a c), s)) (a : α) :
    scanM body cs a s = (.ok (scan step cs a), s) := by
  induction cs generalizing a with
  | nil => rfl
  | cons c cs ih =>
    rw [scanM, Exec.bind_of_ok (h c (.head cs) a), scan_cons]
    cases step a c with
    | done a => rfl
    | yield a => exact ih (fun d hd => h d (.tail c hd)) a

end

/-! ## What such loops find -/

variable {f : γ → β} {found : List β}

/-- A loop that collects up to a first element. -/
def collectStep (stop keep : γ → Prop) [DecidablePred stop] [DecidablePred keep] (f : γ → β)
    (found : List β) (c : γ) : ForInStep (List β) :=
  if stop c then .done found else if keep c then .yield (found ++ [f c]) else .yield found

section
variable {stop keep : γ → Prop} [DecidablePred stop] [DecidablePred keep] {c : γ}

theorem collectStep_stop (h : stop c) : collectStep stop keep f found c = .done found :=
  if_pos h

theorem collectStep_keep (hstop : ¬stop c) (hkeep : keep c) :
    collectStep stop keep f found c = .yield (found ++ [f c]) := by
  rw [collectStep, if_neg hstop, if_pos hkeep]

theorem collectStep_skip (hstop : ¬stop c) (hkeep : ¬keep c) :
    collectStep stop keep f found c = .yield found := by
  rw [collectStep, if_neg hstop, if_neg hkeep]

end

theorem scan_collectStep (stop keep : γ → Prop) [DecidablePred stop] [DecidablePred keep] :
    (scan (collectStep stop keep f) cs found).value =
      found ++ ((cs.takeWhile fun c => ¬stop c).filter fun c => keep c).map f := by
  induction cs generalizing found with
  | nil => exact (append_nil found).symm
  | cons c cs ih =>
    rw [scan_cons]
    by_cases hstop : stop c
    · simp [collectStep_stop hstop, hstop]
    · by_cases hkeep : keep c
      · simp [collectStep_keep hstop hkeep, hstop, hkeep, ih]
      · simp [collectStep_skip hstop hkeep, hstop, hkeep, ih]

end NexOs
