import NexOs.Lib.Hoare

/-! A directory whose calls may fail. A call that fails changes nothing. The
directory remembers what it held in front of every call, so that a statement can
speak about each point at which its caller could have been stopped. -/
namespace NexOs

/-- Why a call failed; `fault` is the failure that any call may have. -/
inductive IoError where
  | fault
  | notFound
  | alreadyExists
  | notADirectory
  | isADirectory
  deriving DecidableEq

/-- What the names of a directory hold. -/
abbrev Listing (N C : Type) := N → Option C

namespace Listing
variable {N C : Type} [DecidableEq N]

def moved (l : Listing N C) (source destination : N) : Listing N C :=
  if source = destination then l
  else Function.update (Function.update l destination (l source)) source none

variable {l : Listing N C} {source destination name : N}

theorem moved_destination : moved l source destination destination = l source := by
  by_cases h : source = destination
  · rw [moved, if_pos h, h]
  · rw [moved, if_neg h, Function.update_of_ne (Ne.symm h), Function.update_self]

theorem moved_other (hs : name ≠ source) (hd : name ≠ destination) :
    moved l source destination name = l name := by
  rw [moved]
  split
  · rfl
  · rw [Function.update_of_ne hs, Function.update_of_ne hd]

theorem moved_source (h : source ≠ destination) : moved l source destination source = none := by
  rw [moved, if_neg h, Function.update_self]

end Listing

structure Directory (N C : Type) where
  listing : Listing N C
  /-- The calls that fail, by their number. -/
  faults : Nat → Bool
  calls : Nat
  /-- The contents in front of every call so far, the last one first. -/
  past : List (Listing N C)

namespace Directory
variable {N C ε α : Type}

def start (listing : Listing N C) (faults : Nat → Bool) : Directory N C where
  listing := listing
  faults := faults
  calls := 0
  past := []

/-- The directory after one more call, which left `listing`. -/
def after (d : Directory N C) (listing : Listing N C) : Directory N C where
  listing := listing
  faults := d.faults
  calls := d.calls + 1
  past := d.listing :: d.past

@[simp] theorem after_listing (d : Directory N C) (l : Listing N C) : (d.after l).listing = l := rfl

def call (act : Listing N C → Except IoError (α × Listing N C)) :
    Exec (Directory N C) IoError α := fun d =>
  if d.faults d.calls then (.error (.error .fault), d.after d.listing)
  else match act d.listing with
    | .ok (a, listing) => (.ok a, d.after listing)
    | .error e => (.error (.error e), d.after d.listing)

section

/-- Whether the name is in use. A call that fails says no. -/
def contains (name : N) : Exec (Directory N C) ε Bool := fun d =>
  (.ok (!d.faults d.calls && (d.listing name).isSome), d.after d.listing)

def get (name : N) : Exec (Directory N C) IoError C :=
  call fun l => match l name with
    | some c => .ok (c, l)
    | none => .error .notFound

def sync : Exec (Directory N C) IoError Unit := call fun l => .ok ((), l)

variable [DecidableEq N]

def rename (source destination : N) : Exec (Directory N C) IoError Unit :=
  call fun l => match l source with
    | some _ => .ok ((), l.moved source destination)
    | none => .error .notFound

def remove (name : N) : Exec (Directory N C) IoError Unit :=
  call fun l => match l name with
    | some _ => .ok ((), Function.update l name none)
    | none => .error .notFound

def create (name : N) (c : C) : Exec (Directory N C) IoError Unit :=
  call fun l => match l name with
    | some _ => .error .alreadyExists
    | none => .ok ((), Function.update l name (some c))

def replace (name : N) (c : C) : Exec (Directory N C) IoError Unit :=
  call fun l => match l name with
    | some _ => .ok ((), Function.update l name (some c))
    | none => .error .notFound

end

/-! ## What a call does -/

section
variable {d : Directory N C} {act : Listing N C → Except IoError (α × Listing N C)}
variable {Q : α → Directory N C → Prop} {R : Directory N C → Prop}

theorem call_run (hf : d.faults d.calls = false)
    (h : act d.listing = .ok (a, l)) : call act d = (.ok a, d.after l) := by
  simp [call, hf, h]

theorem call_fault (hf : d.faults d.calls = true) :
    call act d = (.error (.error .fault), d.after d.listing) := by
  simp [call, hf]

theorem call_ends (hok : ∀ a l, act d.listing = .ok (a, l) → Q a (d.after l))
    (herr : R (d.after d.listing)) : Exec.Ends (call act) d Q fun _ t => R t := by
  unfold Exec.Ends
  cases hf : d.faults d.calls with
  | true =>
    rw [call_fault hf]
    exact herr
  | false =>
    cases h : act d.listing with
    | ok r =>
      rw [call_run hf h]
      exact hok r.1 r.2 h
    | error e => simpa [call, hf, h] using herr

variable {name source destination : N} {c : C}

theorem contains_ends {Q : Bool → Directory N C → Prop} {E : Stop ε → Directory N C → Prop}
    (hyes : d.listing name ≠ none → Q true (d.after d.listing))
    (hno : Q false (d.after d.listing)) :
    Exec.Ends (contains name : Exec (Directory N C) ε Bool) d Q E := by
  have hrun : (contains name : Exec (Directory N C) ε Bool) d =
    (.ok (!d.faults d.calls && (d.listing name).isSome), d.after d.listing) := rfl
  apply Exec.Ends.of_ok hrun
  cases h : !d.faults d.calls && (d.listing name).isSome with
  | true =>
    rw [Bool.and_eq_true, Option.isSome_iff_ne_none] at h
    exact hyes h.2
  | false => exact hno

theorem get_ends {Q : C → Directory N C → Prop}
    (hok : ∀ c, d.listing name = some c → Q c (d.after d.listing))
    (herr : R (d.after d.listing)) : Exec.Ends (get name) d Q fun _ t => R t := by
  apply call_ends _ herr
  intro c l h
  cases hc : d.listing name with
  | none => simp [hc] at h
  | some c' =>
    simp only [hc, Except.ok.injEq, Prod.mk.injEq] at h
    rw [← h.1, ← h.2]
    exact hok c' hc

variable {Q : Unit → Directory N C → Prop}

theorem sync_ends (hok : Q () (d.after d.listing)) (herr : R (d.after d.listing)) :
    Exec.Ends sync d Q fun _ t => R t := by
  apply call_ends _ herr
  intro u l h
  cases h
  exact hok

variable [DecidableEq N]

theorem rename_ends (hok : ∀ c, d.listing source = some c →
      Q () (d.after (d.listing.moved source destination)))
    (herr : R (d.after d.listing)) :
    Exec.Ends (rename source destination) d Q fun _ t => R t := by
  apply call_ends _ herr
  intro u l h
  cases hc : d.listing source with
  | none => simp [hc] at h
  | some c =>
    simp only [hc, Except.ok.injEq, Prod.mk.injEq] at h
    rw [← h.2]
    exact hok c hc

theorem remove_ends (hok : Q () (d.after (Function.update d.listing name none)))
    (herr : R (d.after d.listing)) : Exec.Ends (remove name) d Q fun _ t => R t := by
  apply call_ends _ herr
  intro u l h
  cases hc : d.listing name with
  | none => simp [hc] at h
  | some c =>
    simp only [hc, Except.ok.injEq, Prod.mk.injEq] at h
    rw [← h.2]
    exact hok

theorem create_ends (hok : d.listing name = none →
      Q () (d.after (Function.update d.listing name (some c))))
    (herr : R (d.after d.listing)) : Exec.Ends (create name c) d Q fun _ t => R t := by
  apply call_ends _ herr
  intro u l h
  cases hc : d.listing name with
  | some c => simp [hc] at h
  | none =>
    simp only [hc, Except.ok.injEq, Prod.mk.injEq] at h
    rw [← h.2]
    exact hok hc

theorem replace_ends (hok : Q () (d.after (Function.update d.listing name (some c))))
    (herr : R (d.after d.listing)) : Exec.Ends (replace name c) d Q fun _ t => R t := by
  apply call_ends _ herr
  intro u l h
  cases hc : d.listing name with
  | none => simp [hc] at h
  | some c =>
    simp only [hc, Except.ok.injEq, Prod.mk.injEq] at h
    rw [← h.2]
    exact hok

end

/-! ## What has held all the time -/

section
variable {P : Listing N C → Prop} {faults : Nat → Bool} {d t u : Directory N C} {l : Listing N C}

/-- In front of every call so far, under one pattern of faults. -/
structure Before (P : Listing N C → Prop) (faults : Nat → Bool) (d : Directory N C) : Prop where
  past : ∀ l ∈ d.past, P l
  faults : d.faults = faults

/-- Now and in front of every call so far. -/
structure Always (P : Listing N C → Prop) (faults : Nat → Bool) (d : Directory N C) : Prop extends
    Before P faults d where
  now : P d.listing

theorem Always.start (h : P l) : Always P faults (start l faults) where
  past := by simp [Directory.start]
  faults := rfl
  now := h

section
variable (h : Always P faults d)
include h

theorem Always.before : Before P faults (d.after l) where
  past := List.forall_mem_cons.mpr ⟨h.now, h.past⟩
  faults := h.faults

theorem Always.after (hl : P l) : Always P faults (d.after l) :=
  { h.before with now := hl }

theorem Always.same : Always P faults (d.after d.listing) := h.after h.now

theorem Always.mono {P' : Listing N C → Prop} (hp : ∀ l, P l → P' l) : Always P' faults d where
  past l hl := hp l (h.past l hl)
  faults := h.faults
  now := hp _ h.now

end

structure Quiet (d t : Directory N C) : Prop where
  listing : t.listing = d.listing
  faults : t.faults = d.faults
  past : ∀ l ∈ t.past, l = d.listing ∨ l ∈ d.past

theorem Quiet.refl : Quiet d d := ⟨rfl, rfl, fun _ h => .inr h⟩

theorem Quiet.trans (h : Quiet d t) (h' : Quiet t u) : Quiet d u where
  listing := h'.listing.trans h.listing
  faults := h'.faults.trans h.faults
  past l hl := by
    rcases h'.past l hl with hl | hl
    · exact .inl (hl.trans h.listing)
    · exact h.past l hl

theorem Quiet.after (h : Quiet d t) : Quiet d (t.after t.listing) :=
  h.trans ⟨rfl, rfl, fun _ hl => List.mem_cons.mp hl⟩

theorem Quiet.always (h : Quiet d t) (hd : Always P faults d) : Always P faults t where
  past l hl := by
    rcases h.past l hl with rfl | hl
    · exact hd.now
    · exact hd.past l hl
  faults := h.faults.trans hd.faults
  now := h.listing ▸ hd.now

end

/-! ## Calls that do not fail -/

variable {β ε' : Type} {x : Exec (Directory N C) ε α} {f : α → Exec (Directory N C) ε β}
  {l l' l'' : Listing N C} {k m : Nat} {a : α} {b : β} {r : Result ε α}

/-- As long as none of its calls fails by itself, `x` makes `k` of them, takes the contents
`l` to `l'` and returns `a`. -/
def Does (x : Exec (Directory N C) ε α) (l : Listing N C) (k : Nat) (a : α) (l' : Listing N C) :
    Prop :=
  ∀ d : Directory N C, d.listing = l → (∀ i < k, d.faults (d.calls + i) = false) →
    ∃ t, x d = (.ok a, t) ∧ t.listing = l' ∧ t.faults = d.faults ∧ t.calls = d.calls + k

theorem Does.pure (a : α) (l : Listing N C) : Does (pure a : Exec (Directory N C) ε α) l 0 a l :=
  fun d hl _ => ⟨d, rfl, hl, rfl, rfl⟩

theorem Does.lift (hr : r = .ok a) : Does (Exec.lift r) l 0 a l :=
  fun d hl _ => ⟨d, by rw [hr]; rfl, hl, rfl, rfl⟩

theorem Does.bind (hx : Does x l k a l') (hf : Does (f a) l' m b l'') :
    Does (x >>= f) l (m + k) b l'' := by
  intro d hl hcalm
  obtain ⟨t, hrun, hlisting, hfaults, hcalls⟩ := hx d hl fun i hi => hcalm i (by omega)
  obtain ⟨u, hrest, hlisting', hfaults', hcalls'⟩ := hf t hlisting fun i hi => by
    rw [hfaults, hcalls, Nat.add_assoc]
    exact hcalm (k + i) (by omega)
  refine ⟨u, (Exec.bind_of_ok hrun).trans hrest, hlisting', hfaults'.trans hfaults, ?_⟩
  omega

theorem Does.mapError {g : ε → ε'} (h : Does x l k a l') : Does (x.mapError g) l k a l' := by
  intro d hl hcalm
  obtain ⟨t, hrun, ht⟩ := h d hl hcalm
  exact ⟨t, Exec.mapError_of_ok hrun, ht⟩

theorem Does.outcome (h : Does x l k a l') :
    Does (x.outcome : Exec (Directory N C) ε' (Except ε α)) l k (.ok a) l' := by
  intro d hl hcalm
  obtain ⟨t, hrun, ht⟩ := h d hl hcalm
  exact ⟨t, Exec.outcome_of_ok hrun, ht⟩

theorem Does.lift_bind (hr : r = .ok a) (h : Does (f a) l k b l') :
    Does (Exec.lift r >>= f) l k b l' := by
  rw [hr]
  exact h

theorem Does.ensure_bind {c : Prop} [Decidable c] {f : Unit → Exec (Directory N C) ε β}
    (hc : c) (h : Does (f ()) l k b l') : Does (Exec.ensure c e >>= f) l k b l' :=
  .lift_bind (Result.ensure_pos hc e) h

theorem Does.call {act : Listing N C → Except IoError (α × Listing N C)}
    (hact : act l = .ok (a, l')) : Does (call act) l 1 a l' := by
  rintro d rfl hcalm
  exact ⟨d.after l', call_run (hcalm 0 Nat.one_pos) hact, rfl, rfl, rfl⟩

variable {name source : N} {c : C}

theorem Does.get (hname : l name = some c) : Does (get name) l 1 c l :=
  .call (by rw [hname])

theorem Does.contains (l : Listing N C) (name : N) :
    Does (contains name : Exec (Directory N C) ε Bool) l 1 (l name).isSome l := by
  rintro d rfl hcalm
  refine ⟨d.after d.listing, ?_, rfl, rfl, rfl⟩
  rw [Directory.contains, show d.faults d.calls = false from hcalm 0 Nat.one_pos]
  rfl

variable [DecidableEq N]

theorem Does.rename (hsource : l source = some c) (destination : N) :
    Does (rename source destination) l 1 () (l.moved source destination) :=
  .call (by rw [hsource])

theorem Does.remove (hname : l name = some c) :
    Does (remove name) l 1 () (Function.update l name none) :=
  .call (by rw [hname])

theorem Does.create (hname : l name = none) (c : C) :
    Does (create name c) l 1 () (Function.update l name (some c)) :=
  .call (by rw [hname])

theorem Does.replace (hname : l name = some c') (c : C) :
    Does (replace name c) l 1 () (Function.update l name (some c)) :=
  .call (by rw [hname])

end Directory

end NexOs
