import NexOs.Lib.Exec

/-! Iterators: what they yield before they end, and loops over them. -/
namespace NexOs.Iteration
variable {σ α β ε : Type} {next : σ → Option α × σ} {s t u : σ} {as bs : List α}

/-- Called again and again, the iterator yields these elements and then ends. -/
inductive Yields (next : σ → Option α × σ) : σ → List α → σ → Prop where
  | done {s t : σ} : next s = (none, t) → Yields next s [] t
  | step {s t u : σ} {a : α} {as : List α} :
    next s = (some a, t) → Yields next t as u → Yields next s (a :: as) u

theorem Yields.unique (h : Yields next s as t) (h' : Yields next s bs u) : as = bs ∧ t = u := by
  induction h generalizing bs with
  | done hs =>
    cases h' with
    | done hs' => exact ⟨rfl, congrArg Prod.snd (hs.symm.trans hs')⟩
    | step hs' _ => cases hs.symm.trans hs'
  | step hs _ ih =>
    cases h' with
    | done hs' => cases hs.symm.trans hs'
    | step hs' h' =>
      cases hs.symm.trans hs'
      obtain ⟨rfl, rfl⟩ := ih h'
      exact ⟨rfl, rfl⟩

/-- A `for` loop over an iterator. -/
def forIn (next : σ → Option α × σ) (body : β → α → Result ε β) :
    Nat → σ → β → Result ε (β × σ)
  | 0, _, _ => .error .diverge
  | fuel + 1, s, b =>
    match next s with
    | (none, t) => .ok (b, t)
    | (some a, t) => do
      let b ← body b a
      forIn next body fuel t b

theorem Yields.forIn_eq (h : Yields next s as t) (body : β → α → Result ε β)
    (hfuel : as.length < fuel) (b : β) :
    forIn next body fuel s b = as.foldlM body b >>= fun b => .ok (b, t) := by
  induction h generalizing fuel b with
  | done hs =>
    obtain ⟨fuel, rfl⟩ := Nat.exists_eq_succ_of_ne_zero (Nat.ne_of_gt hfuel)
    rw [forIn, hs]
    rfl
  | step hs _ ih =>
    obtain ⟨fuel, rfl⟩ := Nat.exists_eq_succ_of_ne_zero (Nat.ne_zero_of_lt hfuel)
    rw [forIn, hs, List.foldlM_cons]
    dsimp only
    cases body b _ with
    | error e => rfl
    | ok b => exact ih (Nat.lt_of_succ_lt_succ hfuel) b

end NexOs.Iteration
