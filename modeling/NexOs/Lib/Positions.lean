import Mathlib.Data.List.InsertIdx
import Mathlib.Data.List.Nodup

/-! Lists whose elements carry increasing numbers: when a number is also a position. -/
namespace NexOs
open List

variable {α β : Type} {xs : List α} {f : α → Nat} {g : α → β}

theorem map_zipIdx_fst (g : α → β) : (xs.zipIdx.map fun p => g p.1) = xs.map g := by
  have hfst := congrArg (map g) (zipIdx_map_fst 0 xs)
  rwa [map_map] at hfst

section
variable (hinc : xs.Pairwise fun x y => f x < f y)
include hinc

theorem add_sub_le_of_increasing (hi : xs[i]? = some x) (hk : xs[k]? = some y)
    (hle : i ≤ k) : f x + (k - i) ≤ f y := by
  induction k generalizing y with
  | zero =>
    cases Nat.le_zero.mp hle
    cases hi.symm.trans hk
    exact Nat.le_refl _
  | succ k ih =>
    by_cases hlast : i = k + 1
    · subst hlast
      cases hi.symm.trans hk
      omega
    · obtain ⟨hlen, hy⟩ := List.getElem?_eq_some_iff.mp hk
      have hbefore := getElem?_eq_getElem (l := xs) (i := k) (by omega)
      have hgap := ih hbefore (by omega)
      have hlt := pairwise_iff_getElem.mp hinc k (k + 1) (by omega) hlen (by omega)
      rw [hy] at hlt
      omega

variable (hpos : ∀ x ∈ xs, 1 ≤ f x)
include hpos

theorem succ_le_of_increasing (hi : xs[i]? = some x) : i + 1 ≤ f x := by
  obtain ⟨hlen, _⟩ := List.getElem?_eq_some_iff.mp hi
  have hzero := getElem?_eq_getElem (l := xs) (i := 0) (by omega)
  have hfirst := hpos _ (mem_of_getElem? hzero)
  have hgap := add_sub_le_of_increasing hinc hzero hi (Nat.zero_le i)
  omega

/-- The numbers up to `n` all occur exactly when each stands at its own position. -/
theorem position_eq_iff (hn : 1 ≤ n) :
    xs[n - 1]?.map f = some n ↔ ∀ j, 1 ≤ j → j ≤ n → ∃ x ∈ xs, f x = j := by
  constructor
  · intro hlast j hj hle
    obtain ⟨y, hy, hfy⟩ := Option.map_eq_some_iff.mp hlast
    obtain ⟨hlen, _⟩ := List.getElem?_eq_some_iff.mp hy
    have hx := getElem?_eq_getElem (l := xs) (i := j - 1) (by omega)
    have hlow := succ_le_of_increasing hinc hpos hx
    have hgap := add_sub_le_of_increasing hinc hx hy (by omega)
    exact ⟨_, mem_of_getElem? hx, by omega⟩
  · intro hall
    -- The number `j + 1` cannot stand earlier, where the smaller numbers are.
    have hplace : ∀ j, j < n → xs[j]?.map f = some (j + 1) := by
      intro j
      induction j using Nat.strongRecOn with
      | _ j ih =>
        intro hj
        obtain ⟨x, hx, hfx⟩ := hall (j + 1) (by omega) (by omega)
        obtain ⟨i, hi⟩ := getElem?_of_mem hx
        have hlow := succ_le_of_increasing hinc hpos hi
        rcases Nat.lt_or_ge i j with hlt | hge
        · have hother := ih i hlt (by omega)
          rw [hi, Option.map_some, Option.some.injEq] at hother
          omega
        · obtain rfl : i = j := by omega
          rw [hi, Option.map_some, hfx]
    have hlast := hplace (n - 1) (by omega)
    rwa [Nat.sub_add_cancel hn] at hlast

end

theorem position_inj (hg : xs.Pairwise fun x y => g x ≠ g y) {i j : Nat} {x y : α}
    (hi : xs[i]? = some x) (hj : xs[j]? = some y) (hsame : g x = g y) : i = j := by
  have hnodup : (xs.map g).Nodup := pairwise_map.mpr hg
  have hlen := (List.getElem?_eq_some_iff.mp hi).1
  apply (getElem?_inj (by rwa [length_map]) hnodup).mp
  rw [getElem?_map, getElem?_map, hi, hj, Option.map_some, Option.map_some, hsame]

theorem eraseIdx_exact_iff (hinc : xs.Pairwise fun x y => f x < f y)
    (hg : xs.Pairwise fun x y => g x ≠ g y) {k n : Nat} (hk : k < xs.length) :
    (∀ x ∈ xs, g x ∈ (xs.map g).eraseIdx k ↔ f x ≠ n) ↔ xs[k]?.map f = some n := by
  have hmem : ∀ i x, xs[i]? = some x → (g x ∈ (xs.map g).eraseIdx k ↔ i ≠ k) := by
    intro i x hi
    rw [mem_eraseIdx_iff_getElem?]
    constructor
    · rintro ⟨j, hne, hj⟩ rfl
      rw [getElem?_map] at hj
      obtain ⟨y, hy, hsame⟩ := Option.map_eq_some_iff.mp hj
      exact hne (position_inj hg hy hi hsame)
    · intro hne
      exact ⟨i, hne, by rw [getElem?_map, hi, Option.map_some]⟩
  have hk' := getElem?_eq_getElem hk
  rw [hk', Option.map_some, Option.some.injEq]
  constructor
  · intro hall
    have hself := hall _ (mem_of_getElem? hk')
    rw [hmem k _ hk'] at hself
    by_contra hne
    exact hself.mpr hne rfl
  · intro hn x hx
    obtain ⟨i, hi⟩ := getElem?_of_mem hx
    rw [hmem i x hi]
    apply not_congr
    constructor
    · rintro rfl
      cases hi.symm.trans hk'
      exact hn
    · intro hfx
      exact position_inj (hinc.imp Nat.ne_of_lt) hi hk' (hfx.trans hn.symm)

end NexOs
