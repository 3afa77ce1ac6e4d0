import Mathlib.Data.List.Infix
import Mathlib.Data.Option.Basic

/-! Tables of entries that point to further tables. A path lists the indices from the last to the
first, so that the paths above it are its suffixes. Where every table has one path only, a write
to an entry is seen at its path and below, and nowhere else. -/
namespace NexOs
open List

/-- Tables of type `T` with entries `E` under indices `I`. `child` is the table that an entry of a
level points to. -/
structure Radix (T I E : Type) where
  root : T
  cell : T → I → Option E
  child : Nat → E → Option T

namespace Radix
variable {T I E : Type} {r r' : Radix T I E} {p q : List I} {i j : I} {t u : T} {e : E}

def table (r : Radix T I E) : List I → Option T
  | [] => some r.root
  | i :: p => (r.table p).bind fun t => (r.cell t i).bind (r.child p.length)

def entry (r : Radix T I E) : List I → Option E
  | [] => none
  | i :: p => (r.table p).bind fun t => r.cell t i

theorem table_cons : r.table (i :: p) = (r.entry (i :: p)).bind (r.child p.length) := by
  rw [table, entry, Option.bind_assoc]

theorem entry_cons (h : r.table p = some t) : r.entry (i :: p) = r.cell t i := by
  rw [entry, h, Option.bind_some]

/-- Every table has one path. -/
def Tree (r : Radix T I E) : Prop := ∀ p q t, r.table p = some t → r.table q = some t → p = q

/-- `r'` has the entries of `r`, apart from the one at the path `i :: p`. -/
structure Rewrites (r r' : Radix T I E) (p : List I) (i : I) : Prop where
  root : r'.root = r.root
  child : r'.child = r.child
  cell : ∀ q t j, r.table q = some t → j :: q ≠ i :: p → r'.cell t j = r.cell t j

theorem Rewrites.table_of_not_suffix (h : Rewrites r r' p i) (hq : ¬(i :: p <:+ q)) :
    r'.table q = r.table q := by
  induction q with
  | nil => rw [table, table, h.root]
  | cons j q ih =>
    have hne : j :: q ≠ i :: p := fun heq => hq (heq ▸ suffix_refl _)
    rw [table, table, ih fun hsuffix => hq (hsuffix.trans (suffix_cons j q)), h.child]
    cases ht : r.table q with
    | none => rfl
    | some t => rw [Option.bind_some, Option.bind_some, h.cell q t j ht hne]

theorem not_cons_suffix : ¬(i :: p <:+ p) := by
  intro h
  have hle := h.length_le
  rw [length_cons] at hle
  omega

section
variable (h : Rewrites r r' p i)
include h

theorem Rewrites.entry_self (ht : r.table p = some t) : r'.entry (i :: p) = r'.cell t i := by
  apply entry_cons
  rw [h.table_of_not_suffix not_cons_suffix, ht]

variable (hsame : r'.table (i :: p) = r.table (i :: p))
include hsame

theorem Rewrites.table_of_same : r'.table q = r.table q := by
  induction q with
  | nil => rw [table, table, h.root]
  | cons j q ih =>
    by_cases hself : j :: q = i :: p
    · rw [hself, hsame]
    · rw [table, table, ih, h.child]
      cases ht : r.table q with
      | none => rfl
      | some t => rw [Option.bind_some, Option.bind_some, h.cell q t j ht hself]

theorem Rewrites.entry_of_same (hq : q ≠ i :: p) : r'.entry q = r.entry q := by
  cases q with
  | nil => rfl
  | cons j q =>
    rw [entry, entry, h.table_of_same hsame]
    cases ht : r.table q with
    | none => rfl
    | some t => rw [Option.bind_some, Option.bind_some, h.cell q t j ht hq]

theorem Rewrites.tree_of_same (htree : r.Tree) : r'.Tree := by
  intro a b t ha hb
  rw [h.table_of_same hsame] at ha hb
  exact htree a b t ha hb

end

/-- The new entry leads to an empty table, and the old one led nowhere. -/
structure Links (r r' : Radix T I E) (p : List I) (i : I) (u : T) : Prop
    extends Rewrites r r' p i where
  before : r.table (i :: p) = none
  linked : r'.table (i :: p) = some u
  empty : ∀ j e, r'.cell u j = some e → r.child (p.length + 1) e = none

theorem table_of_suffix (h : r.table p = none) (hsuffix : p <:+ q) : r.table q = none := by
  induction q with
  | nil => rwa [suffix_nil.mp hsuffix] at h
  | cons j q ih =>
    rcases suffix_cons_iff.mp hsuffix with rfl | hsuffix
    · exact h
    · rw [table, ih hsuffix, Option.bind_none]

theorem Links.table_below (h : Links r r' p i u) (hsuffix : j :: i :: p <:+ q) :
    r'.table q = none := by
  apply table_of_suffix _ hsuffix
  rw [table, h.linked, Option.bind_some, Option.bind_eq_none_iff]
  intro e he
  rw [h.child]
  exact h.empty j e he

theorem eq_or_cons_suffix (h : p <:+ q) : q = p ∨ ∃ j, j :: p <:+ q := by
  obtain ⟨front, rfl⟩ := h
  cases front using reverseRecOn with
  | nil => exact .inl rfl
  | append_singleton front j => exact .inr ⟨j, front, by rw [append_assoc]; rfl⟩

theorem Links.table_eq (h : Links r r' p i u) (hq : q ≠ i :: p) : r'.table q = r.table q := by
  by_cases hsuffix : i :: p <:+ q
  · rcases eq_or_cons_suffix hsuffix with heq | ⟨j, hbelow⟩
    · exact absurd heq hq
    · rw [h.table_below hbelow, table_of_suffix h.before hsuffix]
  · exact h.table_of_not_suffix hsuffix

theorem Links.tree (h : Links r r' p i u) (htree : r.Tree) (hfresh : ∀ q, r.table q ≠ some u) :
    r'.Tree := by
  intro a b t ha hb
  by_cases hself : a = i :: p
  · by_cases hself' : b = i :: p
    · rw [hself, hself']
    · rw [hself, h.linked] at ha
      rw [h.table_eq hself', ← ha] at hb
      exact absurd hb (hfresh b)
  · by_cases hself' : b = i :: p
    · rw [hself', h.linked] at hb
      rw [h.table_eq hself, ← hb] at ha
      exact absurd ha (hfresh a)
    · rw [h.table_eq hself] at ha
      rw [h.table_eq hself'] at hb
      exact htree a b t ha hb

theorem Links.entry_eq (h : Links r r' p i u) (hq : q ≠ i :: p) (hbelow : ∀ j, q ≠ j :: i :: p) :
    r'.entry q = r.entry q := by
  cases q with
  | nil => rfl
  | cons j q =>
    have hparent : q ≠ i :: p := fun heq => hbelow j (by rw [heq])
    rw [entry, entry, h.table_eq hparent]
    cases ht : r.table q with
    | none => rfl
    | some t => rw [Option.bind_some, Option.bind_some, h.cell q t j ht hq]

end Radix

end NexOs
