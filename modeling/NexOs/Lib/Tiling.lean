import Mathlib.Data.List.Chain

/-! Lists of pieces that fill an interval without gaps and without two free neighbours. Such a
list is determined by the pieces in use. -/
namespace NexOs.Tiling
open List

/-- How a piece says where it lies and whether it is free. -/
structure Shape (α : Type) where
  offset : α → Nat
  size : α → Nat
  free : α → Bool
  ext : ∀ s t, offset s = offset t → size s = size t → free s = free t → s = t

variable {α : Type} {p : Shape α} {a b : Nat} {l m before after : List α} {s t : α}

namespace Shape

/-- Nonempty pieces that follow each other from `a` to `b`. -/
def Tiles (p : Shape α) : Nat → List α → Nat → Prop
  | a, [], b => a = b
  | a, s :: l, b => p.offset s = a ∧ 0 < p.size s ∧ p.Tiles (a + p.size s) l b

def Separated (p : Shape α) (l : List α) : Prop :=
  l.IsChain fun s t => ¬(p.free s = true ∧ p.free t = true)

def used (p : Shape α) (l : List α) : List α := l.filter fun s => !p.free s

theorem mem_used : s ∈ p.used l ↔ s ∈ l ∧ p.free s = false := by
  simp [used]

theorem used_append : p.used (l ++ m) = p.used l ++ p.used m :=
  filter_append l m

theorem used_cons_of_free (h : p.free s = true) : p.used (s :: l) = p.used l := by
  simp [used, h]

theorem used_cons_of_used (h : p.free s = false) : p.used (s :: l) = s :: p.used l := by
  simp [used, h]

end Shape

open Shape

theorem tiles_append : p.Tiles a (l ++ m) b ↔ ∃ c, p.Tiles a l c ∧ p.Tiles c m b := by
  induction l generalizing a with
  | nil => simp [Tiles]
  | cons s l ih =>
    simp only [cons_append, Tiles]
    grind

theorem tiles_middle : p.Tiles a (before ++ s :: after) b ↔
    p.Tiles a before (p.offset s) ∧ 0 < p.size s ∧
      p.Tiles (p.offset s + p.size s) after b := by
  rw [tiles_append]
  simp only [Tiles]
  grind

theorem Tiles.le (h : p.Tiles a l b) : a ≤ b := by
  induction l generalizing a with
  | nil => exact Nat.le_of_eq h
  | cons s l ih =>
    obtain ⟨-, -, hrest⟩ := h
    exact (Nat.le_add_right _ _).trans (ih hrest)

theorem Tiles.bounds (h : p.Tiles a l b) (hs : s ∈ l) :
    a ≤ p.offset s ∧ 0 < p.size s ∧ p.offset s + p.size s ≤ b := by
  obtain ⟨before, after, rfl⟩ := append_of_mem hs
  obtain ⟨hbefore, hpos, hafter⟩ := tiles_middle.mp h
  exact ⟨Tiles.le hbefore, hpos, Tiles.le hafter⟩

theorem Tiles.pairwise (h : p.Tiles a l b) :
    l.Pairwise fun s t => p.offset s + p.size s ≤ p.offset t := by
  induction l generalizing a with
  | nil => exact .nil
  | cons s l ih =>
    obtain ⟨hoffset, -, hrest⟩ := h
    refine .cons ?_ (ih hrest)
    intro t ht
    rw [hoffset]
    exact (Tiles.bounds hrest ht).1

theorem Tiles.eq_nil (h : p.Tiles a l a) : l = [] := by
  cases l with
  | nil => rfl
  | cons s l =>
    obtain ⟨-, hpos, hrest⟩ := h
    have hle := Tiles.le hrest
    omega

theorem Tiles.first_le (h : p.Tiles a (s :: l) b) (h' : p.Tiles a (t :: m) b)
    (hsep : p.Separated (s :: l)) (hs : p.free s = true) (ht : p.free t = true)
    (hused : ∀ u ∈ p.used (s :: l), u ∈ p.used (t :: m)) : p.size t ≤ p.size s := by
  obtain ⟨-, -, hl⟩ := h
  obtain ⟨-, -, hm⟩ := h'
  by_contra hlt
  cases l with
  | nil =>
    have hend : a + p.size s = b := hl
    have hle := Tiles.le hm
    omega
  | cons u l =>
    -- The piece after `s` is in use, so it is in the other list as well, behind `t`.
    have hfree : p.free u = false := by
      have hrel := isChain_cons_cons.mp hsep
      have hnot : ¬(p.free s = true ∧ p.free u = true) := hrel.1
      simpa [hs] using hnot
    have hmem : u ∈ p.used (t :: m) := by
      apply hused
      rw [mem_used]
      exact ⟨.tail _ (.head _), hfree⟩
    rw [used_cons_of_free ht, mem_used] at hmem
    have hbound := (Tiles.bounds hm hmem.1).1
    have hoffset : p.offset u = a + p.size s := hl.1
    omega

theorem Tiles.used_tail (h : p.Tiles a (s :: l) b) (hs : p.offset s = a) :
    u ∈ p.used l ↔ u ∈ p.used (s :: l) ∧ p.offset u ≠ a := by
  obtain ⟨-, hpos, hl⟩ := h
  simp only [mem_used, mem_cons]
  constructor
  · rintro ⟨hu, hfree⟩
    have hbound := (Tiles.bounds hl hu).1
    exact ⟨⟨.inr hu, hfree⟩, by omega⟩
  · rintro ⟨⟨rfl | hu, hfree⟩, hne⟩
    · exact absurd hs hne
    · exact ⟨hu, hfree⟩

/-- The pieces in use determine the whole list. -/
theorem Tiles.unique (h : p.Tiles a l b) (h' : p.Tiles a m b) (hsep : p.Separated l)
    (hsep' : p.Separated m) (hused : ∀ u, u ∈ p.used l ↔ u ∈ p.used m) : l = m := by
  induction l generalizing a m with
  | nil =>
    rw [show a = b from h] at h'
    exact (Tiles.eq_nil h').symm
  | cons s l ih =>
    cases m with
    | nil =>
      rw [show a = b from h'] at h
      exact Tiles.eq_nil h
    | cons t m =>
      have hs : p.offset s = a := h.1
      have ht : p.offset t = a := h'.1
      have hsame : s = t := by
        cases hfs : p.free s with
        | false =>
          have hmem := (hused s).mp (mem_used.mpr ⟨.head _, hfs⟩)
          by_contra hne
          have htail : s ∈ m := by
            rcases mem_cons.mp (mem_used.mp hmem).1 with heq | htail
            · exact absurd heq hne
            · exact htail
          have hbound := (Tiles.bounds h'.2.2 htail).1
          have hpos := h'.2.1
          omega
        | true =>
          cases hft : p.free t with
          | false =>
            have hmem := (hused t).mpr (mem_used.mpr ⟨.head _, hft⟩)
            rw [used_cons_of_free hfs, mem_used] at hmem
            have hbound := (Tiles.bounds h.2.2 hmem.1).1
            have hpos := h.2.1
            omega
          | true =>
            apply p.ext
            · rw [hs, ht]
            · exact Nat.le_antisymm
                (Tiles.first_le h' h hsep' hft hfs fun u hu => (hused u).mpr hu)
                (Tiles.first_le h h' hsep hfs hft fun u hu => (hused u).mp hu)
            · rw [hfs, hft]
      subst hsame
      congr 1
      apply ih h.2.2 h'.2.2 (IsChain.tail hsep) (IsChain.tail hsep')
      intro u
      rw [Tiles.used_tail h hs, Tiles.used_tail h' hs, hused]

/-! ## Replacing pieces -/

theorem Separated.middle (h : p.Separated (before ++ s :: after)) :
    p.Separated before ∧ p.Separated after := by
  have hparts := isChain_append.mp h
  exact ⟨hparts.1, IsChain.tail hparts.2.1⟩

theorem Separated.neighbours (h : p.Separated (before ++ s :: after)) (hs : p.free s = true) :
    (∀ t ∈ before.getLast?, p.free t = false) ∧ ∀ t ∈ after.head?, p.free t = false := by
  have hparts := isChain_append.mp h
  constructor
  · intro t ht
    have hnot : ¬(p.free t = true ∧ p.free s = true) := hparts.2.2 t ht s rfl
    simpa [hs] using hnot
  · intro t ht
    have hnot : ¬(p.free s = true ∧ p.free t = true) := IsChain.rel_head? hparts.2.1 ht
    simpa [hs] using hnot

theorem Separated.insert (hbefore : p.Separated before) (hafter : p.Separated after)
    (hm : p.Separated m) (hlast : ∀ t ∈ before.getLast?, p.free t = false)
    (hhead : ∀ t ∈ after.head?, p.free t = false) : p.Separated (before ++ (m ++ after)) := by
  have hinner : p.Separated (m ++ after) := by
    refine isChain_append.mpr ⟨hm, hafter, ?_⟩
    rintro x - y hy ⟨-, hfree⟩
    rw [hhead y hy] at hfree
    cases hfree
  refine isChain_append.mpr ⟨hbefore, hinner, ?_⟩
  rintro x hx y - ⟨hfree, -⟩
  rw [hlast x hx] at hfree
  cases hfree

end NexOs.Tiling
