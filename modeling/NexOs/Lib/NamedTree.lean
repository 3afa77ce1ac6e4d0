import Mathlib.Data.List.Infix

/-! Trees given by a partial map from a node and a name to a child. A node is
reached by following the names of a path; in a tree no two paths reach the
same node. -/
namespace NexOs.NamedTree
open List

variable {ι ν : Type}

def follow (child : ι → ν → Option ι) : ι → List ν → Option ι
  | i, [] => some i
  | i, name :: path => (child i name).bind fun j => follow child j path

variable {child : ι → ν → Option ι} {i j k root : ι} {p q : List ν} {a b : ν}

theorem follow_append (i : ι) :
    follow child i (p ++ q) = (follow child i p).bind fun j => follow child j q := by
  induction p generalizing i with
  | nil => rfl
  | cons a p ih =>
    rw [cons_append, follow, follow, Option.bind_assoc]
    congr 1
    funext j
    exact ih j

theorem follow_concat : follow child i (p ++ [a]) = (follow child i p).bind fun j => child j a := by
  rw [follow_append]
  congr 1
  funext j
  simp [follow]

theorem follow_concat_of_some (h : follow child i p = some j) :
    follow child i (p ++ [a]) = child j a := by
  rw [follow_concat, h, Option.bind_some]

/-- Every node but the root has one parent and one name there. -/
structure Rooted (child : ι → ν → Option ι) (root : ι) : Prop where
  root_not_child : ∀ i a, child i a ≠ some root
  unique : ∀ i j a b k, child i a = some k → child j b = some k → i = j ∧ a = b

theorem Rooted.path_unique (h : Rooted child root) (hp : follow child root p = some k)
    (hq : follow child root q = some k) : p = q := by
  induction p using reverseRecOn generalizing q k with
  | nil =>
    cases hp
    cases q using reverseRecOn with
    | nil => rfl
    | append_singleton q b =>
      rw [follow_concat, Option.bind_eq_some_iff] at hq
      obtain ⟨j, -, hj⟩ := hq
      exact absurd hj (h.root_not_child j b)
  | append_singleton p a ih =>
    rw [follow_concat, Option.bind_eq_some_iff] at hp
    obtain ⟨i, hi, hia⟩ := hp
    cases q using reverseRecOn with
    | nil =>
      cases hq
      exact absurd hia (h.root_not_child i a)
    | append_singleton q b =>
      rw [follow_concat, Option.bind_eq_some_iff] at hq
      obtain ⟨j, hj, hjb⟩ := hq
      obtain ⟨rfl, rfl⟩ := h.unique i j a b k hia hjb
      rw [ih hi hj]

theorem Rooted.no_cycle (h : Rooted child root) (hp : follow child root p = some i)
    (ha : child i a = some k) : follow child k q ≠ some i := by
  intro hq
  have hlong : follow child root (p ++ [a] ++ q) = some i := by
    rw [follow_append, follow_concat_of_some hp, ha, Option.bind_some, hq]
  have := congrArg length (h.path_unique hp hlong)
  simp only [length_append, length_singleton] at this
  omega

variable [DecidableEq ι] [DecidableEq ν]

def link (child : ι → ν → Option ι) (i : ι) (a : ν) (k : ι) : ι → ν → Option ι :=
  fun j b => if j = i ∧ b = a then some k else child j b

def unlink (child : ι → ν → Option ι) (i : ι) (a : ν) : ι → ν → Option ι :=
  fun j b => if j = i ∧ b = a then none else child j b

section
variable (h : Rooted child root)
include h

theorem Rooted.link (hk : ∀ j b, child j b ≠ some k) (hr : k ≠ root) :
    Rooted (link child i a k) root := by
  refine ⟨?_, ?_⟩
  · intro j b hj
    unfold NamedTree.link at hj
    split at hj
    · exact hr (Option.some.inj hj)
    · exact h.root_not_child j b hj
  · intro j₁ j₂ b₁ b₂ m h₁ h₂
    unfold NamedTree.link at h₁ h₂
    split at h₁ <;> split at h₂
    · rename_i e₁ e₂
      exact ⟨e₁.1.trans e₂.1.symm, e₁.2.trans e₂.2.symm⟩
    · cases h₁
      exact absurd h₂ (hk j₂ b₂)
    · cases h₂
      exact absurd h₁ (hk j₁ b₁)
    · exact h.unique j₁ j₂ b₁ b₂ m h₁ h₂

theorem Rooted.unlink : Rooted (unlink child i a) root := by
  have hsub : ∀ {j b m}, NamedTree.unlink child i a j b = some m → child j b = some m := by
    intro j b m hj
    unfold NamedTree.unlink at hj
    split at hj
    · cases hj
    · exact hj
  exact ⟨fun j b hj => h.root_not_child j b (hsub hj),
    fun j₁ j₂ b₁ b₂ m h₁ h₂ => h.unique j₁ j₂ b₁ b₂ m (hsub h₁) (hsub h₂)⟩

variable (hp : follow child root p = some i)
include hp

/-- Changing one child, where neither the old nor the new one has children of its own. -/
theorem follow_edit {edited : ι → ν → Option ι}
    (hedit : ∀ j b, edited j b = if j = i ∧ b = a then o else child j b)
    (hold : ∀ k, child i a = some k → ∀ b, child k b = none)
    (hnew : ∀ k, o = some k → ∀ b, edited k b = none) (q : List ν) :
    follow edited root q = if q = p ++ [a] then o else follow child root q := by
  induction q using reverseRecOn with
  | nil => rw [if_neg (by simp)]; rfl
  | append_singleton q b ih =>
    rw [follow_concat, ih]
    by_cases hq : q = p ++ [a]
    · subst hq
      have hlen : p ++ [a] ++ [b] ≠ p ++ [a] := by simp
      rw [if_pos rfl, if_neg hlen, follow_concat, follow_concat_of_some hp,
        Option.bind_eq_none_iff.mpr fun k hk => hnew k hk b,
        Option.bind_eq_none_iff.mpr fun k hk => hold k hk b]
    · rw [if_neg hq, follow_concat]
      cases hj : follow child root q with
      | none =>
        rw [if_neg]
        · rfl
        · intro he
          rw [(append_inj' he rfl).1, hp] at hj
          cases hj
      | some j =>
        simp only [Option.bind_some, hedit]
        by_cases hc : j = i ∧ b = a
        · obtain ⟨rfl, rfl⟩ := hc
          rw [if_pos ⟨rfl, rfl⟩, h.path_unique hj hp, if_pos rfl]
        · rw [if_neg hc, if_neg]
          intro he
          obtain ⟨rfl, hab⟩ := append_inj' he rfl
          rw [hp] at hj
          exact hc ⟨(Option.some.inj hj).symm, (cons.inj hab).1⟩

theorem follow_link
    (ha : child i a = none) (hleaf : ∀ b, child k b = none) (hki : k ≠ i) (q : List ν) :
    follow (link child i a k) root q = if q = p ++ [a] then some k else follow child root q := by
  refine follow_edit h hp (fun _ _ => rfl) (fun m hm => nomatch ha.symm.trans hm) ?_ q
  rintro _ ⟨⟩ b
  exact (if_neg fun hc => hki hc.1).trans (hleaf b)

theorem follow_unlink (ha : child i a = some k) (hleaf : ∀ b, child k b = none) (q : List ν) :
    follow (unlink child i a) root q = if q = p ++ [a] then none else follow child root q := by
  refine follow_edit (o := none) h hp (fun _ _ => rfl) ?_ nofun q
  intro m hm
  cases ha.symm.trans hm
  exact hleaf

end

theorem unlink_link (hij : i ≠ j) :
    unlink (link child j b k) i a = link (unlink child i a) j b k := by
  funext m x
  unfold link unlink
  by_cases hm : m = i ∧ x = a
  · have hmj : ¬(m = j ∧ x = b) := fun hc => hij (hm.1.symm.trans hc.1)
    rw [if_pos hm, if_neg hmj, if_pos hm]
  · rw [if_neg hm, if_neg hm]

variable (h : Rooted child root) (hp : follow child root p = some i) (ha : child i a = some k)
  (hq : follow child root q = some j) (hb : child j b = none)
  (hout : ∀ r, follow child k r ≠ some j)

theorem move_apply_of_ne (h₁ : ¬(m = i ∧ x = a)) (h₂ : ¬(m = j ∧ x = b)) :
    link (unlink child i a) j b k m x = child m x := by
  rw [link, if_neg h₂, unlink, if_neg h₁]

include h hp ha hout in
theorem move_apply_inside (hm : follow child k r = some m) (x : ν) :
    link (unlink child i a) j b k m x = child m x := by
  apply move_apply_of_ne
  · rintro ⟨rfl, rfl⟩
    exact h.no_cycle hp ha hm
  · rintro ⟨rfl, rfl⟩
    exact hout r hm

omit [DecidableEq ι] [DecidableEq ν] in
include hp ha hq hout in
theorem not_prefix_destination : ¬p ++ [a] <+: q := by
  rintro ⟨r, rfl⟩
  rw [follow_append, follow_concat_of_some hp, ha, Option.bind_some] at hq
  exact hout r hq

include h hp ha hq hb hout in
/-- Moving a subtree: what was reached below its old place is reached below its
new place, and nothing else changes. -/
theorem follow_move (path : List ν) :
    follow (link (unlink child i a) j b k) root path =
      if q ++ [b] <+: path then
        follow child root (p ++ [a] ++ path.drop (q ++ [b]).length)
      else if p ++ [a] <+: path then none
      else follow child root path := by
  have hP : follow child root (p ++ [a]) = some k := (follow_concat_of_some hp).trans ha
  induction path using reverseRecOn with
  | nil => rw [if_neg (by simp), if_neg (by simp)]; rfl
  | append_singleton path x ih =>
    rw [follow_concat, ih]
    by_cases hQ : q ++ [b] <+: path
    · have hlen := hQ.length_le
      rw [if_pos hQ, if_pos (hQ.trans (prefix_append _ _)), drop_append_of_le_length hlen,
        ← append_assoc, follow_concat, follow_append, hP, Option.bind_some]
      cases hm : follow child k (path.drop (q ++ [b]).length) with
      | none => rfl
      | some m => exact move_apply_inside h hp ha hout hm x
    rw [if_neg hQ]
    by_cases hQ' : q ++ [b] = path ++ [x]
    · obtain ⟨rfl, hx⟩ := append_inj' hQ' rfl
      cases hx
      rw [if_neg (not_prefix_destination hp ha hq hout), if_pos prefix_rfl, hq,
        Option.bind_some, link, if_pos ⟨rfl, rfl⟩, drop_length, append_nil, hP]
    have hQ'' : ¬q ++ [b] <+: path ++ [x] := by
      rw [prefix_concat_iff]
      exact not_or.mpr ⟨hQ', hQ⟩
    rw [if_neg hQ'']
    by_cases hPp : p ++ [a] <+: path
    · rw [if_pos hPp, if_pos (hPp.trans (prefix_append _ _))]
      rfl
    rw [if_neg hPp]
    by_cases hP' : p ++ [a] = path ++ [x]
    · obtain ⟨rfl, hx⟩ := append_inj' hP' rfl
      cases hx
      rw [if_pos prefix_rfl, hp, Option.bind_some, link, if_neg, unlink, if_pos ⟨rfl, rfl⟩]
      rintro ⟨rfl, rfl⟩
      rw [ha] at hb
      cases hb
    have hP'' : ¬p ++ [a] <+: path ++ [x] := by
      rw [prefix_concat_iff]
      exact not_or.mpr ⟨hP', hPp⟩
    rw [if_neg hP'', follow_concat]
    cases hm : follow child root path with
    | none => rfl
    | some m =>
      apply move_apply_of_ne
      · rintro ⟨rfl, rfl⟩
        exact hP' (by rw [h.path_unique hm hp])
      · rintro ⟨rfl, rfl⟩
        exact hQ' (by rw [h.path_unique hm hq])

end NexOs.NamedTree
