import Mathlib.Data.List.Infix

/-! Lists that are cut into segments by a separator. -/
namespace NexOs.Segments
open List

variable {α : Type} [DecidableEq α] {sep : α} {s t c : List α} {cs ds : List (List α)}

/-- The segments of a list that are not empty. -/
def segments (sep : α) (s : List α) : List (List α) := (s.splitOn sep).filter (· ≠ [])

/-- Every segment with a separator in front. -/
def joined (sep : α) (cs : List (List α)) : List α := cs.flatMap fun c => sep :: c

/-- Segments that can be told apart again. -/
def Proper (sep : α) (cs : List (List α)) : Prop := ∀ c ∈ cs, c ≠ [] ∧ sep ∉ c

omit [DecidableEq α] in
@[simp] theorem joined_nil : joined sep [] = [] := rfl

omit [DecidableEq α] in
@[simp] theorem joined_cons :
    joined sep (c :: cs) = sep :: c ++ joined sep cs := rfl

omit [DecidableEq α] in
theorem joined_append : joined sep (cs ++ ds) = joined sep cs ++ joined sep ds :=
  flatMap_append

omit [DecidableEq α] in
theorem Proper.left (h : Proper sep (cs ++ ds)) : Proper sep cs :=
  fun c hc => h c (mem_append_left ds hc)

omit [DecidableEq α] in
theorem Proper.right (h : Proper sep (cs ++ ds)) : Proper sep ds :=
  fun c hc => h c (mem_append_right cs hc)

theorem notMem_of_mem_splitOn (h : c ∈ s.splitOn sep) : sep ∉ c := by
  induction s generalizing c with
  | nil =>
    rw [splitOn_nil, mem_singleton] at h
    rw [h]
    exact not_mem_nil
  | cons x s ih =>
    rw [splitOn_cons_eq_if_modifyHead] at h
    split at h
    · rcases mem_cons.mp h with rfl | h
      · exact not_mem_nil
      · exact ih h
    · rename_i hx
      cases hsplit : s.splitOn sep with
      | nil => exact absurd hsplit (splitOn_ne_nil _ _)
      | cons d ds =>
        rw [hsplit] at h ih
        rcases mem_cons.mp h with rfl | h
        · have hne : sep ≠ x := fun heq => hx (beq_iff_eq.mpr heq.symm)
          exact not_mem_cons_of_ne_of_not_mem hne (ih mem_cons_self)
        · exact ih (mem_cons_of_mem d h)

theorem segments_append_cons : segments sep (s ++ sep :: t) = segments sep s ++ segments sep t := by
  simp only [segments, splitOn_append_cons_self, filter_append]

theorem segments_nil : segments sep ([] : List α) = [] := by
  simp [segments]

theorem segments_singleton (hc : c ≠ []) (hsep : sep ∉ c) : segments sep c = [c] := by
  simp [segments, splitOn_eq_singleton hsep, hc]

theorem segments_append_joined (h : Proper sep cs) (s : List α) :
    segments sep (s ++ joined sep cs) = segments sep s ++ cs := by
  induction cs generalizing s with
  | nil => rw [joined_nil, append_nil, append_nil]
  | cons c cs ih =>
    obtain ⟨hc, hsep⟩ := h c mem_cons_self
    have hrest : Proper sep cs := fun d hd => h d (mem_cons_of_mem c hd)
    rw [joined_cons, cons_append, segments_append_cons, ih hrest, segments_singleton hc hsep]
    rfl

theorem segments_joined (h : Proper sep cs) : segments sep (joined sep cs) = cs := by
  have hread := segments_append_joined h []
  rwa [segments_nil] at hread

theorem joined_inj (hcs : Proper sep cs) (hds : Proper sep ds) :
    joined sep cs = joined sep ds ↔ cs = ds := by
  constructor
  · intro heq
    rw [← segments_joined hcs, heq, segments_joined hds]
  · rintro rfl
    rfl

/-- One joined list is at the front of another, up to its end or up to a separator, exactly when
its segments are the first ones of the other. -/
theorem joined_isPrefix_iff (hcs : Proper sep cs) (hds : Proper sep ds) :
    (joined sep ds = joined sep cs ∨ ∃ rest, joined sep ds = joined sep cs ++ sep :: rest) ↔
      cs <+: ds := by
  constructor
  · rintro (heq | ⟨rest, heq⟩)
    · exact (joined_inj hds hcs).mp heq ▸ prefix_rfl
    · refine ⟨segments sep rest, ?_⟩
      rw [← segments_joined hds, heq, segments_append_cons, segments_joined hcs]
  · rintro ⟨es, rfl⟩
    rw [joined_append]
    cases es with
    | nil => exact .inl (append_nil _)
    | cons e es => exact .inr ⟨e ++ joined sep es, rfl⟩

end NexOs.Segments
