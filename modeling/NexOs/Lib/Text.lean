import Mathlib.Data.List.DropRight

/-! The string operations that path handling uses, on the characters of a
string. A name is compared as a string and stored as its UTF-8 bytes. -/
namespace NexOs.Text
open List

/-- `s.trim_end_matches(c)` -/
def trimEndMatches (c : Char) (s : List Char) : List Char := s.rdropWhile (· == c)

/-- `s.trim_matches(c)` -/
def trimMatches (c : Char) (s : List Char) : List Char := trimEndMatches c (s.dropWhile (· == c))

/-- `s.rsplit_once(c)`: what stands before and after the last `c`. -/
def rsplitOnce (c : Char) (s : List Char) : Option (List Char × List Char) :=
  if c ∈ s then some ((s.rdropWhile (· != c)).dropLast, s.rtakeWhile (· != c)) else none

/-- `s.as_bytes()` -/
def utf8 (s : String) : List UInt8 := s.toByteArray.data.toList

/-- `str::from_utf8(bytes)` -/
def fromUtf8 (bytes : List UInt8) : Option String := String.fromUTF8? ⟨bytes.toArray⟩

@[simp] theorem fromUtf8_utf8 (s : String) : fromUtf8 (utf8 s) = some s := by
  have hv := s.isValidUTF8
  simp [fromUtf8, utf8, String.fromUTF8?, String.fromUTF8, hv]

theorem utf8_of_fromUtf8 {bytes : List UInt8} (h : fromUtf8 bytes = some s) : utf8 s = bytes := by
  unfold fromUtf8 String.fromUTF8? at h
  split at h
  · cases h
    rfl
  · cases h

theorem utf8_injective : Function.Injective utf8 := by
  intro s t h
  have := congrArg fromUtf8 h
  simpa using this

@[simp] theorem utf8_empty : utf8 "" = [] := rfl

theorem length_utf8_pos (h : s ≠ "") : 0 < (utf8 s).length := by
  rw [length_pos_iff]
  exact fun hs => h (utf8_injective (hs.trans utf8_empty.symm))

/-! ## The words between separators -/

def words (c : Char) (s : List Char) : List (List Char) := (s.splitOn c).filter (· ≠ [])

variable {c : Char} {s t : List Char}

theorem words_nil : words c [] = [] := by
  simp [words]

theorem words_append_cons : words c (s ++ c :: t) = words c s ++ words c t := by
  simp only [words, splitOn_append_cons_self, filter_append]

theorem words_of_notMem (hc : c ∉ t) (ht : t ≠ []) : words c t = [t] := by
  simp [words, splitOn_eq_singleton hc, ht]

theorem words_dropWhile : words c (s.dropWhile (· == c)) = words c s := by
  induction s with
  | nil => rfl
  | cons a s ih =>
    by_cases ha : a = c
    · subst ha
      have hcons := words_append_cons (c := a) (s := []) (t := s)
      rw [words_nil, nil_append, nil_append] at hcons
      rw [dropWhile_cons_of_pos (by simp), ih, hcons]
    · rw [dropWhile_cons_of_neg (by simpa using ha)]

theorem words_trimEndMatches : words c (trimEndMatches c s) = words c s := by
  unfold trimEndMatches
  induction s using reverseRecOn with
  | nil => rfl
  | append_singleton s a ih =>
    by_cases ha : a = c
    · subst ha
      rw [rdropWhile_concat_pos _ _ _ (by simp), ih, words_append_cons, words_nil, append_nil]
    · rw [rdropWhile_concat_neg _ _ _ (by simpa using ha)]

theorem words_trimMatches : words c (trimMatches c s) = words c s := by
  rw [trimMatches, words_trimEndMatches, words_dropWhile]

theorem rsplitOnce_eq_none : rsplitOnce c s = none ↔ c ∉ s := by
  simp [rsplitOnce]

theorem rsplitOnce_eq_some {before after : List Char}
    (h : rsplitOnce c s = some (before, after)) : s = before ++ c :: after ∧ c ∉ after := by
  unfold rsplitOnce at h
  split at h
  case isFalse => cases h
  rename_i hc
  cases h
  have hne : s.rdropWhile (· != c) ≠ [] := by
    rw [Ne, rdropWhile_eq_nil_iff]
    intro hall
    simpa using hall c hc
  have hlast : (s.rdropWhile (· != c)).getLast hne = c := by
    simpa using rdropWhile_last_not _ _ hne
  have hsplit := dropLast_append_getLast hne
  rw [hlast] at hsplit
  refine ⟨?_, fun hm => by simpa using mem_rtakeWhile_imp hm⟩
  calc s = s.rdropWhile (· != c) ++ s.rtakeWhile (· != c) :=
        (rdropWhile_append_rtakeWhile ..).symm
    _ = ((s.rdropWhile (· != c)).dropLast ++ [c]) ++ s.rtakeWhile (· != c) := by
        rw [hsplit]
    _ = _ := by rw [append_assoc, singleton_append]

end NexOs.Text
