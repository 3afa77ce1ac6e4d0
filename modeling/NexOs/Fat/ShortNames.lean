import NexOs.Storage.Fat32

/-! 8.3 names: the bytes that are stored for a name, and the name that is shown for them. -/
namespace NexOs.Storage
open List Bytes

def withoutTrailingDot (name : List Char) : List Char :=
  if name.getLast? = some '.' then name.dropLast else name

def canonicalName (name : List Char) : List Char := (withoutTrailingDot name).map Char.toUpper

abbrev IsShort (c : Char) : Prop :=
  c.toNat < 128 ∧ validShortCharacter (UInt8.ofNat c.toNat) = true

def storedByte (c : Char) : UInt8 := toAsciiUppercase (UInt8.ofNat c.toNat)

variable {c : Char} {name base extension : List Char} {bytes : List UInt8} {width : Nat}

theorem IsShort.cases (h : IsShort c) :
    c ≠ '.' ∧ storedByte c ≠ 0x20 ∧ Char.ofNat (storedByte c).toNat = c.toUpper ∧
      IsShort c.toUpper ∧ storedByte c.toUpper = storedByte c := by
  obtain ⟨n, hn, rfl⟩ : ∃ n < 128, c = Char.ofNat n := ⟨c.toNat, h.1, (Char.ofNat_toNat c).symm⟩
  replace h := h.2
  revert n
  decide +kernel

/-- A name of one or two parts for which the fields have room. -/
structure ShortParts (name base extension : List Char) : Prop where
  spelled : name = base ∧ extension = [] ∨ name = base ++ '.' :: extension
  base_ne : base ≠ []
  base_le : base.length ≤ 8
  extension_le : extension.length ≤ 3
  short : ∀ c ∈ base ++ extension, IsShort c

def stored (base extension : List Char) : List UInt8 :=
  padName 8 (asciiBytes base) ++ padName 3 (asciiBytes extension)

theorem padName_asciiBytes (s : List Char) :
    padName width (asciiBytes s) = s.map storedByte ++ replicate (width - s.length) 0x20 := by
  rw [padName, asciiBytes, map_map, length_map]
  rfl

theorem length_padName (h : s.length ≤ width) : (padName width (asciiBytes s)).length = width := by
  rw [padName_asciiBytes, length_append, length_map, length_replicate, Nat.add_sub_cancel' h]

section
variable {s : List Char} (hs : ∀ c ∈ s, IsShort c)
include hs

theorem rdropWhile_padName :
    (padName width (asciiBytes s)).rdropWhile (· == 0x20) = s.map storedByte := by
  rw [padName_asciiBytes]
  induction width - s.length with
  | zero =>
    rw [replicate_zero, append_nil, rdropWhile_eq_self_iff]
    intro hne
    obtain ⟨c, hc, hlast⟩ := mem_map.mp (getLast_mem hne)
    rw [← hlast, beq_iff_eq]
    exact (hs c hc).cases.2.1
  | succ k ih => rw [replicate_succ', ← append_assoc, rdropWhile_concat_pos _ _ _ rfl, ih]

theorem map_storedByte :
    (s.map storedByte).map (fun byte => Char.ofNat byte.toNat) = s.map Char.toUpper := by
  rw [map_map]
  exact map_congr_left fun c hc => (hs c hc).cases.2.2.1

end

section
variable (h : ShortParts name base extension)
include h

theorem ShortParts.mem (hc : c ∈ name) : c = '.' ∨ IsShort c := by
  rcases h.spelled with ⟨rfl, rfl⟩ | rfl
  · exact .inr (h.short c (mem_append_left _ hc))
  · rcases mem_append.mp hc with hc | hc
    · exact .inr (h.short c (mem_append_left _ hc))
    · exact (mem_cons.mp hc).imp id fun hc => h.short c (mem_append_right _ hc)

theorem ShortParts.shortName_eq : shortName name = .ok (stored base extension) := by
  have hdot : ∀ c ∈ base ++ extension, c ≠ '.' := fun c hc => (h.short c hc).cases.1
  have hbase : '.' ∉ base := fun hmem => hdot '.' (mem_append_left _ hmem) rfl
  have hextension : '.' ∉ extension := fun hmem => hdot '.' (mem_append_right _ hmem) rfl
  have hname : ¬(name = [] ∨ name = ['.'] ∨ name = ['.', '.'] ∨ isAscii name = false) := by
    obtain ⟨c, rest, hrest⟩ := exists_cons_of_ne_nil h.base_ne
    obtain ⟨tail, hcons⟩ : ∃ tail, name = c :: tail := by
      rcases h.spelled with ⟨rfl, -⟩ | rfl
      · exact ⟨rest, hrest⟩
      · exact ⟨rest ++ '.' :: extension, by rw [hrest, cons_append]⟩
    have hc : c ≠ '.' := hdot c (by simp [hrest])
    have hascii : isAscii name = true := by
      rw [isAscii, all_eq_true]
      intro d hd
      rcases h.mem hd with rfl | hshort
      · rfl
      · exact decide_eq_true hshort.1
    rw [hascii, hcons]
    simp [hc]
  have hvalid : (asciiBytes base ++ asciiBytes extension).all validShortCharacter = true := by
    rw [asciiBytes, asciiBytes, ← map_append, all_map, all_eq_true]
    exact fun c hc => (h.short c hc).2
  have hparts : (name.splitOn '.')[0]? = some base ∧
      (name.splitOn '.')[1]?.getD [] = extension ∧ (name.splitOn '.').length ≤ 2 := by
    rcases h.spelled with ⟨rfl, rfl⟩ | rfl
    · simp [splitOn_eq_singleton hbase]
    · simp [splitOn_append_cons_self, splitOn_eq_singleton hbase, splitOn_eq_singleton hextension]
  obtain ⟨hfirst, hsecond, hlength⟩ := hparts
  have hfits : ¬(2 < (name.splitOn '.').length ∨ base = [] ∨ base.length > 8 ∨
      extension.length > 3 ∨ true = false) := by
    simp [hlength, h.base_ne, h.base_le, h.extension_le]
  rw [shortName, Result.ensure_pos hname, Result.bind_ok]
  dsimp only
  rw [hfirst, Result.okOr_some, Result.bind_ok, hsecond, hvalid, Result.ensure_pos hfits]
  rfl

theorem ShortParts.canonicalName_eq : canonicalName name = base.map Char.toUpper ++
    if extension = [] then [] else '.' :: extension.map Char.toUpper := by
  have hdot : ∀ c ∈ base ++ extension, c ≠ '.' := fun c hc => (h.short c hc).cases.1
  have hkept : ∀ {s : List Char}, s.getLast? ≠ some '.' → canonicalName s = s.map Char.toUpper :=
    fun hs => by rw [canonicalName, withoutTrailingDot, if_neg hs]
  rcases h.spelled with ⟨rfl, rfl⟩ | rfl
  · rw [hkept fun hlast => hdot '.' (mem_append_left _ (mem_of_getLast? hlast)) rfl, if_pos rfl,
      append_nil]
  · by_cases hnil : extension = []
    · simp [hnil, canonicalName, withoutTrailingDot]
    · have hlast : (base ++ '.' :: extension).getLast? = extension.getLast? := by
        rw [getLast?_append, getLast?_cons, getLast?_eq_some_getLast hnil]
        rfl
      rw [hkept fun heq => ?_, if_neg hnil, map_append]
      · rfl
      · rw [hlast] at heq
        exact hdot '.' (mem_append_right _ (mem_of_getLast? heq)) rfl

theorem ShortParts.upper :
    ShortParts (canonicalName name) (base.map Char.toUpper) (extension.map Char.toUpper) := by
  refine ⟨?_, ?_, ?_, ?_, ?_⟩
  · rw [h.canonicalName_eq]
    by_cases hnil : extension = []
    · simp [hnil]
    · simp [hnil]
  · simpa using h.base_ne
  · simpa using h.base_le
  · simpa using h.extension_le
  · rw [← map_append, forall_mem_map]
    exact fun c hc => (h.short c hc).cases.2.2.2.1

theorem ShortParts.stored_upper :
    stored (base.map Char.toUpper) (extension.map Char.toUpper) = stored base extension := by
  have hsame : ∀ {s : List Char}, (∀ c ∈ s, IsShort c) →
      (s.map Char.toUpper).map storedByte = s.map storedByte := by
    intro s hs
    rw [map_map]
    exact map_congr_left fun c hc => (hs c hc).cases.2.2.2.2
  rw [stored, stored, padName_asciiBytes, padName_asciiBytes, padName_asciiBytes,
    padName_asciiBytes, length_map, length_map, hsame (forall_mem_append.mp h.short).1,
    hsame (forall_mem_append.mp h.short).2]

theorem ShortParts.displayShortName_eq :
    displayShortName (stored base extension) = .ok (canonicalName name) := by
  obtain ⟨hbase, hextension⟩ := forall_mem_append.mp h.short
  have hlength : (padName 8 (asciiBytes base)).length = 8 := length_padName h.base_le
  have hlength' : (padName 3 (asciiBytes extension)).length = 3 := length_padName h.extension_le
  have hfirst : slice (stored base extension) 0 8 = padName 8 (asciiBytes base) := by
    rw [slice, stored, drop_zero, take_left' hlength]
  have hsecond : slice (stored base extension) 8 3 = padName 3 (asciiBytes extension) := by
    rw [slice, stored, drop_left' hlength, take_of_length_le hlength'.le]
  rw [displayShortName, Result.ensure_pos (by rw [stored, length_append, hlength, hlength']),
    Result.bind_ok, hfirst, hsecond, rdropWhile_padName hbase, rdropWhile_padName hextension,
    h.canonicalName_eq]
  dsimp only
  rw [map_storedByte hbase, map_storedByte hextension]
  simp only [map_eq_nil_iff]

end

theorem parts_of_shortName (h : shortName name = .ok bytes) : ∃ base extension,
    ShortParts name base extension ∧ bytes = stored base extension := by
  obtain ⟨_, hname, h⟩ := Result.bind_eq_ok h
  have hname := ((Result.Decides.ensure _ _).of_eq_ok hname).1
  have hascii : ∀ c ∈ name, c.toNat < 128 := by
    have hall : isAscii name = true := by simpa using fun hno => hname (.inr (.inr (.inr hno)))
    simpa [isAscii] using hall
  have hjoin : ['.'].intercalate (name.splitOn '.') = name := intercalate_splitOn '.'
  generalize name.splitOn '.' = parts at h hjoin
  obtain ⟨base, hbase, h⟩ := Result.bind_eq_ok h
  obtain ⟨_, hfine, h⟩ := Result.bind_eq_ok h
  have hfine := ((Result.Decides.ensure _ _).of_eq_ok hfine).1
  simp only [not_or, not_lt, Bool.not_eq_false] at hfine
  obtain ⟨hlength, hne, hbase_le, hextension_le, hvalid⟩ := hfine
  cases h
  have hspelled : name = base ∧ parts[1]?.getD [] = [] ∨
      name = base ++ '.' :: parts[1]?.getD [] := by
    match parts, hbase, hlength with
    | [first], hbase, _ =>
      cases hbase
      exact .inl ⟨by simpa using hjoin.symm, rfl⟩
    | [first, second], hbase, _ =>
      cases hbase
      exact .inr (by simpa using hjoin.symm)
  refine ⟨base, _, ⟨hspelled, hne, hbase_le, hextension_le, fun c hc => ⟨hascii c ?_, ?_⟩⟩, rfl⟩
  · rcases hspelled with ⟨hname, hnil⟩ | hname
    · rwa [hname, ← append_nil base, ← hnil]
    · rw [hname]
      exact (mem_append.mp hc).elim (mem_append_left _)
        fun hc => mem_append_right _ (mem_cons_of_mem _ hc)
  · rw [asciiBytes, asciiBytes, ← map_append, all_map, all_eq_true] at hvalid
    exact hvalid c hc

/-- The shown name is the one in upper case without a dot at its end, and it is stored in the
same bytes; so two names share their bytes exactly when they are shown alike. -/
theorem shortName_canonical :
    (∀ name bytes, shortName name = .ok bytes →
      displayShortName bytes = .ok (canonicalName name) ∧
        shortName (canonicalName name) = .ok bytes) ∧
    ∀ m n a b, shortName m = .ok a → shortName n = .ok b →
      (a = b ↔ canonicalName m = canonicalName n) := by
  have hfirst : ∀ name bytes, shortName name = .ok bytes →
      displayShortName bytes = .ok (canonicalName name) ∧
        shortName (canonicalName name) = .ok bytes := by
    intro name bytes h
    obtain ⟨base, extension, hparts, rfl⟩ := parts_of_shortName h
    refine ⟨hparts.displayShortName_eq, ?_⟩
    rw [hparts.upper.shortName_eq, hparts.stored_upper]
  refine ⟨hfirst, ?_⟩
  intro m n a b hm hn
  obtain ⟨hshown, hstored⟩ := hfirst m a hm
  obtain ⟨hshown', hstored'⟩ := hfirst n b hn
  constructor
  · rintro rfl
    exact Except.ok.inj (hshown.symm.trans hshown')
  · intro hsame
    rw [hsame] at hstored
    exact Except.ok.inj (hstored.symm.trans hstored')

theorem shortName_canonical_dot : displayShortName (stored ['a'] []) = .ok ['A'] :=
  (shortName_canonical.1 ['a', '.'] _ rfl).1

end NexOs.Storage
