import Mathlib.Data.List.ReduceOption

/-! Tables of slots. A slot is empty or holds a value, and values are told apart by a key. -/
namespace NexOs.Slots
open List

variable {α κ : Type} {l l' : List (Option α)} {i j n : Nat} {a b : α} {p : α → Bool} {key : α → κ}
  {f : α → α}

def value (l : List (Option α)) (i : Nat) : Option α := (l[i]?).join

def firstFree (l : List (Option α)) : Option Nat := l.findIdx? Option.isNone

def firstWhere (p : α → Bool) (l : List (Option α)) : Option Nat :=
  l.findIdx? fun slot => slot.any p

def update (i : Nat) (f : α → α) (l : List (Option α)) : List (Option α) :=
  l.modify i (Option.map f)

def occupied (l : List (Option α)) : Nat := l.countP Option.isSome

/-! ## The value in a slot -/

theorem value_eq_getElem (h : i < l.length) : value l i = l[i] := by
  rw [value, getElem?_eq_getElem h]
  rfl

theorem value_of_le (h : l.length ≤ i) : value l i = none := by
  rw [value, getElem?_eq_none h]
  rfl

theorem value_lt (h : value l i = some a) : i < l.length := by
  by_contra hge
  rw [value_of_le (Nat.le_of_not_lt hge)] at h
  cases h

theorem value_replicate (i : Nat) : value (replicate n (none : Option α)) i = none := by
  rw [value, getElem?_replicate]
  split <;> rfl

theorem value_set (h : i < l.length) (slot : Option α) :
    value (l.set i slot) j = if j = i then slot else value l j := by
  rw [value, value, getElem?_set]
  by_cases hj : j = i
  · rw [if_pos hj, if_pos hj.symm, if_pos h]
    rfl
  · rw [if_neg hj, if_neg (Ne.symm hj)]

theorem value_set_none : value (l.set i none) j = if j = i then none else value l j := by
  by_cases h : i < l.length
  · exact value_set h none
  · rw [set_eq_of_length_le (Nat.le_of_not_lt h)]
    split
    · rename_i hj
      exact value_of_le (hj ▸ Nat.le_of_not_lt h)
    · rfl

theorem value_update : value (update i f l) j = if j = i then (value l j).map f else value l j := by
  rw [value, value, update, getElem?_modify]
  cases l[j]? with
  | none => simp
  | some slot =>
    by_cases hj : j = i
    · simp [hj]
    · simp [hj, Ne.symm hj]

@[simp] theorem length_update : (update i f l).length = l.length :=
  length_modify ..

theorem update_update (g : α → α) : update i g (update i f l) = update i (g ∘ f) l := by
  rw [update, update, update, modify_modify_eq, Option.map_comp_map]

/-! ## Searches -/

theorem firstFree_eq_some (h : firstFree l = some i) :
    i < l.length ∧ value l i = none ∧ ∀ j < i, value l j ≠ none := by
  obtain ⟨hlt, hnone, hbefore⟩ := findIdx?_eq_some_iff_getElem.mp h
  refine ⟨hlt, ?_, ?_⟩
  · rw [value_eq_getElem hlt]
    exact Option.isNone_iff_eq_none.mp hnone
  · intro j hj hfree
    rw [value_eq_getElem (Nat.lt_trans hj hlt)] at hfree
    exact hbefore j hj (Option.isNone_iff_eq_none.mpr hfree)

theorem firstWhere_eq_some (h : firstWhere p l = some i) :
    ∃ a, value l i = some a ∧ p a = true := by
  obtain ⟨hlt, hany, _⟩ := findIdx?_eq_some_iff_getElem.mp h
  obtain ⟨a, ha, hp⟩ := Option.any_eq_true _ _ |>.mp hany
  exact ⟨a, (value_eq_getElem hlt).trans ha, hp⟩

theorem firstWhere_eq_none (h : firstWhere p l = none) (ha : value l i = some a) : p a = false := by
  have hlt := value_lt ha
  rw [value_eq_getElem hlt] at ha
  have hnone := findIdx?_eq_none_iff.mp h l[i] (getElem_mem hlt)
  rw [ha] at hnone
  exact hnone

theorem firstWhere_of_only (ha : value l i = some a) (hp : p a = true)
    (honly : ∀ j b, value l j = some b → p b = true → j = i) : firstWhere p l = some i := by
  cases hfind : firstWhere p l with
  | none =>
    rw [firstWhere_eq_none hfind ha] at hp
    cases hp
  | some j =>
    obtain ⟨b, hb, hpb⟩ := firstWhere_eq_some hfind
    rw [honly j b hb hpb]

theorem find?_reduceOption : l.reduceOption.find? p = (firstWhere p l).bind (value l) := by
  induction l with
  | nil => rfl
  | cons slot l ih =>
    have hshift : ∀ o : Option Nat,
        (o.map (· + 1)).bind (value (slot :: l)) = o.bind (value l) := by
      intro o
      cases o <;> rfl
    cases slot with
    | none =>
      have hnext : firstWhere p (none :: l) = (firstWhere p l).map (· + 1) := by
        rw [firstWhere, firstWhere, findIdx?_cons, Option.any_none, if_neg Bool.false_ne_true]
      rw [reduceOption_cons_of_none, ih, hnext, hshift]
    | some a =>
      rw [reduceOption_cons_of_some, find?_cons, firstWhere, findIdx?_cons, Option.any_some]
      cases hp : p a with
      | true => rfl
      | false =>
        rw [if_neg Bool.false_ne_true, hshift]
        exact ih

theorem mem_reduceOption : a ∈ l.reduceOption ↔ ∃ i, value l i = some a := by
  rw [reduceOption_mem_iff, mem_iff_getElem?]
  refine exists_congr fun i => ?_
  rw [value, Option.join_eq_some_iff]

/-! ## Keys -/

/-- No two slots hold the same key. -/
def Unique (key : α → κ) (l : List (Option α)) : Prop :=
  ∀ i j a b, value l i = some a → value l j = some b → key a = key b → i = j

/-- Every value of the later table has the key that its slot had before. -/
def Keeps (key : α → κ) (l l' : List (Option α)) : Prop :=
  ∀ i b, value l' i = some b → ∃ a, value l i = some a ∧ key b = key a

theorem Keeps.refl : Keeps key l l :=
  fun _ b hb => ⟨b, hb, rfl⟩

theorem keeps_update (hf : ∀ a, key (f a) = key a) : Keeps key l (update i f l) := by
  intro j b hb
  rw [value_update] at hb
  split at hb
  · obtain ⟨a, ha, rfl⟩ := Option.map_eq_some_iff.mp hb
    exact ⟨a, ha, hf a⟩
  · exact ⟨b, hb, rfl⟩

theorem keeps_set_none : Keeps key l (l.set i none) := by
  intro j b hb
  rw [value_set_none] at hb
  split at hb
  · cases hb
  · exact ⟨b, hb, rfl⟩

theorem unique_replicate : Unique key (replicate n none) := by
  intro i j a b ha
  rw [value_replicate] at ha
  cases ha

theorem Unique.keeps (h : Unique key l) (hk : Keeps key l l') : Unique key l' := by
  intro i j a b ha hb hkey
  obtain ⟨a', ha', hka⟩ := hk i a ha
  obtain ⟨b', hb', hkb⟩ := hk j b hb
  exact h i j a' b' ha' hb' (hka.symm.trans (hkey.trans hkb))

theorem Unique.insert_iff (h : Unique key l) (hi : i < l.length) (hfree : value l i = none) :
    Unique key (l.set i (some a)) ↔ ∀ j b, value l j = some b → key b ≠ key a := by
  have hself : value (l.set i (some a)) i = some a := by rw [value_set hi, if_pos rfl]
  have hother : ∀ {j}, j ≠ i → value (l.set i (some a)) j = value l j := by
    intro j hj
    rw [value_set hi, if_neg hj]
  constructor
  · intro hunique j b hb hkey
    have hj : j ≠ i := by
      rintro rfl
      rw [hfree] at hb
      cases hb
    exact hj (hunique j i b a ((hother hj).trans hb) hself hkey)
  · intro hfresh j k b c hb hc hkey
    by_cases hj : j = i
    · by_cases hk : k = i
      · exact hj.trans hk.symm
      · rw [hj, hself] at hb
        cases hb
        rw [hother hk] at hc
        exact absurd hkey.symm (hfresh k c hc)
    · rw [hother hj] at hb
      by_cases hk : k = i
      · rw [hk, hself] at hc
        cases hc
        exact absurd hkey (hfresh j b hb)
      · rw [hother hk] at hc
        exact h j k b c hb hc hkey

/-- Keys come from a counter: after `count` values it has handed out the numbers up to `count`,
and until `limit` of them are used the next one is new. -/
structure Numbered (limit : Nat) (key : α → Nat) (count next : Nat) (l : List (Option α)) :
    Prop where
  unique : Unique key l
  issued : ∀ i a, value l i = some a → key a ≤ count
  next_eq : count < limit → next = count + 1

theorem numbered_replicate (limit : Nat) (key : α → Nat) :
    Numbered limit key 0 1 (replicate n none) := by
  refine ⟨unique_replicate, ?_, fun _ => rfl⟩
  intro i a ha
  rw [value_replicate] at ha
  cases ha

section
variable {limit count next next' : Nat} {key : α → Nat}

section
variable (h : Numbered limit key count next l)
include h

theorem Numbered.keeps (hk : Keeps key l l') : Numbered limit key count next l' := by
  refine ⟨h.unique.keeps hk, ?_, h.next_eq⟩
  intro i b hb
  obtain ⟨a, ha, hkey⟩ := hk i b hb
  rw [hkey]
  exact h.issued i a ha

theorem Numbered.fresh (hcount : count < limit) (ha : value l i = some a) : key a < next := by
  rw [h.next_eq hcount]
  exact Nat.lt_succ_of_le (h.issued i a ha)

theorem Numbered.insert (hcount : count < limit) (hi : i < l.length) (hfree : value l i = none)
    (ha : key a = next) (hnext : count + 1 < limit → next' = next + 1) :
    Numbered limit key (count + 1) next' (l.set i (some a)) := by
  refine ⟨(h.unique.insert_iff hi hfree).mpr ?_, ?_, ?_⟩
  · intro j b hb
    rw [ha]
    exact Nat.ne_of_lt (h.fresh hcount hb)
  · intro j b hb
    rw [value_set hi] at hb
    split at hb
    · cases hb
      exact Nat.le_of_eq (ha.trans (h.next_eq hcount))
    · exact Nat.le_succ_of_le (h.issued j b hb)
  · intro hmore
    rw [hnext hmore, h.next_eq hcount]

end

/-- What a call may do to a table whose keys come from a counter: it takes no number and adds no
value, or it takes the next number for a value in a free slot. -/
inductive Issue (succ : Nat → Nat) (key : α → Nat) (next : Nat) (l : List (Option α)) :
    Option Nat → Nat → List (Option α) → Prop where
  | keep {l' : List (Option α)} (hkeeps : Keeps key l l') : Issue succ key next l none next l'
  | insert {i : Nat} {a : α} (hi : i < l.length) (hfree : value l i = none) (ha : key a = next) :
      Issue succ key next l (some next) (succ next) (l.set i (some a))

variable {succ : Nat → Nat} {number : Option Nat}

variable (h : Issue succ key next l number next' l')
include h

theorem Issue.unique_iff (hunique : Unique key l) :
    Unique key l' ↔ ∀ i a, value l i = some a → number ≠ some (key a) := by
  cases h with
  | keep hkeeps => exact iff_of_true (hunique.keeps hkeeps) nofun
  | insert hi hfree ha =>
    rw [hunique.insert_iff hi hfree, ha]
    refine forall_congr' fun j => forall_congr' fun b => forall_congr' fun _ => ?_
    rw [Ne, Ne, Option.some_inj, eq_comm]

theorem Issue.numbered
    (hn : Numbered limit key count next l) (hcount : count + number.toList.length ≤ limit)
    (hsucc : ∀ n < limit, succ n = n + 1) :
    Numbered limit key (count + number.toList.length) next' l' := by
  cases h with
  | keep hkeeps => exact hn.keeps hkeeps
  | insert hi hfree ha =>
    have hbelow : count < limit := hcount
    apply hn.insert hbelow hi hfree ha
    intro hmore
    apply hsucc
    rwa [hn.next_eq hbelow]

end

/-! ## Occupied slots -/

theorem occupied_replicate : occupied (replicate n (none : Option α)) = 0 := by
  rw [occupied, countP_replicate]
  rfl

theorem occupied_insert (hi : i < l.length) (hfree : value l i = none) (a : α) :
    occupied (l.set i (some a)) = occupied l + 1 := by
  rw [value_eq_getElem hi] at hfree
  rw [occupied, countP_set hi, hfree]
  rfl

theorem occupied_congr (hlength : l'.length = l.length)
    (h : ∀ i, (value l' i).isSome = (value l i).isSome) : occupied l' = occupied l := by
  have hmap : l'.map Option.isSome = l.map Option.isSome := by
    apply ext_getElem
    · rw [length_map, length_map, hlength]
    · intro i hi hi'
      rw [length_map] at hi hi'
      have hsame := h i
      rw [value_eq_getElem hi, value_eq_getElem hi'] at hsame
      rw [getElem_map, getElem_map, hsame]
  have hcount : ∀ m : List (Option α), occupied m = (m.map Option.isSome).countP id := by
    intro m
    rw [countP_map]
    rfl
  rw [hcount, hcount, hmap]

theorem occupied_update : occupied (update i f l) = occupied l := by
  apply occupied_congr length_update
  intro j
  rw [value_update]
  split
  · exact Option.isSome_map
  · rfl

theorem firstFree_eq_none_iff : firstFree l = none ↔ occupied l = l.length := by
  rw [firstFree, findIdx?_eq_none_iff, occupied, countP_eq_length]
  refine forall_congr' fun slot => forall_congr' fun _ => ?_
  cases slot <;> simp

theorem occupied_le (l : List (Option α)) : occupied l ≤ l.length := countP_le_length

end NexOs.Slots
