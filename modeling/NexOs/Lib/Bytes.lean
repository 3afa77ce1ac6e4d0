import Mathlib.Data.Vector.Defs
import Mathlib.Data.List.Basic
import Mathlib.Data.Nat.Bitwise
import NexOs.Lib.Exec

/-! Ranges of a buffer, fixed-width little-endian numbers and single bits.
Reading and writing a range are total here; `rangeOf` and `getLe` are the
checked forms, which panic outside the buffer. -/
namespace NexOs.Bytes
open List hiding Vector

/-- `length` elements from `start` on, fewer where the buffer ends. -/
def slice (xs : List α) (start length : Nat) : List α := (xs.drop start).take length

/-- Overwrite the elements from `start` on by `ys`. -/
def splice (xs : List α) (start : Nat) (ys : List α) : List α :=
  xs.take start ++ ys ++ xs.drop (start + ys.length)

variable {α : Type} {xs ys zs : List α} {bytes : List UInt8}

section
variable {a b n m : Nat} {x : α}

theorem length_slice (h : a + n ≤ xs.length) : (slice xs a n).length = n := by
  simp only [slice, length_take, length_drop]
  omega

theorem length_slice_le : (slice xs a n).length ≤ n := by
  rw [slice, length_take]
  exact Nat.min_le_left _ _

theorem length_splice (h : a + ys.length ≤ xs.length) : (splice xs a ys).length = xs.length := by
  simp only [splice, length_append, length_take, length_drop]
  omega

theorem take_set {n k : Nat} (v : Vector α n) (h : k < n) :
    (v.set k x h).toList.take (k + 1) = v.toList.take k ++ [x] := by
  have hlist : k < v.toList.length := by rwa [Vector.length_toList]
  rw [Vector.toList_set, take_add_one, getElem?_set_self hlist, take_set_of_le (Nat.le_refl _)]
  rfl

theorem getElem?_slice (xs : List α) (a n i : Nat) :
    (slice xs a n)[i]? = if i < n then xs[a + i]? else none := by
  simp only [slice, getElem?_take, getElem?_drop]

section
variable (h : a + ys.length ≤ xs.length)
include h

theorem getElem?_splice (i : Nat) : (splice xs a ys)[i]? =
      if i < a then xs[i]? else if i < a + ys.length then ys[i - a]? else xs[i]? := by
  have ha : (xs.take a).length = a := by
    rw [length_take]
    omega
  unfold splice
  rw [append_assoc]
  by_cases h1 : i < a
  · rw [getElem?_append_left (by omega), getElem?_take_of_lt h1, if_pos h1]
  · rw [getElem?_append_right (by omega), ha, if_neg h1]
    by_cases h2 : i < a + ys.length
    · rw [getElem?_append_left (by omega), if_pos h2]
    · rw [getElem?_append_right (by omega), getElem?_drop, if_neg h2]
      congr 1
      omega

theorem slice_splice_self : slice (splice xs a ys) a ys.length = ys := by
  apply ext_getElem?
  intro i
  rw [getElem?_slice, getElem?_splice h]
  by_cases hi : i < ys.length
  · rw [if_pos hi, if_neg (by omega), if_pos (by omega), Nat.add_sub_cancel_left]
  · rw [if_neg hi, getElem?_eq_none (by omega)]

theorem slice_splice_of_disjoint
    (hd : b + n ≤ a ∨ a + ys.length ≤ b) : slice (splice xs a ys) b n = slice xs b n := by
  apply ext_getElem?
  intro i
  rw [getElem?_slice, getElem?_slice, getElem?_splice h]
  by_cases hi : i < n
  · rw [if_pos hi, if_pos hi]
    by_cases h1 : b + i < a
    · rw [if_pos h1]
    · rw [if_neg h1, if_neg (by omega)]
  · rw [if_neg hi, if_neg hi]

end

theorem slice_slice (h : b + m ≤ n) : slice (slice xs a n) b m = slice xs (a + b) m := by
  apply ext_getElem?
  intro i
  rw [getElem?_slice, getElem?_slice, getElem?_slice]
  by_cases hi : i < m
  · rw [if_pos hi, if_pos hi, if_pos (by omega), Nat.add_assoc]
  · rw [if_neg hi, if_neg hi]

theorem slice_splice_within (h : a + ys.length ≤ xs.length) (hb : a ≤ b)
    (hn : b + n ≤ a + ys.length) : slice (splice xs a ys) b n = slice ys (b - a) n := by
  have hself := slice_splice_self h
  have hslice := @slice_slice _ (splice xs a ys) a (b - a) ys.length n (by omega)
  rw [hself] at hslice
  rw [hslice, Nat.add_sub_cancel' hb]

theorem splice_splice_self (h : a + ys.length ≤ xs.length) (hz : zs.length = ys.length) :
    splice (splice xs a ys) a zs = splice xs a zs := by
  have hs : a + zs.length ≤ (splice xs a ys).length := by
    rw [length_splice h]
    omega
  apply ext_getElem?
  intro i
  rw [getElem?_splice hs, getElem?_splice h, getElem?_splice (by omega)]
  by_cases h1 : i < a
  · simp only [if_pos h1]
  · simp only [if_neg h1, hz]
    by_cases h2 : i < a + ys.length
    · simp only [if_pos h2]
    · simp only [if_neg h2]

theorem splice_slice_self (h : a + n ≤ xs.length) : splice xs a (slice xs a n) = xs := by
  have hs : a + (slice xs a n).length ≤ xs.length := by rwa [length_slice h]
  apply ext_getElem?
  intro i
  rw [getElem?_splice hs, getElem?_slice, length_slice h]
  by_cases h1 : i < a
  · rw [if_pos h1]
  · rw [if_neg h1]
    by_cases h2 : i < a + n
    · rw [if_pos h2, if_pos (by omega)]
      congr 1
      omega
    · rw [if_neg h2]

theorem splice_full (h : ys.length = xs.length) : splice xs 0 ys = ys := by
  simp [splice, h]

theorem slice_full (xs : List α) (h : n = xs.length) : slice xs 0 n = xs := by
  simp [slice, h]

theorem slice_congr (h : ∀ i < n, xs[a + i]? = ys[b + i]?) : slice xs a n = slice ys b n := by
  apply ext_getElem?
  intro i
  rw [getElem?_slice, getElem?_slice]
  by_cases hi : i < n
  · rw [if_pos hi, if_pos hi, h i hi]
  · rw [if_neg hi, if_neg hi]

theorem slice_take (h : a + n ≤ m) : slice (xs.take m) a n = slice xs a n :=
  slice_congr fun _ _ => getElem?_take_of_lt (by omega)

theorem take_splice (h : a + ys.length ≤ n) (hn : n ≤ xs.length) :
    (splice xs a ys).take n = splice (xs.take n) a ys := by
  apply ext_getElem?
  intro i
  rw [getElem?_take, getElem?_splice (by omega),
    getElem?_splice (by rw [length_take]; omega), getElem?_take]
  by_cases hi : i < n
  · simp only [if_pos hi]
  · simp only [if_neg hi]
    rw [if_neg (by omega), if_neg (by omega)]

theorem slice_append_left (h : a + n ≤ xs.length) : slice (xs ++ ys) a n = slice xs a n :=
  slice_congr fun _ _ => getElem?_append_left (by omega)

theorem slice_append_right (h : xs.length ≤ a) :
    slice (xs ++ ys) a n = slice ys (a - xs.length) n := by
  apply slice_congr
  intro i _
  rw [getElem?_append_right (by omega)]
  congr 1
  omega

theorem slice_replicate (x : α) (h : a + n ≤ m) : slice (replicate m x) a n = replicate n x := by
  apply ext_getElem?
  intro i
  rw [getElem?_slice, getElem?_replicate, getElem?_replicate]
  by_cases hi : i < n
  · rw [if_pos hi, if_pos hi, if_pos (by omega)]
  · rw [if_neg hi, if_neg hi]

theorem splice_append_left (h : a + ys.length ≤ xs.length) :
    splice (xs ++ zs) a ys = splice xs a ys ++ zs := by
  simp only [splice, append_assoc]
  rw [take_append_of_le_length (by omega), drop_append_of_le_length h]

theorem splice_splice_adjacent (h : a + zs.length = b) (hb : b ≤ xs.length) :
    splice (splice xs b ys) a zs = xs.take a ++ (zs ++ (ys ++ xs.drop (b + ys.length))) := by
  have hlength : (xs.take b).length = b := by
    rw [length_take, Nat.min_eq_left hb]
  have htake : (splice xs b ys).take a = xs.take a := by
    rw [splice, append_assoc, take_append_of_le_length (by omega), take_take,
      Nat.min_eq_left (by omega)]
  have hdrop : (splice xs b ys).drop b = ys ++ xs.drop (b + ys.length) := by
    rw [splice, append_assoc, drop_left' hlength]
  rw [splice, htake, h, hdrop, append_assoc]

end

/-! ## Changes inside a part -/

section
variable {p q : Nat → Prop} {a n : Nat}

/-- Lists of one length that agree at every place outside `p`. -/
structure SameOutside (p : Nat → Prop) (xs ys : List α) : Prop where
  length : ys.length = xs.length
  agree : ∀ i, ¬p i → ys[i]? = xs[i]?

theorem SameOutside.mono (h : SameOutside p xs ys) (hq : ∀ i, p i → q i) : SameOutside q xs ys :=
  ⟨h.length, fun i hi => h.agree i fun hp => hi (hq i hp)⟩

theorem SameOutside.trans (h : SameOutside p xs ys) (h' : SameOutside p ys zs) :
    SameOutside p xs zs :=
  ⟨h'.length.trans h.length, fun i hi => (h'.agree i hi).trans (h.agree i hi)⟩

theorem SameOutside.splice (h : a + ys.length ≤ xs.length) :
    SameOutside (fun i => a ≤ i ∧ i < a + ys.length) xs (splice xs a ys) where
  length := length_splice h
  agree i hi := by
    rw [getElem?_splice h]
    by_cases ha : i < a
    · rw [if_pos ha]
    · rw [if_neg ha, if_neg fun hb => hi ⟨by omega, hb⟩]

theorem SameOutside.slice (h : SameOutside p xs ys) (hd : ∀ i, a ≤ i → i < a + n → ¬p i) :
    slice ys a n = slice xs a n := by
  apply ext_getElem?
  intro i
  rw [getElem?_slice, getElem?_slice]
  split
  · exact h.agree _ (hd _ (by omega) (by omega))
  · rfl

end

/-- `bytes[start..stop]`, which panics unless `start ≤ stop ≤ bytes.len()`. -/
def rangeOf (xs : List α) (start stop : Nat) : Result ε (List α) :=
  if start ≤ stop ∧ stop ≤ xs.length then .ok (slice xs start (stop - start)) else .error .panic

variable {start i a n b width value offset : Nat} {ε : Type} {e : ε}

theorem rangeOf_eq (h : start ≤ stop ∧ stop ≤ xs.length) :
    (rangeOf xs start stop : Result ε (List α)) = .ok (slice xs start (stop - start)) :=
  if_pos h

/-- `xs[i]` -/
def index (xs : List α) (i : Nat) : Result ε α :=
  match xs[i]? with
  | some a => .ok a
  | none => .error .panic

theorem index_eq {a : α} (h : xs[i]? = some a) : (index xs i : Result ε α) = .ok a := by
  simp [index, h]

def byteAt (bytes : List UInt8) (i : Nat) : UInt8 := bytes[i]?.getD 0

theorem index_byte (h : i < bytes.length) :
    (index bytes i : Result ε UInt8) = .ok (byteAt bytes i) :=
  index_eq (by rw [byteAt, getElem?_eq_getElem h, Option.getD_some])

theorem byteAt_slice (h : i < n) : byteAt (slice bytes a n) i = byteAt bytes (a + i) := by
  rw [byteAt, getElem?_slice, if_pos h, byteAt]

theorem byteAt_of_slice {b : UInt8} (h : slice bytes i 1 = [b]) : byteAt bytes i = b := by
  have hself : byteAt (slice bytes i 1) 0 = byteAt bytes (i + 0) := byteAt_slice (by decide)
  rw [h] at hself
  exact hself.symm

/-- `xs[i] = a` -/
def store (xs : List α) (i : Nat) (a : α) : Result ε (List α) :=
  if i < xs.length then .ok (xs.set i a) else .error .panic

theorem store_eq {a : α} (h : i < xs.length) :
    (store xs i a : Result ε (List α)) = .ok (xs.set i a) :=
  if_pos h

/-- `xs[start..start + ys.len()].copy_from_slice(ys)` -/
def copyInto (xs : List α) (start : Nat) (ys : List α) : Result ε (List α) :=
  if start + ys.length ≤ xs.length then .ok (splice xs start ys) else .error .panic

theorem copyInto_eq (h : start + ys.length ≤ xs.length) :
    (copyInto xs start ys : Result ε (List α)) = .ok (splice xs start ys) :=
  if_pos h

/-- The checked copy `xs[start..start + length].copy_from_slice(ys)`. -/
def copyFromSlice (xs : List α) (start length : Nat) (ys : List α) : Result ε (List α) :=
  if start + length ≤ xs.length ∧ ys.length = length then .ok (splice xs start ys)
  else .error .panic

theorem copyFromSlice_eq {length : Nat} (h : start + length ≤ xs.length) (hlen : ys.length = length) :
    (copyFromSlice xs start length ys : Result ε (List α)) = .ok (splice xs start ys) :=
  if_pos ⟨h, hlen⟩

/-! Unsigned 64-bit arithmetic: the checked operations return `none`, the
plain ones panic on overflow. -/

def u64Limit : Nat := 2 ^ 64

def checkedAdd (a b : Nat) : Option Nat := if a + b < u64Limit then some (a + b) else none
def checkedMul (a b : Nat) : Option Nat := if a * b < u64Limit then some (a * b) else none
def checkedSub (a b : Nat) : Option Nat := if b ≤ a then some (a - b) else none
def saturatingAdd (a b : Nat) : Nat := min (a + b) (u64Limit - 1)

def addU64 (a b : Nat) : Result ε Nat := if a + b < u64Limit then .ok (a + b) else .error .panic
def mulU64 (a b : Nat) : Result ε Nat := if a * b < u64Limit then .ok (a * b) else .error .panic
def subU64 (a b : Nat) : Result ε Nat := if b ≤ a then .ok (a - b) else .error .panic

/-- The checked and the panicking operations of `u32`. -/
def checkedAddU32 (a b : Nat) : Option Nat := if a + b < 2 ^ 32 then some (a + b) else none
def checkedMulU32 (a b : Nat) : Option Nat := if a * b < 2 ^ 32 then some (a * b) else none
def addU32 (a b : Nat) : Result ε Nat := if a + b < 2 ^ 32 then .ok (a + b) else .error .panic
def mulU32 (a b : Nat) : Result ε Nat := if a * b < 2 ^ 32 then .ok (a * b) else .error .panic

theorem checkedAddU32_getD (h : n < 2 ^ 32 - 1) : (checkedAddU32 n 1).getD 1 = n + 1 := by
  have hadd : checkedAddU32 n 1 = some (n + 1) := if_pos (by omega)
  rw [hadd]
  rfl

theorem addU64_eq (h : a + b < 2 ^ 64) : (addU64 a b : Result ε Nat) = .ok (a + b) :=
  if_pos h

theorem mulU64_eq (h : a * b < 2 ^ 64) : (mulU64 a b : Result ε Nat) = .ok (a * b) :=
  if_pos h

theorem subU64_eq (h : b ≤ a) : (subU64 a b : Result ε Nat) = .ok (a - b) :=
  if_pos h

theorem checkedAdd_eq (h : a + b < 2 ^ 64) : checkedAdd a b = some (a + b) :=
  if_pos h

theorem checkedAdd_none (h : ¬a + b < 2 ^ 64) : checkedAdd a b = none := if_neg h

/-- `o.is_none_or(p)` -/
def isNoneOr (o : Option α) (p : α → Bool) : Bool :=
  match o with
  | none => true
  | some a => p a

theorem isNoneOr_checkedAdd {p : Nat → Bool} :
    isNoneOr (checkedAdd a b) p = false ↔ a + b < 2 ^ 64 ∧ p (a + b) = false := by
  by_cases h : a + b < 2 ^ 64
  · rw [checkedAdd_eq h]
    exact (and_iff_right h).symm
  · rw [checkedAdd_none h]
    exact ⟨fun hn => Bool.noConfusion hn, fun hn => absurd hn.1 h⟩

theorem checkedMul_eq (h : a * b < 2 ^ 64) : checkedMul a b = some (a * b) :=
  if_pos h

theorem checkedMul_none (h : ¬a * b < 2 ^ 64) : checkedMul a b = none :=
  if_neg h

theorem checkedAdd_decides :
    Result.Decides (Result.okOr (checkedAdd a b) e) (a + b < 2 ^ 64) (a + b) :=
  .okOr_ite

theorem checkedMul_decides :
    Result.Decides (Result.okOr (checkedMul a b) e) (a * b < 2 ^ 64) (a * b) :=
  .okOr_ite

theorem checkedSub_eq (h : b ≤ a) : checkedSub a b = some (a - b) :=
  if_pos h

theorem saturatingAdd_lt : saturatingAdd a b < 2 ^ 64 := by
  simp only [saturatingAdd, u64Limit]
  omega

/-! Little-endian numbers. -/

def leBytes : Nat → Nat → List UInt8
  | 0, _ => []
  | width + 1, value => UInt8.ofNat value :: leBytes width (value / 256)

def ofLe : List UInt8 → Nat
  | [] => 0
  | b :: rest => b.toNat + 256 * ofLe rest

@[simp] theorem length_leBytes : (leBytes width value).length = width := by
  induction width generalizing value with
  | zero => rfl
  | succ width ih => simp [leBytes, ih]

theorem ofLe_leBytes : ofLe (leBytes width value) = value % 256 ^ width := by
  induction width generalizing value with
  | zero => simp [leBytes, ofLe, Nat.mod_one]
  | succ width ih =>
    rw [leBytes, ofLe, ih, UInt8.toNat_ofNat', Nat.pow_succ 256, Nat.mul_comm (256 ^ width),
      Nat.mod_mul]

theorem ofLe_leBytes_of_lt (h : value < 256 ^ width) : ofLe (leBytes width value) = value := by
  rw [ofLe_leBytes, Nat.mod_eq_of_lt h]

theorem ofLe_lt : ofLe bytes < 256 ^ bytes.length := by
  induction bytes with
  | nil => simp [ofLe]
  | cons b rest ih =>
    have hb := b.toNat_lt
    simp only [ofLe, length_cons, Nat.pow_succ]
    omega

theorem leBytes_ofLe (bytes : List UInt8) : leBytes bytes.length (ofLe bytes) = bytes := by
  induction bytes with
  | nil => rfl
  | cons b rest ih =>
    have hb := b.toNat_lt
    have hdiv : (b.toNat + 256 * ofLe rest) / 256 = ofLe rest := by omega
    have hlow : UInt8.ofNat (b.toNat + 256 * ofLe rest) = b := by
      rw [← UInt8.toNat_inj, UInt8.toNat_ofNat']
      omega
    rw [length_cons, ofLe, leBytes, hdiv, ih, hlow]

/-- The number stored in `width` bytes from `offset` on. -/
def le (bytes : List UInt8) (offset width : Nat) : Nat := ofLe (slice bytes offset width)

/-- The checked read `from_le_bytes(bytes[offset..offset + width])`. -/
def getLe (width : Nat) (bytes : List UInt8) (offset : Nat) : Result ε Nat :=
  if offset + width ≤ bytes.length then .ok (le bytes offset width) else .error .panic

theorem getLe_eq (h : offset + width ≤ bytes.length) :
    (getLe width bytes offset : Result ε Nat) = .ok (le bytes offset width) :=
  if_pos h

theorem le_lt (bytes : List UInt8) (offset width : Nat) : le bytes offset width < 256 ^ width :=
  ofLe_lt.trans_le (Nat.pow_le_pow_right (by decide) length_slice_le)

theorem leBytes_le (h : offset + width ≤ bytes.length) :
    leBytes width (le bytes offset width) = slice bytes offset width := by
  have hself := leBytes_ofLe (slice bytes offset width)
  rwa [length_slice h] at hself

theorem ofLe_replicate_zero (k : Nat) : ofLe (replicate k 0) = 0 := by
  induction k with
  | zero => rfl
  | succ k ih => simp [replicate_succ, ofLe, ih]

theorem le_slice (h : offset + width ≤ n) :
    le (slice bytes a n) offset width = le bytes (a + offset) width := by
  rw [le, slice_slice h, le]

theorem le_of_slice_zero (h : slice bytes offset width = replicate width 0) :
    le bytes offset width = 0 := by
  rw [le, h, ofLe_replicate_zero]

theorem le_nil (offset width : Nat) : le [] offset width = 0 := by
  simp [le, slice, ofLe]

theorem le_splice_self (h : offset + width ≤ bytes.length) (hv : value < 256 ^ width) :
    le (splice bytes offset (leBytes width value)) offset width = value := by
  have hs : slice (splice bytes offset (leBytes width value)) offset
      (leBytes width value).length = leBytes width value :=
    slice_splice_self (by simpa using h)
  rw [length_leBytes] at hs
  rw [le, hs, ofLe_leBytes_of_lt hv]

theorem le_splice_of_disjoint {ys : List UInt8} (h : a + ys.length ≤ bytes.length)
    (hd : b + width ≤ a ∨ a + ys.length ≤ b) :
    le (splice bytes a ys) b width = le bytes b width := by
  rw [le, slice_splice_of_disjoint h hd, le]

theorem le_replicate_zero (h : offset + width ≤ m) : le (replicate m 0) offset width = 0 :=
  le_of_slice_zero (slice_replicate _ h)

/-! Records: fields written one after the other at fixed offsets. -/

/-- Write each field's bytes at its offset, in order. -/
def writeFields (base : List UInt8) (fields : List (Nat × List UInt8)) : List UInt8 :=
  fields.foldl (fun bytes field => splice bytes field.1 field.2) base

theorem writeFields_append (base : List UInt8) (fs gs : List (Nat × List UInt8)) :
    writeFields base (fs ++ gs) = writeFields (writeFields base fs) gs := foldl_append

def Apart (f g : Nat × List UInt8) : Prop :=
  f.1 + f.2.length ≤ g.1 ∨ g.1 + g.2.length ≤ f.1

/-- The fields lie in the first `size` bytes and share none. -/
structure Laid (size : Nat) (fields : List (Nat × List UInt8)) : Prop where
  bound : ∀ f ∈ fields, f.1 + f.2.length ≤ size
  apart : fields.Pairwise Apart

section
variable {base : List UInt8} {fields : List (Nat × List UInt8)} {size : Nat}

theorem length_writeFields (h : ∀ f ∈ fields, f.1 + f.2.length ≤ base.length) :
    (writeFields base fields).length = base.length := by
  induction fields generalizing base with
  | nil => rfl
  | cons f rest ih =>
    have hf := h f mem_cons_self
    have hl := length_splice hf
    rw [← hl]
    apply ih
    intro g hg
    rw [hl]
    exact h g (mem_cons_of_mem _ hg)

theorem slice_writeFields_of_apart {start length : Nat}
    (h : ∀ f ∈ fields, f.1 + f.2.length ≤ base.length)
    (ha : ∀ f ∈ fields, start + length ≤ f.1 ∨ f.1 + f.2.length ≤ start) :
    slice (writeFields base fields) start length = slice base start length := by
  induction fields generalizing base with
  | nil => rfl
  | cons f rest ih =>
    have hf := h f mem_cons_self
    have hl := length_splice hf
    simp only [writeFields, foldl_cons]
    have hrest : slice (writeFields (splice base f.1 f.2) rest) start length =
        slice (splice base f.1 f.2) start length := ih
      (fun g hg => by rw [hl]; exact h g (mem_cons_of_mem _ hg))
      (fun g hg => ha g (mem_cons_of_mem _ hg))
    rw [writeFields] at hrest
    rw [hrest, slice_splice_of_disjoint hf (ha f mem_cons_self)]

theorem writeFields_append_left (h : ∀ f ∈ fields, f.1 + f.2.length ≤ base.length)
    (rest : List UInt8) : writeFields (base ++ rest) fields = writeFields base fields ++ rest := by
  induction fields generalizing base with
  | nil => rfl
  | cons f fields ih =>
    have hf := h f mem_cons_self
    simp only [writeFields, foldl_cons]
    rw [splice_append_left hf]
    apply ih
    intro g hg
    rw [length_splice hf]
    exact h g (mem_cons_of_mem _ hg)

namespace Laid

section
variable (h : Laid size fields) (hbase : size ≤ base.length)
include h hbase

theorem fit : ∀ f ∈ fields, f.1 + f.2.length ≤ base.length :=
  fun f hf => (h.bound f hf).trans hbase

theorem slice_eq (hf : f ∈ fields) : slice (writeFields base fields) f.1 f.2.length = f.2 := by
  obtain ⟨hbound, hapart⟩ := h
  induction fields generalizing base with
  | nil => cases hf
  | cons g rest ih =>
    rw [forall_mem_cons] at hbound
    rw [pairwise_cons] at hapart
    have hg := hbound.1.trans hbase
    have hbase' : size ≤ (splice base g.1 g.2).length := by rwa [length_splice hg]
    change slice (writeFields (splice base g.1 g.2) rest) f.1 f.2.length = f.2
    rcases mem_cons.mp hf with rfl | hf
    · rw [slice_writeFields_of_apart (fun f hf => (hbound.2 f hf).trans hbase') hapart.1,
        slice_splice_self hg]
    · exact ih hbase' hf hbound.2 hapart.2

theorem le_eq (hf : (offset, leBytes width value) ∈ fields)
    (hv : value < 256 ^ width) : le (writeFields base fields) offset width = value := by
  have hslice := h.slice_eq hbase hf
  simp only [length_leBytes] at hslice
  rw [le, hslice, ofLe_leBytes_of_lt hv]

theorem getElem?_eq {input : List UInt8} (hfields : ∀ f ∈ fields, slice input f.1 f.2.length = f.2) (hgap : (∀ f ∈ fields, i < f.1 ∨ f.1 + f.2.length ≤ i) → input[i]? = base[i]?) :
    (writeFields base fields)[i]? = input[i]? := by
  by_cases hin : ∃ f ∈ fields, f.1 ≤ i ∧ i < f.1 + f.2.length
  · obtain ⟨f, hf, hlow, hhigh⟩ := hin
    have hboth := congrArg (·[i - f.1]?) ((h.slice_eq hbase hf).trans (hfields f hf).symm)
    simpa only [getElem?_slice, if_pos (show i - f.1 < f.2.length by omega),
      Nat.add_sub_cancel' hlow] using hboth
  · have hout : ∀ f ∈ fields, i < f.1 ∨ f.1 + f.2.length ≤ i := fun f hf => by
      by_contra hnot
      exact hin ⟨f, hf, by omega, by omega⟩
    have hslice : slice (writeFields base fields) i 1 = slice base i 1 :=
      slice_writeFields_of_apart (h.fit hbase) hout
    have hfirst := congrArg (·[0]?) hslice
    rw [hgap hout]
    simpa [getElem?_slice] using hfirst

end

/-! A record that starts out as zeros. -/

variable (h : Laid size fields)
include h

theorem length_zeros : (writeFields (replicate size 0) fields).length = size := by
  rw [length_writeFields (h.fit length_replicate.ge), length_replicate]

theorem slice_zeros (hf : f ∈ fields) :
    slice (writeFields (replicate size 0) fields) f.1 f.2.length = f.2 :=
  h.slice_eq length_replicate.ge hf

theorem le_zeros (hf : (offset, leBytes width value) ∈ fields) (hv : value < 256 ^ width) :
    le (writeFields (replicate size 0) fields) offset width = value :=
  h.le_eq length_replicate.ge hf hv

theorem slice_gap {start length : Nat} (hend : start + length ≤ size)
    (ha : ∀ f ∈ fields, start + length ≤ f.1 ∨ f.1 + f.2.length ≤ start) :
    slice (writeFields (replicate size 0) fields) start length = replicate length 0 := by
  rw [slice_writeFields_of_apart (h.fit length_replicate.ge) ha, slice_replicate 0 hend]

end Laid

end

/-! Bits of a byte string, least significant bit of the first byte first. -/

def bit (bytes : List UInt8) (i : Nat) : Bool := (bytes[i / 8]?.getD 0).toNat.testBit (i % 8)

/-- `byte |= 1 << shift` or `byte &= !(1 << shift)` -/
def setByteBit (byte : UInt8) (shift : Nat) (value : Bool) : UInt8 :=
  if value then byte ||| (1 <<< UInt8.ofNat shift) else byte &&& ~~~(1 <<< UInt8.ofNat shift)

def setBit (bytes : List UInt8) (i : Nat) (value : Bool) : List UInt8 :=
  bytes.set (i / 8) (setByteBit (bytes[i / 8]?.getD 0) (i % 8) value)

@[simp] theorem length_setBit (value : Bool) : (setBit bytes i value).length = bytes.length := by
  simp [setBit]

variable {shift i j : Nat} {byte : UInt8}

theorem testBit_one_shiftLeft_byte (hs : shift < 8) (hi : i < 8) :
    ((1 : UInt8) <<< UInt8.ofNat shift).toNat.testBit i = decide (shift = i) := by
  have h : ∀ s < 8, ∀ j < 8,
      ((1 : UInt8) <<< UInt8.ofNat s).toNat.testBit j = decide (s = j) := by decide
  exact h shift hs i hi

theorem testBit_setByteBit (value : Bool) (hs : shift < 8) (hi : i < 8) :
    (setByteBit byte shift value).toNat.testBit i =
      if shift = i then value else byte.toNat.testBit i := by
  have hbit := testBit_one_shiftLeft_byte hs hi
  have hnot : (~~~((1 : UInt8) <<< UInt8.ofNat shift)).toNat.testBit i = !decide (shift = i) := by
    have h : ∀ s < 8, ∀ j < 8,
        (~~~((1 : UInt8) <<< UInt8.ofNat s)).toNat.testBit j = !decide (s = j) := by decide
    exact h shift hs i hi
  cases value with
  | true =>
    simp only [setByteBit, ↓reduceIte, UInt8.toNat_or, Nat.testBit_or, hbit]
    by_cases h : shift = i <;> simp [h]
  | false =>
    simp only [setByteBit, Bool.false_eq_true, ↓reduceIte, UInt8.toNat_and, Nat.testBit_and, hnot]
    by_cases h : shift = i <;> simp [h]

theorem bit_setBit (h : i / 8 < bytes.length) (value : Bool) :
    bit (setBit bytes i value) j = if i = j then value else bit bytes j := by
  unfold bit setBit
  by_cases hb : i / 8 = j / 8
  · rw [← hb, getElem?_set_self h, Option.getD_some,
      testBit_setByteBit _ (Nat.mod_lt _ (by decide)) (Nat.mod_lt _ (by decide))]
    by_cases hm : i % 8 = j % 8
    · rw [if_pos hm, if_pos (by omega)]
    · rw [if_neg hm, if_neg (by omega)]
  · rw [getElem?_set_ne hb, if_neg (by omega)]

theorem bit_foldl_setBit {is : List Nat} (h : ∀ i ∈ is, i / 8 < bytes.length) :
    bit (is.foldl (fun bytes i => setBit bytes i true) bytes) j =
      (decide (j ∈ is) || bit bytes j) := by
  induction is generalizing bytes with
  | nil => simp
  | cons i is ih =>
    have hi := h i mem_cons_self
    rw [foldl_cons, ih (fun k hk => by
      rw [length_setBit]
      exact h k (mem_cons_of_mem _ hk)), bit_setBit hi]
    by_cases hij : i = j
    · simp [hij]
    · simp [hij, Ne.symm hij]

theorem bit_eq_false_of_length_le (h : 8 * bytes.length ≤ i) : bit bytes i = false := by
  unfold bit
  rw [getElem?_eq_none (by omega)]
  exact Nat.zero_testBit _

theorem bit_replicate_zero : bit (replicate n 0) i = false := by
  unfold bit
  rw [getElem?_replicate]
  split <;> exact Nat.zero_testBit _

/-- `value & (1 << shift) != 0`, as the bitmap readers test a bit. -/
theorem byte_and_shift_ne_zero (hs : shift < 8) :
    (byte &&& (1 <<< UInt8.ofNat shift) ≠ 0) ↔ byte.toNat.testBit shift = true := by
  have h : ∀ s < 8, ((1 : UInt8) <<< UInt8.ofNat s).toNat = 2 ^ s := by decide
  rw [Ne, ← UInt8.toNat_inj, UInt8.toNat_and, h shift hs, Nat.and_two_pow]
  cases byte.toNat.testBit shift <;> simp

end NexOs.Bytes
