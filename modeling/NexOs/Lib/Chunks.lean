import Mathlib.Data.List.Nodup
import NexOs.Lib.Bytes

/-! Buffers put together from pieces: consecutive ranges, and the
concatenation of chunks of one size. -/
namespace NexOs.Bytes
open List Function

section
variable {α : Type} {xs ys zs : List α} {a b n m : Nat}

theorem slice_add (xs : List α) (a m n : Nat) :
    slice xs a (m + n) = slice xs a m ++ slice xs (a + m) n := by
  simp only [slice, take_add, drop_drop]

theorem splice_splice_append (h : a + ys.length ≤ xs.length) :
    splice (splice xs a ys) (a + ys.length) zs = splice xs a (ys ++ zs) := by
  have ha : (xs.take a).length = a := by
    rw [length_take]
    omega
  have hlen : (xs.take a ++ ys).length = a + ys.length := by
    rw [length_append, ha]
  simp only [splice]
  rw [take_append_of_le_length hlen.ge, take_of_length_le hlen.le, drop_append,
    drop_of_length_le (by omega), drop_drop]
  simp only [append_assoc, length_append, nil_append]
  congr 4
  omega

theorem splice_append_right (h : xs.length ≤ a) :
    splice (xs ++ ys) a zs = xs ++ splice ys (a - xs.length) zs := by
  simp only [splice, take_append, drop_append, append_assoc,
    take_of_length_le h, drop_of_length_le (Nat.le_add_right_of_le h), nil_append]
  congr 4
  omega

theorem splice_nil : splice xs a [] = xs := by
  simp [splice]

theorem splice_range (h : b + n ≤ xs.length) (hm : m + ys.length ≤ n) :
    splice xs b (splice (slice xs b n) m ys) = splice xs (b + m) ys := by
  have hs : m + ys.length ≤ (slice xs b n).length := by rwa [length_slice h]
  have hlen : (splice (slice xs b n) m ys).length = n := by
    rw [length_splice hs, length_slice h]
  have hb : b + (splice (slice xs b n) m ys).length ≤ xs.length := by rwa [hlen]
  have hbm : b + m + ys.length ≤ xs.length := by omega
  apply ext_getElem?
  intro i
  rw [getElem?_splice hb, getElem?_splice hbm, hlen, getElem?_splice hs, getElem?_slice]
  by_cases h1 : i < b
  · rw [if_pos h1, if_pos (by omega)]
  · rw [if_neg h1]
    by_cases h2 : i < b + n
    · rw [if_pos h2, if_pos (show i - b < n by omega), show b + (i - b) = i by omega,
        show i - b - m = i - (b + m) by omega]
      have h3 : i - b < m ↔ i < b + m := by omega
      have h4 : i - b < m + ys.length ↔ i < b + m + ys.length := by omega
      simp only [h3, h4]
    · rw [if_neg h2, if_neg (by omega), if_neg (by omega)]

theorem take_splice_end (h : a ≤ xs.length) (hm : m = a + ys.length) :
    (splice xs a ys).take m = xs.take a ++ ys := by
  rw [splice, take_left']
  rw [length_append, length_take]
  omega

theorem take_splice_append (hn : n ≤ xs.length) (ha : a ≤ n) :
    (splice (xs ++ zs) a ys).take (max n (a + ys.length)) = splice (xs.take n) a ys := by
  have hfront : (xs ++ zs).take a = xs.take a := take_append_of_le_length (by omega)
  have hlen : (xs.take a ++ ys).length = a + ys.length := by
    rw [length_append, length_take]
    omega
  have htail : ((xs ++ zs).drop (a + ys.length)).take (max n (a + ys.length) - (a + ys.length)) =
      (xs.take n).drop (a + ys.length) := by
    by_cases hle : n ≤ a + ys.length
    · rw [Nat.max_eq_right hle, Nat.sub_self, take_zero,
        drop_of_length_le (by rw [length_take]; omega)]
    · rw [Nat.max_eq_left (by omega), drop_append_of_le_length (by omega),
        take_append_of_le_length (by rw [length_drop]; omega), drop_take]
  rw [splice, splice, hfront, take_append, hlen, htail, take_of_length_le (by omega),
    take_take, Nat.min_eq_left ha]

end

section
variable {ι α : Type} {l : List ι} {f : ι → List α} {k i : Nat} {x : ι}

theorem length_flatMap_chunks (h : ∀ x ∈ l, (f x).length = k) :
    (l.flatMap f).length = k * l.length := by
  induction l with
  | nil => rfl
  | cons x l ih =>
    rw [flatMap_cons, length_append, h x mem_cons_self,
      ih fun y hy => h y (mem_cons_of_mem _ hy), length_cons, Nat.mul_succ, Nat.add_comm]

theorem slice_flatMap_chunks (h : ∀ x ∈ l, (f x).length = k) (hi : l[i]? = some x) :
    slice (l.flatMap f) (k * i) k = f x := by
  induction l generalizing i with
  | nil => simp at hi
  | cons y l ih =>
    have hy := h y mem_cons_self
    cases i with
    | zero =>
      cases hi
      rw [flatMap_cons, Nat.mul_zero, slice_append_left (by omega), slice_full _ hy.symm]
    | succ i =>
      rw [flatMap_cons, slice_append_right (by rw [Nat.mul_succ]; omega), hy,
        Nat.mul_succ, Nat.add_sub_cancel]
      exact ih (fun z hz => h z (mem_cons_of_mem _ hz)) (by simpa using hi)

theorem writeFields_stride {f : ι → List UInt8} (h : ∀ x ∈ l, (f x).length = k)
    {base : List UInt8} (hfit : a + k * l.length ≤ base.length) :
    writeFields base (l.zipIdx.map fun p => (a + p.2 * k, f p.1)) = splice base a (l.flatMap f) := by
  induction l using reverseRecOn with
  | nil => exact splice_nil.symm
  | append_singleton l x ih =>
    rw [length_append, Nat.mul_add] at hfit
    have hl : ∀ y ∈ l, (f y).length = k := fun y hy => h y (mem_append_left _ hy)
    have hlength := length_flatMap_chunks hl
    have hoffset : a + (0 + l.length) * k = a + (l.flatMap f).length := by
      rw [hlength, Nat.zero_add, Nat.mul_comm]
    rw [zipIdx_append, map_append, writeFields_append, ih hl (by omega)]
    simp only [zipIdx_cons, zipIdx_nil, map_cons, map_nil, writeFields, foldl_cons, foldl_nil]
    rw [hoffset, splice_splice_append (by omega), flatMap_append, flatMap_singleton]

theorem flatMap_update [DecidableEq ι] (h : ∀ x ∈ l, (f x).length = k) (hnd : l.Nodup)
    (hi : l[i]? = some x) (hys : ys.length = k) :
    l.flatMap (update f x ys) = splice (l.flatMap f) (k * i) ys := by
  induction l generalizing i with
  | nil => simp at hi
  | cons y l ih =>
    have hy := h y mem_cons_self
    have hnd := nodup_cons.mp hnd
    cases i with
    | zero =>
      cases hi
      have hrest : l.flatMap (update f x ys) = l.flatMap f :=
        flatMap_congr fun z hz => update_of_ne (by rintro rfl; exact hnd.1 hz) ..
      rw [flatMap_cons, update_self, hrest, flatMap_cons, Nat.mul_zero,
        splice_append_left (by omega), splice_full (hys.trans hy.symm)]
    | succ i =>
      have hx : x ∈ l := mem_of_getElem? (by simpa using hi)
      have hne : y ≠ x := by
        rintro rfl
        exact hnd.1 hx
      rw [flatMap_cons, update_of_ne hne, flatMap_cons,
        splice_append_right (by rw [Nat.mul_succ]; omega), hy, Nat.mul_succ, Nat.add_sub_cancel,
        ih (fun z hz => h z (mem_cons_of_mem _ hz)) hnd.2 (by simpa using hi)]

end

theorem prefix_of_range (h : range n = l ++ c :: r) : l = range c ∧ c < n := by
  rw [range_eq_range', range'_eq_append_iff] at h
  obtain ⟨k, hk, rfl, hr⟩ := h
  rw [eq_comm, range'_eq_cons_iff] at hr
  obtain ⟨rfl, hpos, -⟩ := hr
  rw [Nat.zero_add, range_eq_range']
  exact ⟨by rw [Nat.mul_one], by omega⟩

end NexOs.Bytes
