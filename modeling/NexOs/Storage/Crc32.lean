import Mathlib.Data.Nat.Bitwise

/-! The reflected CRC-32 of every on-disk record. A change within four consecutive
bytes changes it. -/
namespace NexOs.Storage
open List

def crcBit (crc : UInt32) : UInt32 := (crc >>> 1) ^^^ (0xedb88320 &&& (0 - (crc &&& 1)))

def crcByte (crc : UInt32) (byte : UInt8) : UInt32 :=
  (List.range 8).foldl (fun crc _ => crcBit crc) (crc ^^^ byte.toUInt32)

def crc32 (bytes : List UInt8) : UInt32 := ~~~(bytes.foldl crcByte 0xffffffff)

example : crc32 [0x31, 0x32, 0x33, 0x34, 0x35, 0x36, 0x37, 0x38, 0x39] = 0xcbf43926 := by
  decide +kernel

variable {crc : UInt32}

theorem crcBit_eq :
    crcBit crc = if crc.toNat % 2 = 1 then (crc >>> 1) ^^^ 0xedb88320 else crc >>> 1 := by
  have hlow : crc &&& 1 = if crc.toNat % 2 = 1 then 1 else 0 := by
    apply UInt32.toNat_inj.mp
    split <;> simp_all
  rw [crcBit, hlow]
  split
  · rfl
  · simp

theorem crcBit_xor (a b : UInt32) : crcBit (a ^^^ b) = crcBit a ^^^ crcBit b := by
  have hodd : (a ^^^ b).toNat % 2 = (a.toNat + b.toNat) % 2 := by
    rw [UInt32.toNat_xor, Nat.xor_mod_two_eq]
  rw [crcBit_eq, crcBit_eq, crcBit_eq, UInt32.shiftRight_xor]
  generalize (0xedb88320 : UInt32) = p
  generalize a >>> 1 = x
  generalize b >>> 1 = y
  rcases Nat.mod_two_eq_zero_or_one a.toNat with ha | ha <;>
    rcases Nat.mod_two_eq_zero_or_one b.toNat with hb | hb
  · rw [if_neg (by omega), if_neg (by omega), if_neg (by omega)]
  · rw [if_pos (by omega), if_neg (by omega), if_pos (by omega), UInt32.xor_assoc]
  · rw [if_pos (by omega), if_pos (by omega), if_neg (by omega)]
    ac_rfl
  · rw [if_neg (by omega), if_pos (by omega), if_pos (by omega)]
    calc x ^^^ y = (x ^^^ y) ^^^ (p ^^^ p) := by simp
      _ = (x ^^^ p) ^^^ (y ^^^ p) := by ac_rfl

theorem toNat_of_crcBit (h : (crcBit crc).toNat < 2 ^ 31) : crc.toNat = 2 * (crcBit crc).toNat := by
  have hshift : (crc >>> 1).toNat = crc.toNat / 2 := by
    exact Nat.shiftRight_eq_div_pow _ 1
  have hlt := crc.toNat_lt
  rw [crcBit_eq] at h ⊢
  split at h
  · have hbit := Nat.testBit_lt_two_pow h
    have hlow : (crc >>> 1).toNat < 2 ^ 31 := by omega
    rw [UInt32.toNat_xor, Nat.testBit_xor, Nat.testBit_lt_two_pow hlow] at hbit
    exact absurd hbit (by decide)
  · rw [if_neg ‹_›]
    omega

theorem crcByte_xor (s t : UInt32) (a b : UInt8) :
    crcByte (s ^^^ t) (a ^^^ b) = crcByte s a ^^^ crcByte t b := by
  have hmix : s ^^^ t ^^^ (a ^^^ b).toUInt32 = (s ^^^ a.toUInt32) ^^^ (t ^^^ b.toUInt32) := by
    ac_rfl
  rw [crcByte, hmix]
  simp only [crcByte, range_succ, range_zero, foldl_append, foldl_cons, foldl_nil, crcBit_xor]

theorem toNat_of_iterate_crcBit (h : (crcBit^[n] crc).toNat < 2 ^ k) (hk : n + k ≤ 32) :
    crc.toNat = 2 ^ n * (crcBit^[n] crc).toNat := by
  induction n generalizing crc with
  | zero => simp
  | succ n ih =>
    rw [Function.iterate_succ_apply] at h ⊢
    have hrest := ih h (by omega)
    have hlt : (crcBit crc).toNat < 2 ^ 31 := by
      rw [hrest]
      calc 2 ^ n * (crcBit^[n] (crcBit crc)).toNat < 2 ^ n * 2 ^ k :=
            Nat.mul_lt_mul_of_pos_left h (Nat.two_pow_pos n)
        _ = 2 ^ (n + k) := (Nat.pow_add 2 n k).symm
        _ ≤ 2 ^ 31 := Nat.pow_le_pow_right (by decide) (by omega)
    rw [toNat_of_crcBit hlt, hrest, Nat.pow_succ', Nat.mul_assoc]

theorem toNat_of_crcByte {s t : UInt32} {a b : UInt8} {k : Nat} (hk : k ≤ 3)
    (h : (crcByte s a ^^^ crcByte t b).toNat < 2 ^ (8 * k)) :
    ((s ^^^ t) ^^^ (a ^^^ b).toUInt32).toNat = 2 ^ 8 * (crcByte s a ^^^ crcByte t b).toNat := by
  rw [← crcByte_xor] at h ⊢
  exact toNat_of_iterate_crcBit (n := 8) h (by omega)

theorem foldl_crcByte_inj {bytes : List UInt8} {s t : UInt32}
    (h : bytes.foldl crcByte s = bytes.foldl crcByte t) : s = t := by
  induction bytes generalizing s t with
  | nil => exact h
  | cons b bytes ih =>
    have hdiff := @toNat_of_crcByte s t b b 0 (by decide) (by simp [ih h])
    simpa [ih h, ← UInt32.toNat_inj] using hdiff

theorem toNat_xor_lt {xs ys : List UInt8} (hlen : xs.length = ys.length) (hfour : xs.length ≤ 4) (h : xs.foldl crcByte s = ys.foldl crcByte t) :
    (s ^^^ t).toNat < 2 ^ (8 * xs.length) := by
  induction xs generalizing ys s t with
  | nil =>
    cases eq_nil_of_length_eq_zero hlen.symm
    simp [show s = t from h]
  | cons a xs ih =>
    cases ys with
    | nil => cases hlen
    | cons b ys =>
      rw [length_cons] at hfour
      have hrest := ih (Nat.succ.inj hlen) (by omega) h
      have hdiff := toNat_of_crcByte (by omega) hrest
      have hself : s ^^^ t = ((s ^^^ t) ^^^ (a ^^^ b).toUInt32) ^^^ (a ^^^ b).toUInt32 := by
        rw [UInt32.xor_assoc, UInt32.xor_self, UInt32.xor_zero]
      have hpow : 2 ^ (8 * (a :: xs).length) = 2 ^ 8 * 2 ^ (8 * xs.length) := by
        rw [length_cons, Nat.mul_succ, Nat.add_comm, Nat.pow_add]
      have hbyte : (a ^^^ b).toUInt32.toNat < 2 ^ 8 := (a ^^^ b).toNat_lt
      rw [hself, UInt32.toNat_xor]
      apply Nat.xor_lt_two_pow
      · rw [hdiff, hpow]
        exact Nat.mul_lt_mul_of_pos_left hrest (by decide)
      · exact hbyte.trans_le (Nat.pow_le_pow_right (by decide) (by rw [length_cons]; omega))

theorem eq_of_foldl_crcByte {xs ys : List UInt8} (hlen : xs.length = ys.length)
    (hfour : xs.length ≤ 4) (h : xs.foldl crcByte s = ys.foldl crcByte s) :
    xs = ys := by
  induction xs generalizing ys s with
  | nil => exact (eq_nil_of_length_eq_zero hlen.symm).symm
  | cons a xs ih =>
    cases ys with
    | nil => cases hlen
    | cons b ys =>
      rw [length_cons] at hfour
      have hrest := toNat_xor_lt (Nat.succ.inj hlen) (by omega) h
      have hdiff := toNat_of_crcByte (by omega) hrest
      rw [UInt32.xor_self, UInt32.zero_xor] at hdiff
      have hbyte : (a ^^^ b).toUInt32.toNat < 2 ^ 8 := (a ^^^ b).toNat_lt
      have hzero : (a ^^^ b).toNat = 0 := show (a ^^^ b).toUInt32.toNat = 0 by omega
      have hab : a = b := UInt8.xor_eq_zero_iff.mp (UInt8.toNat_inj.mp hzero)
      subst hab
      rw [ih (Nat.succ.inj hlen) (by omega) h]

/-- Strings of one length that differ only within four consecutive bytes have different checksums. -/
theorem eq_of_crc32_eq {xs ys : List UInt8} (start : Nat) (hlen : xs.length = ys.length)
    (h : ∀ i, xs[i]? ≠ ys[i]? → start ≤ i ∧ i < start + 4) (hsum : crc32 xs = crc32 ys) :
    xs = ys := by
  have htake : xs.take start = ys.take start := by
    apply ext_getElem?
    intro i
    rw [getElem?_take, getElem?_take]
    split
    · by_contra hne
      have := h i hne
      omega
    · rfl
  have hdrop : xs.drop (start + 4) = ys.drop (start + 4) := by
    apply ext_getElem?
    intro i
    rw [getElem?_drop, getElem?_drop]
    by_contra hne
    have := h _ hne
    omega
  have hsplit (zs : List UInt8) :
      zs = zs.take start ++ ((zs.drop start).take 4 ++ zs.drop (start + 4)) := by
    rw [← drop_drop, take_append_drop, take_append_drop]
  have hfold : xs.foldl crcByte 0xffffffff = ys.foldl crcByte 0xffffffff := UInt32.not_inj.mp hsum
  rw [hsplit xs, hsplit ys, htake, hdrop] at hfold ⊢
  simp only [foldl_append] at hfold
  rw [eq_of_foldl_crcByte (by simp [hlen]) (length_take_le 4 _) (foldl_crcByte_inj hfold)]

end NexOs.Storage
