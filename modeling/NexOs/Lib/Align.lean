import NexOs.Lib.Bytes

/-! Masks that keep a run of bits of a number, and rounding to a power of two with them. -/
namespace NexOs.Align
open Bytes

theorem and_mask (x k m : Nat) : x &&& (2 ^ m - 1) * 2 ^ k = x / 2 ^ k % 2 ^ m * 2 ^ k := by
  apply Nat.eq_of_testBit_eq
  intro i
  rw [Nat.testBit_and, Nat.testBit_mul_two_pow, Nat.testBit_mul_two_pow, Nat.testBit_mod_two_pow, Nat.testBit_div_two_pow]
  by_cases hk : k ≤ i
  · simp [hk, Bool.and_comm]
  · simp [hk]

theorem or_and_of_disjoint (h : y &&& m = 0) : (x ||| y) &&& m = x &&& m := by
  rw [Nat.and_or_distrib_right, h, Nat.or_zero]

theorem or_and_absorb (x m : Nat) : (x ||| m) &&& m = m := by
  apply Nat.eq_of_testBit_eq
  intro i
  rw [Nat.testBit_and, Nat.testBit_or]
  cases x.testBit i <;> cases m.testBit i <;> rfl

/-- `!x` on 64 bits. -/
def notU64 (x : Nat) : Nat := u64Limit - 1 - x

theorem and_notU64 (hx : x < 2 ^ 64) (hk : k ≤ 64) :
    x &&& notU64 (2 ^ k - 1) = x / 2 ^ k * 2 ^ k := by
  have hpos := Nat.two_pow_pos k
  have hsplit : (2 : Nat) ^ 64 = 2 ^ (64 - k) * 2 ^ k := by
    rw [← Nat.pow_add, Nat.sub_add_cancel hk]
  have hmask : notU64 (2 ^ k - 1) = (2 ^ (64 - k) - 1) * 2 ^ k := by
    rw [notU64, u64Limit, Nat.sub_mul]
    omega
  have hquotient : x / 2 ^ k < 2 ^ (64 - k) := by
    rw [Nat.div_lt_iff_lt_mul hpos, ← hsplit]
    exact hx
  rw [hmask, and_mask, Nat.mod_eq_of_lt hquotient]

end NexOs.Align
