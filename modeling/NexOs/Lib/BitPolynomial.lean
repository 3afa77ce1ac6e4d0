import Mathlib.Algebra.Field.ZMod
import Mathlib.Algebra.Polynomial.Div
import Mathlib.Algebra.Polynomial.OfFn

/-! Polynomials over the field with two elements, given by the bits of their coefficients. -/
namespace NexOs.BitPolynomial
open Polynomial

noncomputable def ofBits (n : Nat) (bit : Nat → Bool) : (ZMod 2)[X] :=
  ofFn n fun i => ((bit i).toNat : ZMod 2)

variable {n k : Nat} {bit bit' : Nat → Bool}

theorem coeff_ofBits : (ofBits n bit).coeff k = if k < n then ((bit k).toNat : ZMod 2) else 0 := by
  split
  · exact ofFn_coeff_eq_val_of_lt _ ‹_›
  · exact ofFn_coeff_eq_zero_of_ge _ (Nat.le_of_not_lt ‹_›)

theorem ofBits_congr (h : ∀ i < n, bit i = bit' i) : ofBits n bit = ofBits n bit' := by
  rw [ofBits]
  congr 1
  funext i
  rw [h i i.isLt]

theorem ofBits_xor : ofBits n (fun i => bit i ^^ bit' i) = ofBits n bit + ofBits n bit' := by
  rw [ofBits, ofBits, ofBits, ← map_add]
  congr 1
  funext i
  cases hb : bit i <;> cases hb' : bit' i <;> simp [hb, hb']
  decide

theorem monic_X_pow_add_ofBits : (X ^ n + ofBits n bit).Monic := monic_X_pow_add (ofFn_degree_lt _)

theorem modByMonic_eq_ofBits {divisor : Nat → Bool}
    (h : ofBits n bit = f + (X ^ n + ofBits n divisor) * q) :
    f %ₘ (X ^ n + ofBits n divisor) = ofBits n bit := by
  refine (div_modByMonic_unique (-q) _ monic_X_pow_add_ofBits ⟨?_, ?_⟩).2
  · rw [h]
    ring
  · have hlow : (ofBits n divisor).degree < (X ^ n : (ZMod 2)[X]).degree := by
      rw [degree_X_pow]
      exact ofFn_degree_lt _
    rw [degree_add_eq_left_of_degree_lt hlow, degree_X_pow]
    exact ofFn_degree_lt _

end NexOs.BitPolynomial
