import NexOs.Lib.BitPolynomial
import NexOs.Storage.Installer

/-! The three checksum loops of the storage crate compute one function, the remainder of a
division of polynomials. -/
namespace NexOs.Storage
open List Polynomial BitPolynomial

/-- The divisor `0x04c11db7`, with its leading term. -/
noncomputable def generator : (ZMod 2)[X] := X ^ 32 + ofBits 32 (Nat.testBit 0x04c11db7)

/-- The first bit of a byte, the one with the highest power, is its lowest. -/
noncomputable def bytePolynomial (byte : UInt8) : (ZMod 2)[X] :=
  ofBits 8 fun i => byte.toNat.testBit (7 - i)

noncomputable def messagePolynomial (bytes : List UInt8) : (ZMod 2)[X] :=
  bytes.foldl (fun p byte => X ^ 8 * p + bytePolynomial byte) 0

/-- What division leaves of the message, moved up by 32 places and with the initial value added
to its first 32 bits. -/
noncomputable def remainder (bytes : List UInt8) : (ZMod 2)[X] :=
  (X ^ 32 * messagePolynomial bytes +
    X ^ (8 * bytes.length) * ofBits 32 (Nat.testBit 0xffffffff)) %ₘ generator

/-- The reflected CRC-32 of the standards: the highest coefficient is the lowest bit, and all bits
are inverted. -/
noncomputable def standardCrc32 (bytes : List UInt8) : Nat :=
  Nat.ofBits fun i : Fin 32 => decide ((remainder bytes).coeff (31 - i) = 0)

/-! ## The register -/

/-- The polynomial that the register holds. -/
noncomputable def register (crc : UInt32) : (ZMod 2)[X] :=
  ofBits 32 fun i => crc.toNat.testBit (31 - i)

variable {s : UInt32}

theorem register_xor (t : UInt32) : register (s ^^^ t) = register s + register t := by
  rw [register, register, register, ← ofBits_xor]
  simp only [UInt32.toNat_xor, Nat.testBit_xor]

theorem generator_eq : generator = X ^ 32 + register 0xedb88320 := by
  rw [generator, register, ofBits_congr]
  decide

theorem X_mul_register :
    X * register s = register (s >>> 1) + C ((s.toNat.testBit 0).toNat : ZMod 2) * X ^ 32 := by
  have hshift : (s >>> 1).toNat = s.toNat >>> 1 := rfl
  ext k
  rw [coeff_add, coeff_C_mul, coeff_X_pow, register, register, coeff_ofBits, hshift,
    Nat.testBit_shiftRight]
  cases k with
  | zero =>
    rw [Nat.testBit_lt_two_pow s.toNat_lt]
    simp
  | succ k =>
    rw [coeff_X_mul, coeff_ofBits]
    by_cases hk : k = 31
    · simp [hk]
    · by_cases hlt : k < 31
      · have hindex : 1 + (31 - (k + 1)) = 31 - k := by omega
        rw [hindex, if_pos (by omega), if_pos (by omega), if_neg (by omega), mul_zero, add_zero]
      · rw [if_neg (by omega), if_neg (by omega), if_neg (by omega), mul_zero, add_zero]

/-- One bit of the loop multiplies the register by `X` and subtracts the divisor at most once. -/
theorem register_crcBit : ∃ q, register (crcBit s) = X * register s + generator * q := by
  rw [X_mul_register, crcBit_eq, generator_eq]
  by_cases hodd : s.toNat % 2 = 1
  · refine ⟨1, ?_⟩
    rw [if_pos hodd, register_xor, Nat.testBit_zero, hodd]
    have htwo : (X ^ 32 + X ^ 32 : (ZMod 2)[X]) = 0 := CharTwo.add_self_eq_zero _
    simp only [decide_true, Bool.toNat_true, Nat.cast_one, map_one]
    rw [one_mul, mul_one, add_assoc, ← add_assoc (X ^ 32), htwo, zero_add]
  · refine ⟨0, ?_⟩
    rw [if_neg hodd, Nat.testBit_zero, decide_eq_false hodd]
    simp

theorem register_iterate (n : Nat) :
    ∃ q, register (crcBit^[n] s) = X ^ n * register s + generator * q := by
  induction n with
  | zero => exact ⟨0, by simp⟩
  | succ n ih =>
    obtain ⟨q, hq⟩ := ih
    obtain ⟨r, hr⟩ := register_crcBit
    refine ⟨X * q + r, ?_⟩
    rw [Function.iterate_succ_apply', hr, hq]
    ring

theorem register_toUInt32 (byte : UInt8) :
    register byte.toUInt32 = X ^ 24 * bytePolynomial byte := by
  ext k
  rw [coeff_X_pow_mul', register, coeff_ofBits, bytePolynomial, coeff_ofBits]
  by_cases hk : 24 ≤ k
  · rw [if_pos hk]
    have hindex : 7 - (k - 24) = 31 - k := by omega
    rw [hindex]
    congr 1
    simp
    omega
  · rw [if_neg hk, if_pos (by omega), Nat.testBit_lt_two_pow, Bool.toNat_false, Nat.cast_zero]
    calc byte.toNat < 2 ^ 8 := byte.toNat_lt
      _ ≤ 2 ^ (31 - k) := Nat.pow_le_pow_right (by decide) (by omega)

theorem register_crcByte (byte : UInt8) : ∃ q, register (crcByte s byte) =
    X ^ 8 * register s + X ^ 32 * bytePolynomial byte + generator * q := by
  obtain ⟨q, hq⟩ := register_iterate 8
  refine ⟨q, ?_⟩
  change register (crcBit^[8] _) = _
  rw [hq, register_xor, register_toUInt32]
  ring

variable {bytes : List UInt8}

/-- After every byte the register holds the message so far, up to a multiple of the divisor. -/
theorem register_foldl : ∃ q, register (bytes.foldl crcByte s) =
    X ^ 32 * messagePolynomial bytes + X ^ (8 * bytes.length) * register s + generator * q := by
  induction bytes using reverseRecOn with
  | nil => exact ⟨0, by simp [messagePolynomial]⟩
  | append_singleton bytes byte ih =>
    obtain ⟨q, hq⟩ := ih
    obtain ⟨r, hr⟩ := register_crcByte byte
    have hmessage : messagePolynomial (bytes ++ [byte]) =
        X ^ 8 * messagePolynomial bytes + bytePolynomial byte := foldl_append
    refine ⟨X ^ 8 * q + r, ?_⟩
    rw [foldl_append, foldl_cons, foldl_nil, hr, hq, hmessage, length_append, length_singleton]
    ring

theorem remainder_eq : remainder bytes = register (bytes.foldl crcByte 0xffffffff) := by
  obtain ⟨q, hq⟩ := register_foldl
  exact modByMonic_eq_ofBits hq

theorem crc32_eq_standardCrc32 (bytes : List UInt8) : (crc32 bytes).toNat = standardCrc32 bytes := by
  have hnot (s : UInt32) : (~~~s).toNat = 2 ^ 32 - (s.toNat + 1) := by
    rw [UInt32.toNat_not, UInt32.size]
    omega
  apply Nat.eq_of_testBit_eq
  intro i
  rw [standardCrc32, remainder_eq, crc32, hnot, Nat.testBit_two_pow_sub_succ (UInt32.toNat_lt _)]
  by_cases hi : i < 32
  · have hindex : 31 - (31 - i) = i := by omega
    rw [Nat.testBit_ofBits_lt _ _ hi, register, coeff_ofBits, if_pos (by omega), hindex]
    cases (bytes.foldl crcByte 0xffffffff).toNat.testBit i <;> simp [hi]
  · rw [Nat.testBit_ofBits_ge _ _ (by omega), decide_eq_false hi, Bool.false_and]

/-! ## The other loops -/

theorem finish_foldl_update (chunks : List (List UInt8)) (crc : Crc32) :
    (chunks.foldl Crc32.update crc).finish = ~~~(chunks.flatten.foldl crcByte crc.state) := by
  induction chunks generalizing crc with
  | nil => rfl
  | cons chunk chunks ih => rw [foldl_cons, ih, flatten_cons, foldl_append, Crc32.update]

/-- The pieces of a text give the checksum of the whole, a header's checksum is that of the header
with its own field zeroed, and the checksum is the standard one. -/
theorem checksums_agree :
    (∀ chunks : List (List UInt8),
      (chunks.foldl Crc32.update Crc32.new).finish = crc32 chunks.flatten) ∧
    (∀ bytes : List UInt8, gptHeaderCrc32 bytes =
      (crc32 (bytes.mapIdx fun i byte => if 16 ≤ i ∧ i < 20 then 0 else byte)).toNat) ∧
    ∀ bytes : List UInt8, (crc32 bytes).toNat = standardCrc32 bytes := by
  exact ⟨fun chunks => finish_foldl_update chunks _, gptHeaderCrc32_mapIdx, crc32_eq_standardCrc32⟩

end NexOs.Storage
