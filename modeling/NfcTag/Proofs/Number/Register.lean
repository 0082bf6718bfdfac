/-
# NfcTag.Proofs.Number.Register -- what bitwise operations do to whole numbers

A register holds the whole part of a number modulo `2 ^ 32`, whether it is read with its
sign or without (`register_ofSigned`, `register_ofUnsigned`).  So masking and shifting
are remainder and quotient (`toByte_mask`, `toNat_register_shiftRightZeros`), and
shifting up and down again is the signed remainder (`shiftRight_shiftLeft_ofInt`).
-/
import NfcTag.Codec
import NfcTag.Number.Register
import NfcTag.Proofs.Number.Exact

namespace NfcTag.Binary64

set_option autoImplicit false

variable {v : Binary64} {bits : BitVec 32} {n : Nat}

/-! ## Registers as numbers -/

theorem truncate_ofUnsigned (bits : BitVec 32) : (ofUnsigned bits).truncate = bits.toNat := by
  have small := bits.isLt
  exact truncate_ofInt (by omega)

theorem truncate_ofSigned (bits : BitVec 32) : (ofSigned bits).truncate = bits.toInt := by
  have least := bits.le_toInt
  have most := bits.toInt_lt
  exact truncate_ofInt (by omega)

theorem register_ofUnsigned (bits : BitVec 32) : (ofUnsigned bits).register = bits := by
  rw [register, truncate_ofUnsigned, BitVec.ofInt_natCast, BitVec.ofNat_toNat, BitVec.setWidth_eq]

theorem register_ofSigned (bits : BitVec 32) : (ofSigned bits).register = bits := by
  rw [register, truncate_ofSigned, BitVec.ofInt_toInt]

theorem register_ofInt (small : n < 0x20000000000000) :
    (ofInt n).register = BitVec.ofNat 32 n := by
  rw [register, truncate_ofInt (by omega), BitVec.ofInt_natCast]

/-- The register of a number is its whole part, wrapped to four bytes. -/
theorem toNat_register (v : Binary64) : v.register.toNat = Codec.wrap 4 v.truncate :=
  BitVec.toNat_ofInt v.truncate

/-! ## Masks and shifts -/

/-- What is masked off is the low byte. -/
theorem toByte_mask (v : Binary64) : (v.mask 0xff).toByte = UInt8.ofNat v.register.toNat := by
  have low : (v.register &&& 0xff).toNat = v.register.toNat % 256 :=
    (BitVec.toNat_and ..).trans (Nat.and_two_pow_sub_one_eq_mod v.register.toNat 8)
  have plain : (v.register &&& 0xff).toInt = (v.register &&& 0xff).toNat :=
    BitVec.toInt_eq_toNat_of_lt (by omega)
  have masked : (v.mask 0xff).truncate = (v.register.toNat % 256 : Nat) := by
    rw [mask, truncate_ofSigned, plain, low]
  have stored := toNat_toByte (v.mask 0xff)
  rw [masked] at stored
  apply UInt8.toNat_inj.mp
  rw [UInt8.toNat_ofNat']
  omega

/-- What is shifted down is the rest. -/
theorem toNat_register_shiftRightZeros (v : Binary64) :
    (v.shiftRightZeros 8).register.toNat = v.register.toNat / 256 := by
  rw [shiftRightZeros, register_ofUnsigned, BitVec.toNat_ushiftRight]
  exact Nat.shiftRight_eq_div_pow v.register.toNat 8

/-- Shifted up to the top of the register and down again, a number is wrapped with a
sign to the bits that were left. -/
theorem shiftRight_shiftLeft_ofInt {count modulus : Nat} (fill : 1 <<< count * modulus = 0x100000000)
    (even : 2 ∣ modulus) (small : n < 0x20000000000000) :
    ((ofInt n).shiftLeft count).shiftRight count = ofInt ((n : Int).bmod modulus) := by
  have positive := one_shiftLeft_pos count
  have shifted : ((BitVec.ofNat 32 n) <<< count).toInt =
      (1 <<< count : Nat) * (n : Int).bmod modulus := by
    rw [← Int.mod_bmod_mul_of_pos n modulus positive even, fill, BitVec.toInt_shiftLeft,
      BitVec.toNat_ofNat, ← mul_one_shiftLeft, Int.natCast_mul, Int.natCast_emod,
      Int.mul_comm (1 <<< count : Nat)]
    exact Int.emod_mul_bmod n _
  have down (m : Int) : m >>> count = m / (1 <<< count : Nat) := by
    rw [Int.shiftRight_eq_div_pow, Nat.shiftLeft_eq, Nat.one_mul]
  rw [shiftLeft, shiftRight, register_ofSigned, register_ofInt small, ofSigned,
    BitVec.toInt_sshiftRight, shifted, down, Int.mul_ediv_cancel_left _ (by omega)]

/-- With nothing joined to it a number is wrapped to the register. -/
theorem join_zero_ofInt (small : n < 0x20000000000000) :
    (ofInt n).join 0 = ofInt ((n : Int).bmod 0x100000000) := by
  have same : (ofInt n).register ||| 0 = (ofInt n).register := BitVec.or_zero
  rw [join, same, register, truncate_ofInt (by omega), ofSigned, BitVec.toInt_ofInt]

/-! ## Patterns as numbers -/

theorem register_singlePattern (v : Binary64) : v.singlePattern.register = v.toSingle.toBitVec := by
  have small := v.toSingle.toNat_lt
  rw [singlePattern, register_ofInt (by omega), UInt32.toNat, BitVec.ofNat_toNat,
    BitVec.setWidth_eq]

theorem ofSinglePattern_ofInt (small : n < 0x20000000000000) :
    ofSinglePattern (ofInt n) = ofSingle (UInt32.ofNat n) := by
  rw [ofSinglePattern, register_ofInt small]
  rfl

theorem ofDoublePattern_natCast (pattern : Nat) :
    ofDoublePattern pattern = ofBits (UInt64.ofNat pattern) := by
  have cut : UInt64.ofInt pattern = UInt64.ofNat pattern := by
    show UInt64.ofNat ((pattern : Int) % 0x10000000000000000).toNat = _
    apply UInt64.toNat_inj.mp
    rw [UInt64.toNat_ofNat', UInt64.toNat_ofNat']
    omega
  rw [ofDoublePattern, cut]

/-! ## Growing by a byte -/

theorem pushByte_ofInt (small : n < 0x20000000000000) (byte : UInt8) :
    (ofInt n).pushByte byte = ofInt (n * 256 + byte.toNat : Nat) := by
  have total : (n : Int).natAbs * Datum.one * 256 + byte.toNat * Datum.one =
      (n * 256 + byte.toNat) * Datum.one := by
    rw [Int.natAbs_natCast, Nat.mul_right_comm, ← Nat.add_mul]
  have sum : ((((n : Int).natAbs * Datum.one : Nat) : Int) * 256 +
      (byte.toNat * Datum.one : Nat)) = ((n * 256 + byte.toNat) * Datum.one : Nat) := by
    rw [← total]
    rfl
  have plus (m : Nat) : decide ((m : Int) < 0) = false := decide_eq_false (by omega)
  rw [pushByte, datum_ofInt (by omega), plus]
  simp only [Bool.false_eq_true, if_false, sum]
  rw [ofInt, plus, plus, Int.natAbs_natCast, Int.natAbs_natCast]

end NfcTag.Binary64
