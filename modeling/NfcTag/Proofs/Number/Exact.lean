/-
# NfcTag.Proofs.Number.Exact -- values that a format holds exactly

A finite value of a format is a significand moved up by a number of bits
(`Held`).  Rounding leaves such a value as it is (`nearest_held`, `units_held`),
so its pattern decodes to it again.

Main statement: `toInt?_ofInt`, by which whole numbers of up to 53 bits are exact
doubles.
-/
import NfcTag.Number.Binary64

namespace NfcTag

set_option autoImplicit false

theorem roundHalfEven_mul (q : Nat) {d : Nat} (positive : 0 < d) : roundHalfEven (q * d) d = q := by
  simp only [roundHalfEven, Nat.mul_div_cancel q positive, Nat.mul_mod_left, Nat.mul_zero,
    positive, true_or, if_true]

theorem one_shiftLeft_pos (shift : Nat) : 0 < 1 <<< shift := by
  rw [Nat.shiftLeft_eq, Nat.one_mul]
  exact Nat.two_pow_pos shift

theorem mul_one_shiftLeft (n shift : Nat) : n * 1 <<< shift = n <<< shift := by
  rw [Nat.shiftLeft_eq, Nat.shiftLeft_eq, Nat.one_mul]

theorem log2_shiftLeft {n : Nat} (nonzero : n ≠ 0) (shift : Nat) :
    (n <<< shift).log2 = n.log2 + shift := by
  have moved : n <<< shift ≠ 0 := by
    rw [Nat.shiftLeft_eq]
    exact Nat.mul_ne_zero nonzero (Nat.ne_of_gt (Nat.two_pow_pos shift))
  rw [Nat.log2_eq_iff moved, Nat.shiftLeft_eq, Nat.add_right_comm, Nat.pow_add, Nat.pow_add]
  constructor
  · exact Nat.mul_le_mul_right _ (Nat.log2_self_le nonzero)
  · exact Nat.mul_lt_mul_of_pos_right Nat.lt_log2_self (Nat.two_pow_pos shift)

namespace Interchange

/-- The format holds `significand` with `shift` zero bits behind it: the
significand is short enough, has its full width above the smallest shift, and
the pattern is none of infinity or NaN. -/
structure Held (F : Interchange) (significand shift : Nat) : Prop where
  quantum_le : F.quantum ≤ shift
  short : significand < 1 <<< (F.fractionBits + 1)
  normal : 1 <<< F.fractionBits ≤ significand ∨ shift = F.quantum
  finite : (shift - F.quantum) <<< F.fractionBits + significand < F.infinity

variable {F : Interchange} {significand shift : Nat}

theorem Held.spacing_eq (held : F.Held significand shift) :
    F.spacing (significand <<< shift) = shift := by
  have least := held.quantum_le
  have short := held.short
  rw [Nat.shiftLeft_eq, Nat.one_mul] at short
  rw [spacing]
  by_cases zero : significand = 0
  · have lowest : shift = F.quantum := by
      obtain wide | lowest := held.normal
      · rw [zero, Nat.shiftLeft_eq, Nat.one_mul] at wide
        exact absurd (Nat.lt_of_lt_of_le (Nat.two_pow_pos _) wide) (Nat.lt_irrefl 0)
      · exact lowest
    rw [zero, Nat.zero_shiftLeft, Nat.log2_zero, Nat.zero_sub, Nat.max_eq_left (Nat.zero_le _),
      lowest]
  · have log := log2_shiftLeft zero shift
    have narrow : significand.log2 < F.fractionBits + 1 := (Nat.log2_lt zero).mpr short
    obtain wide | lowest := held.normal
    · rw [Nat.shiftLeft_eq, Nat.one_mul] at wide
      have full : F.fractionBits ≤ significand.log2 := (Nat.le_log2 zero).mpr wide
      omega
    · omega

/-- What is held needs no rounding. -/
theorem nearest_held (held : F.Held significand shift) :
    F.nearest (significand <<< shift) =
      (shift - F.quantum) <<< F.fractionBits + significand := by
  rw [nearest]
  simp only [held.spacing_eq]
  rw [← mul_one_shiftLeft significand, roundHalfEven_mul significand (one_shiftLeft_pos shift),
    Nat.min_eq_right (Nat.le_of_lt held.finite)]

/-- A significand with `shift` zero bits behind it is the value of the pattern that packs
the two.  This is so even of one that is a bit too long: it carries into the exponent
field. -/
theorem units_packed (least : F.quantum ≤ shift)
    (short : significand ≤ 1 <<< (F.fractionBits + 1))
    (normal : 1 <<< F.fractionBits ≤ significand ∨ shift = F.quantum) :
    F.units ((shift - F.quantum) <<< F.fractionBits + significand) = significand <<< shift := by
  have double : 1 <<< (F.fractionBits + 1) = 2 * 1 <<< F.fractionBits := by
    rw [Nat.shiftLeft_succ]
  have positive := one_shiftLeft_pos F.fractionBits
  rw [double] at short
  rw [units, ← mul_one_shiftLeft (shift - F.quantum)]
  generalize 1 <<< F.fractionBits = leadingOne at short normal positive
  simp only [Nat.mul_comm (shift - F.quantum)]
  by_cases wide : leadingOne ≤ significand
  · obtain rfl | narrow := Nat.eq_or_lt_of_le short
    · -- One bit too long, the leading one counts as two more in the exponent field.
      have split : leadingOne * (shift - F.quantum) + 2 * leadingOne =
          leadingOne * (shift - F.quantum + 2) := by
        rw [Nat.mul_add, Nat.mul_comm 2]
      have last : F.quantum + (shift - F.quantum + 2) - 1 = shift + 1 := by omega
      rw [split, Nat.mul_div_right _ positive, Nat.mul_mod_right, if_neg (by omega), last,
        Nat.add_zero, Nat.shiftLeft_succ_inside]
    · -- The leading one of the significand counts as one more in the exponent field.
      have split : leadingOne * (shift - F.quantum) + significand =
          leadingOne * (shift - F.quantum + 1) + (significand - leadingOne) := by
        rw [Nat.mul_succ]
        omega
      have fraction : significand - leadingOne < leadingOne := by omega
      rw [split, Nat.mul_add_div positive, Nat.mul_add_mod, Nat.div_eq_of_lt fraction,
        Nat.mod_eq_of_lt fraction, if_neg (by omega)]
      congr 1 <;> omega
  · have lowest : shift = F.quantum := normal.resolve_left wide
    rw [lowest, Nat.sub_self, Nat.mul_zero, Nat.zero_add,
      Nat.div_eq_of_lt (Nat.lt_of_not_le wide), Nat.mod_eq_of_lt (Nat.lt_of_not_le wide),
      if_pos rfl]

theorem units_held (held : F.Held significand shift) :
    F.units ((shift - F.quantum) <<< F.fractionBits + significand) = significand <<< shift :=
  units_packed held.quantum_le (Nat.le_of_lt held.short) held.normal

/-! ## Signs -/

/-- The magnitude of a pattern is what is left without its sign. -/
theorem signed_mod (negative : Bool) {magnitude : Nat} (inside : magnitude < F.signBit) :
    ((if negative then F.signBit else 0) + magnitude) % F.signBit = magnitude := by
  cases negative with
  | false => rw [if_neg Bool.false_ne_true, Nat.zero_add, Nat.mod_eq_of_lt inside]
  | true => rw [if_pos rfl, Nat.add_mod_left, Nat.mod_eq_of_lt inside]

theorem signed_div (negative : Bool) {magnitude : Nat} (inside : magnitude < F.signBit) :
    ((if negative then F.signBit else 0) + magnitude) / F.signBit = negative.toNat := by
  cases negative with
  | false => rw [if_neg Bool.false_ne_true, Nat.zero_add, Nat.div_eq_of_lt inside]; rfl
  | true =>
      rw [if_pos rfl, Nat.add_div_left _ (Nat.lt_of_le_of_lt (Nat.zero_le _) inside),
        Nat.div_eq_of_lt inside]
      rfl

theorem nearest_le (F : Interchange) (units : Nat) : F.nearest units ≤ F.infinity :=
  Nat.min_le_left _ _

theorem encode_finite_lt (small : F.infinity < F.signBit) (negative : Bool) (units : Nat) :
    F.encode (.finite negative units) < 2 * F.signBit := by
  have rounded := F.nearest_le units
  rw [encode]
  cases negative with
  | false => simp only [Bool.false_eq_true, if_false]; omega
  | true => simp only [if_true]; omega

/-- A finite value is decoded as the one that it is rounded to, or as infinity. -/
theorem decode_encode_finite (small : F.infinity < F.signBit) (negative : Bool) (units : Nat) :
    F.decode (F.encode (.finite negative units)) =
      if F.nearest units = F.infinity then .infinite negative
      else .finite negative (F.units (F.nearest units)) := by
  have most := F.nearest_le units
  have inside : F.nearest units < F.signBit := Nat.lt_of_le_of_lt most small
  have sign : decide (negative.toNat % 2 = 1) = negative := by cases negative <;> rfl
  rw [encode, decode]
  simp only [IsNan, signed_mod negative inside, signed_div negative inside, sign,
    if_neg (Nat.not_lt.mpr most)]

/-- What is held is decoded as it was encoded. -/
theorem decode_encode_held (held : F.Held significand shift) (small : F.infinity < F.signBit)
    (negative : Bool) :
    F.decode (F.encode (.finite negative (significand <<< shift))) =
      .finite negative (significand <<< shift) := by
  rw [decode_encode_finite small, nearest_held held, if_neg (Nat.ne_of_lt held.finite),
    units_held held]

end Interchange

namespace Binary64

/-- Numbers of up to 53 bits are held, wherever they stand in the range of a double. -/
theorem exists_held {m shift : Nat} (small : m < 0x20000000000000) (low : 52 ≤ shift)
    (high : shift ≤ 2045) :
    ∃ significand moved, Interchange.double.Held significand moved ∧
      m <<< shift = significand <<< moved := by
  by_cases zero : m = 0
  · subst zero
    refine ⟨0, 0, ⟨Nat.le_refl 0, by decide, .inr rfl, by decide⟩, ?_⟩
    rw [Nat.zero_shiftLeft, Nat.zero_shiftLeft]
  · have narrow : m.log2 < 53 := (Nat.log2_lt zero).mpr small
    have wide : 1 <<< 52 ≤ m <<< (52 - m.log2) := by
      rw [Nat.shiftLeft_eq, Nat.shiftLeft_eq, Nat.one_mul]
      calc 2 ^ 52 = 2 ^ m.log2 * 2 ^ (52 - m.log2) := by
            rw [← Nat.pow_add]
            congr 1
            omega
        _ ≤ m * 2 ^ (52 - m.log2) := Nat.mul_le_mul_right _ (Nat.log2_self_le zero)
    have short : m <<< (52 - m.log2) < 1 <<< 53 := by
      rw [Nat.shiftLeft_eq, Nat.shiftLeft_eq, Nat.one_mul]
      calc m * 2 ^ (52 - m.log2) < 2 ^ (m.log2 + 1) * 2 ^ (52 - m.log2) :=
            Nat.mul_lt_mul_of_pos_right Nat.lt_log2_self (Nat.two_pow_pos _)
        _ = 2 ^ 53 := by
            rw [← Nat.pow_add]
            congr 1
            omega
    refine ⟨m <<< (52 - m.log2), m.log2 + (shift - 52),
      ⟨Nat.zero_le _, short, .inl wide, ?_⟩, ?_⟩
    · have top : Interchange.double.infinity = 0x7ff * 0x10000000000000 := by decide
      have bound : 1 <<< 53 = 2 * 0x10000000000000 := by decide
      rw [top, Nat.shiftLeft_eq]
      show (m.log2 + (shift - 52)) * 0x10000000000000 + _ < _
      omega
    · have total : 52 - m.log2 + (m.log2 + (shift - 52)) = shift := by omega
      rw [← Nat.shiftLeft_add, total]

theorem encode_lt (d : Datum) : Interchange.double.encode d < 0x10000000000000000 := by
  cases d with
  | nan => decide
  | infinite negative => cases negative <;> decide
  | finite negative units =>
      have small : Interchange.double.infinity < Interchange.double.signBit := by decide
      exact Interchange.encode_finite_lt small negative units

/-- What a double can hold is the datum of its own double. -/
theorem datum_ofDatum {d : Datum}
    (back : Interchange.double.decode (Interchange.double.encode d) = d) :
    (ofDatum d).datum = d := by
  generalize pattern : Interchange.double.encode d = bits at back
  have stored : (UInt64.ofNat bits).toNat = bits := by
    rw [UInt64.toNat_ofNat', ← pattern]
    exact Nat.mod_eq_of_lt (encode_lt d)
  rw [ofDatum, pattern, datum, bits_ofBits, stored]
  split
  · rename_i isNan
    rw [Interchange.decode, if_pos isNan] at back
    rw [← back]
    decide
  · rw [stored, back]

theorem datum_ofInt {n : Int} (small : n.natAbs < 0x20000000000000) :
    (ofInt n).datum = .finite (n < 0) (n.natAbs * Datum.one) := by
  have value : n.natAbs * Datum.one = n.natAbs <<< 1074 := mul_one_shiftLeft _ _
  obtain ⟨significand, moved, held, same⟩ :=
    exists_held small (show 52 ≤ 1074 by decide) (show 1074 ≤ 2045 by decide)
  apply datum_ofDatum
  rw [value, same]
  exact Interchange.decode_encode_held held (by decide) (decide (n < 0))

theorem truncate_ofInt {n : Int} (small : n.natAbs < 0x20000000000000) :
    (ofInt n).truncate = n := by
  have positive : 0 < Datum.one := one_shiftLeft_pos 1074
  have whole : ((n.natAbs * Datum.one : Nat) : Int) / (Datum.one : Nat) = n.natAbs := by
    rw [← Int.natCast_ediv, Nat.mul_div_cancel _ positive]
  rw [truncate, datum_ofInt small]
  simp only [decide_eq_true_eq, whole]
  split <;> omega

/-- **Whole numbers of up to 53 bits are exact.** -/
theorem toInt?_ofInt {n : Int} (small : n.natAbs < 0x20000000000000) :
    (ofInt n).toInt? = some n := by
  rw [toInt?, datum_ofInt small]
  simp only [Nat.mul_mod_left, if_true, truncate_ofInt small]

theorem toNat?_ofInt {n : Nat} (small : n < 0x20000000000000) :
    (ofInt n).toNat? = some n := by
  rw [toNat?, toInt?_ofInt (by rwa [Int.natAbs_natCast])]
  rfl

theorem toNat_toByte (v : Binary64) : (v.toByte.toNat : Int) = v.truncate % 256 := by
  have byte : v.toByte.toNat = (v.truncate % 256).toNat % 256 := UInt8.toNat_ofNat'
  omega

/-- The value of a byte is stored as that byte. -/
theorem toByte_ofInt (byte : UInt8) : (ofInt byte.toNat).toByte = byte := by
  have small := byte.toNat_lt
  have stored := toNat_toByte (ofInt byte.toNat)
  rw [truncate_ofInt (by omega)] at stored
  apply UInt8.toNat_inj.mp
  omega

end Binary64

end NfcTag
