/-
# NfcTag.Proofs.Number.Value -- the rational numbers that patterns stand for

A pattern has a sign, an exponent field and a fraction field, and the standard says
which number they stand for (`Interchange.value?`).  Counting in units of `2 ^ -1074`
gives the same number (`value?_eq`), so what is defined on units can be said of
rational numbers.

Main statement: `truncate_eq`, by which the whole part of a number is its value rounded
toward zero.
-/
import Mathlib.Algebra.Order.Floor.Ring
import Mathlib.Data.Rat.Floor
import Mathlib.Tactic.FieldSimp
import Mathlib.Tactic.Ring
import NfcTag.Proofs.Number.Exact

namespace NfcTag

set_option autoImplicit false

/-! ## Values of patterns -/

namespace Interchange

variable {F : Interchange} {pattern : Nat}

def signField (F : Interchange) (pattern : Nat) : Nat :=
  pattern / 2 ^ (F.exponentBits + F.fractionBits) % 2

def exponentField (F : Interchange) (pattern : Nat) : Nat :=
  pattern / 2 ^ F.fractionBits % 2 ^ F.exponentBits

def fractionField (F : Interchange) (pattern : Nat) : Nat := pattern % 2 ^ F.fractionBits

def bias (F : Interchange) : Int := 2 ^ (F.exponentBits - 1) - 1

/-- The number that a pattern stands for, if it is finite.  The exponent field counts
from the bias; its lowest value marks the subnormal numbers, its highest the infinities
and NaNs. -/
def value? (F : Interchange) (pattern : Nat) : Option ℚ :=
  let sign : ℚ := (-1) ^ F.signField pattern
  let fraction : ℚ := F.fractionField pattern / 2 ^ F.fractionBits
  let exponent := F.exponentField pattern
  if exponent = 2 ^ F.exponentBits - 1 then none
  else if exponent = 0 then some (sign * fraction * 2 ^ (1 - F.bias))
  else some (sign * (1 + fraction) * 2 ^ (exponent - F.bias))

end Interchange

/-- The number that a datum stands for, if it is finite. -/
def Datum.value? : Datum → Option ℚ
  | .finite negative units => some ((if negative then -(units : ℚ) else units) / Datum.one)
  | _ => none

theorem cast_shiftLeft (n shift : Nat) : ((n <<< shift : Nat) : ℚ) = n * 2 ^ (shift : ℤ) := by
  rw [Nat.shiftLeft_eq, Nat.cast_mul, Nat.cast_pow, Nat.cast_ofNat, zpow_natCast]

theorem Datum.cast_one : (Datum.one : ℚ) = 2 ^ ((1074 : Nat) : ℤ) := by
  rw [Datum.one, cast_shiftLeft, Nat.cast_one, one_mul]

theorem Datum.cast_one_pos : (0 : ℚ) < Datum.one := Nat.cast_pos.mpr (one_shiftLeft_pos 1074)

theorem Datum.cast_one_ne_zero : (Datum.one : ℚ) ≠ 0 := Datum.cast_one_pos.ne'

namespace Interchange

variable {F : Interchange} {pattern : Nat}

theorem signBit_eq (F : Interchange) : F.signBit = 2 ^ F.fractionBits * 2 ^ F.exponentBits := by
  rw [signBit, Nat.one_shiftLeft, Nat.pow_add, Nat.mul_comm]

theorem signField_eq (F : Interchange) (pattern : Nat) :
    F.signField pattern = pattern / F.signBit % 2 := by
  rw [signField, signBit, Nat.one_shiftLeft]

theorem infinity_eq (F : Interchange) :
    F.infinity = 2 ^ F.fractionBits * (2 ^ F.exponentBits - 1) := by
  rw [infinity, Nat.shiftLeft_eq, Nat.one_shiftLeft, Nat.mul_comm]

theorem magnitude_div (F : Interchange) (pattern : Nat) :
    pattern % F.signBit / 2 ^ F.fractionBits = F.exponentField pattern := by
  rw [signBit_eq, Nat.mod_mul_right_div_self, exponentField]

theorem magnitude_mod (F : Interchange) (pattern : Nat) :
    pattern % F.signBit % 2 ^ F.fractionBits = F.fractionField pattern := by
  rw [signBit_eq, Nat.mod_mod_of_dvd _ (Nat.dvd_mul_right _ _), fractionField]

theorem magnitude_eq (F : Interchange) (pattern : Nat) :
    pattern % F.signBit =
      2 ^ F.fractionBits * F.exponentField pattern + F.fractionField pattern := by
  rw [← magnitude_div, ← magnitude_mod, Nat.div_add_mod]

theorem exponentField_le (F : Interchange) (pattern : Nat) :
    F.exponentField pattern ≤ 2 ^ F.exponentBits - 1 :=
  Nat.le_sub_one_of_lt (Nat.mod_lt _ (Nat.two_pow_pos _))

theorem fractionField_lt (F : Interchange) (pattern : Nat) :
    F.fractionField pattern < 2 ^ F.fractionBits :=
  Nat.mod_lt _ (Nat.two_pow_pos _)

/-- A NaN has the highest exponent field, and a fraction. -/
theorem isNan_iff :
    F.IsNan pattern ↔
      F.exponentField pattern = 2 ^ F.exponentBits - 1 ∧ F.fractionField pattern ≠ 0 := by
  have most := F.exponentField_le pattern
  have small := F.fractionField_lt pattern
  rw [IsNan, magnitude_eq, infinity_eq]
  obtain highest | lower := Nat.eq_or_lt_of_le most
  · rw [highest]
    omega
  · have below := Nat.mul_le_mul_left (2 ^ F.fractionBits) (Nat.succ_le_of_lt lower)
    rw [Nat.mul_succ] at below
    omega

theorem isInfinite_iff :
    pattern % F.signBit = F.infinity ↔
      F.exponentField pattern = 2 ^ F.exponentBits - 1 ∧ F.fractionField pattern = 0 := by
  have most := F.exponentField_le pattern
  have small := F.fractionField_lt pattern
  rw [magnitude_eq, infinity_eq]
  obtain highest | lower := Nat.eq_or_lt_of_le most
  · rw [highest]
    omega
  · have below := Nat.mul_le_mul_left (2 ^ F.fractionBits) (Nat.succ_le_of_lt lower)
    rw [Nat.mul_succ] at below
    omega

/-- The unit is the smallest step of a double and divides that of a single. -/
def Counted (F : Interchange) : Prop := F.quantum + F.fractionBits + F.bias = 1075

theorem counted_single : single.Counted := rfl

theorem counted_double : double.Counted := rfl

/-- The units of a pattern, over the units of one. -/
theorem units_div_one (counted : F.Counted) (pattern : Nat) :
    (F.units (pattern % F.signBit) : ℚ) / Datum.one =
      if F.exponentField pattern = 0 then
        F.fractionField pattern / 2 ^ F.fractionBits * (2 : ℚ) ^ (1 - F.bias)
      else (1 + F.fractionField pattern / 2 ^ F.fractionBits) *
        (2 : ℚ) ^ (F.exponentField pattern - F.bias) := by
  have wide : (2 : ℚ) ^ F.fractionBits ≠ 0 := by positivity
  have power (exponent : ℤ) : (2 : ℚ) ^ (exponent - F.bias) =
      2 ^ F.fractionBits * 2 ^ (F.quantum + exponent - 1) / Datum.one := by
    have total : exponent - F.bias =
        F.fractionBits + (F.quantum + exponent - 1) - (1074 : Nat) := by
      unfold Counted at counted
      omega
    rw [total, Datum.cast_one, zpow_sub₀ two_ne_zero, zpow_add₀ two_ne_zero, zpow_natCast]
  rw [units, Nat.one_shiftLeft, magnitude_div, magnitude_mod]
  by_cases lowest : F.exponentField pattern = 0
  · have shift : (F.quantum : ℤ) + 1 - 1 = F.quantum := by omega
    simp only [if_pos lowest, cast_shiftLeft, power, shift]
    field_simp
  · have shift : ((F.quantum + F.exponentField pattern - 1 : Nat) : ℤ) =
        F.quantum + F.exponentField pattern - 1 := by omega
    simp only [if_neg lowest, cast_shiftLeft, power, shift, Nat.cast_add, Nat.cast_pow,
      Nat.cast_ofNat]
    field_simp

/-- **The units of a pattern count the number that the standard gives it.** -/
theorem value?_eq (counted : F.Counted) (pattern : Nat) :
    F.value? pattern = (F.decode pattern).value? := by
  have bit : pattern / F.signBit % 2 = 0 ∨ pattern / F.signBit % 2 = 1 := by omega
  rw [value?, signField_eq, decode]
  by_cases highest : F.exponentField pattern = 2 ^ F.exponentBits - 1
  · simp only [isNan_iff, isInfinite_iff, highest, true_and, if_true]
    by_cases fraction : F.fractionField pattern = 0
    · rw [if_neg (not_not.mpr fraction), if_pos fraction]
      rfl
    · rw [if_pos fraction]
      rfl
  · simp only [isNan_iff, isInfinite_iff, highest, false_and, if_false, Datum.value?]
    obtain plus | minus := bit
    · simp only [plus, Nat.zero_ne_one, decide_false, Bool.false_eq_true, if_false,
        units_div_one counted, pow_zero, one_mul]
      split <;> rfl
    · simp only [minus, decide_true, if_true, neg_div, units_div_one counted, pow_one, neg_mul,
        one_mul]
      split <;> rfl

end Interchange

namespace Binary64

/-- The number as a rational one, unless it is infinite or a NaN. -/
def value? (v : Binary64) : Option ℚ := Interchange.double.value? v.bits.toNat

theorem value?_eq (v : Binary64) : v.value? = v.datum.value? :=
  Interchange.value?_eq Interchange.counted_double v.bits.toNat

/-- Whole numbers of up to 53 bits stand for themselves. -/
theorem value?_ofInt {n : Int} (small : n.natAbs < 0x20000000000000) :
    (ofInt n).value? = some (n : ℚ) := by
  have size : (n.natAbs : ℚ) = |(n : ℚ)| := by rw [Nat.cast_natAbs, Int.cast_abs]
  rw [value?_eq, datum_ofInt small, Datum.value?, Nat.cast_mul, ← neg_mul, ← ite_mul,
    mul_div_cancel_right₀ _ Datum.cast_one_ne_zero, size]
  by_cases negative : n < 0
  · rw [if_pos (decide_eq_true negative), abs_of_neg (Int.cast_lt_zero.mpr negative), neg_neg]
  · have nonneg : (0 : ℚ) ≤ n := Int.cast_nonneg (Int.not_lt.mp negative)
    rw [decide_eq_false negative, if_neg Bool.false_ne_true, abs_of_nonneg nonneg]

end Binary64

/-! ## Whole parts -/

/-- The integer next to a rational number on the side of zero. -/
def towardZero (q : ℚ) : Int := if 0 ≤ q then ⌊q⌋ else ⌈q⌉

theorem towardZero_intCast (n : Int) : towardZero n = n := by
  rw [towardZero, Int.floor_intCast, Int.ceil_intCast, ite_self]

theorem towardZero_neg (q : ℚ) : towardZero (-q) = -towardZero q := by
  obtain below | rfl | above := lt_trichotomy q 0
  · rw [towardZero, towardZero, if_pos (by linarith), if_neg (by linarith), Int.floor_neg]
  · rfl
  · rw [towardZero, towardZero, if_neg (by linarith), if_pos (by linarith), Int.ceil_neg]

namespace Binary64

/-- **The whole part of a number is its value rounded toward zero**, and zero if the
number has none. -/
theorem truncate_eq (v : Binary64) : v.truncate = v.value?.elim 0 towardZero := by
  rw [value?_eq, truncate]
  cases v.datum with
  | nan => rfl
  | infinite negative => rfl
  | finite negative units =>
      have whole : towardZero (units / Datum.one) = (units : Int) / (Datum.one : Nat) := by
        have nonneg : (0 : ℚ) ≤ units / Datum.one := by positivity
        rw [towardZero, if_pos nonneg, Rat.floor_natCast_div_natCast]
      cases negative with
      | false =>
          simp only [Datum.value?, Bool.false_eq_true, if_false, Option.elim_some, whole]
      | true =>
          simp only [Datum.value?, if_true, Option.elim_some, neg_div, towardZero_neg, whole]

end Binary64
end NfcTag
