/-
# NfcTag.Proofs.Number.Nearest -- the nearest single

What a number is rounded to is said of rational numbers and of the fields of a pattern
(`Interchange.Nearest`): no finite pattern stands for a number that is nearer, and of two
that are as near it is the one with the even significand.  Rounding to singles obeys it as
far as the middle between the largest single and the next power of two; from there on it
gives the infinities.

Main statement: `roundsTo_roundToSingle`.
-/
import Mathlib.Tactic.Linarith
import NfcTag.Proofs.Number.Rounding
import NfcTag.Proofs.Number.Value

namespace NfcTag

set_option autoImplicit false

namespace Interchange

variable {F : Interchange} {pattern : Nat} {q x : ℚ}

/-! ## Nearest patterns -/

/-- The digits of a pattern, whatever their scale.  Normal numbers have a leading one in
front of the fraction. -/
def significand (F : Interchange) (pattern : Nat) : Nat :=
  if F.exponentField pattern = 0 then F.fractionField pattern
  else 2 ^ F.fractionBits + F.fractionField pattern

/-- The pattern stands for `x`, the number of the format that `q` is rounded to. -/
structure Nearest (F : Interchange) (q x : ℚ) (pattern : Nat) : Prop where
  value?_eq : F.value? pattern = some x
  /-- No finite pattern is nearer. -/
  le : ∀ other y, F.value? other = some y → |x - q| ≤ |y - q|
  /-- Of two numbers that are as near it is the one with the even significand. -/
  even_of_tie : ∀ other y, F.value? other = some y → y ≠ x → |y - q| = |x - q| →
    Even (F.significand pattern) ∧ ¬Even (F.significand other)

/-! ## Units as numbers -/

theorem even_significand_iff (fraction : 0 < F.fractionBits) (pattern : Nat) :
    Even (F.significand pattern) ↔ pattern % F.signBit % 2 = 0 := by
  obtain ⟨bits, same⟩ := Nat.exists_eq_succ_of_ne_zero (Nat.ne_of_gt fraction)
  have even : 2 ^ F.fractionBits = 2 * 2 ^ bits := by rw [same, Nat.pow_succ']
  rw [magnitude_eq, Nat.even_iff, significand, even, Nat.mul_assoc, Nat.mul_add_mod]
  split
  · rfl
  · rw [Nat.mul_add_mod]

end Interchange

/-- A count of units with its sign. -/
def signedUnits (negative : Bool) (units : Nat) : Int := if negative then -units else units

theorem signedUnits_zero (negative : Bool) : signedUnits negative 0 = 0 := by cases negative <;> rfl

theorem natAbs_signedUnits_sub (negative other : Bool) (n m : Nat) :
    (signedUnits negative n - signedUnits other m).natAbs =
      if negative = other then ((n : Int) - m).natAbs else n + m := by
  cases negative <;> cases other <;> simp [signedUnits] <;> omega

theorem Datum.value?_finite (negative : Bool) (units : Nat) :
    (Datum.finite negative units).value? = some ((signedUnits negative units : ℚ) / Datum.one) := by
  cases negative <;> simp [Datum.value?, signedUnits]

theorem Datum.exists_of_value? {d : Datum} {q : ℚ} (number : d.value? = some q) :
    ∃ negative units, d = .finite negative units ∧
      q = (signedUnits negative units : ℚ) / Datum.one := by
  cases d with
  | nan => cases number
  | infinite negative => cases number
  | finite negative units =>
      rw [Datum.value?_finite] at number
      exact ⟨negative, units, rfl, (Option.some.inj number).symm⟩

/-- Distances are counted in units, too. -/
theorem abs_div_one_sub (n m : Int) :
    |(n : ℚ) / Datum.one - m / Datum.one| = ((n - m).natAbs : ℚ) / Datum.one := by
  rw [← sub_div, abs_div, abs_of_pos Datum.cast_one_pos, Nat.cast_natAbs, Int.cast_abs,
    Int.cast_sub]

theorem div_one_le_iff {n m : Nat} : (n : ℚ) / Datum.one ≤ m / Datum.one ↔ n ≤ m := by
  rw [div_le_div_iff_of_pos_right Datum.cast_one_pos, Nat.cast_le]

namespace Interchange

variable {F : Interchange} {n : Nat}

theorem exists_units_of_value? (counted : F.Counted) {pattern : Nat} {y : ℚ}
    (number : F.value? pattern = some y) :
    ∃ negative, y = (signedUnits negative (F.units (pattern % F.signBit)) : ℚ) / Datum.one := by
  rw [value?_eq counted] at number
  obtain ⟨negative, units, shape, rfl⟩ := Datum.exists_of_value? number
  obtain ⟨-, rfl⟩ := finite_of_decode shape
  exact ⟨negative, rfl⟩

/-- **Rounding is to the nearest number of the format, ties to even**, unless it goes to
infinity. -/
theorem nearest_encode (counted : F.Counted) (fraction : 0 < F.fractionBits)
    (small : F.infinity < F.signBit) (negative : Bool) (finite : F.nearest n < F.infinity) :
    F.Nearest ((signedUnits negative n : ℚ) / Datum.one)
      ((signedUnits negative (F.units (F.nearest n)) : ℚ) / Datum.one)
      (F.encode (.finite negative n)) where
  value?_eq := by
    rw [value?_eq counted, decode_encode_finite small, if_neg finite.ne, Datum.value?_finite]
  le other y number := by
    obtain ⟨sign, rfl⟩ := exists_units_of_value? counted number
    rw [abs_div_one_sub, abs_div_one_sub, div_one_le_iff, natAbs_signedUnits_sub,
      natAbs_signedUnits_sub, if_pos rfl]
    split
    · exact natAbs_sub_nearest_le fraction finite _
    · -- Zero is between the two signs.
      have zero := natAbs_sub_nearest_le fraction finite 0
      rw [units_zero] at zero
      omega
  even_of_tie other y number different tie := by
    obtain ⟨sign, rfl⟩ := exists_units_of_value? counted number
    rw [abs_div_one_sub, abs_div_one_sub, div_left_inj' Datum.cast_one_ne_zero, Nat.cast_inj,
      natAbs_signedUnits_sub, natAbs_signedUnits_sub, if_pos rfl] at tie
    rw [even_significand_iff fraction, even_significand_iff fraction, encode,
      signed_mod negative (Nat.lt_trans finite small)]
    split at tie
    · rename_i same
      subst same
      have apart : other % F.signBit ≠ F.nearest n := fun same => different (by rw [same])
      obtain ⟨even, odd⟩ := odd_of_tie fraction finite apart tie
      omega
    · -- A number of the other sign that is as near is zero, and zero has an even significand.
      have near := natAbs_sub_nearest_le fraction finite 0
      rw [units_zero] at near
      have zero : F.units (other % F.signBit) = 0 := by omega
      have apart : 0 ≠ F.nearest n := by
        intro same
        rw [zero, ← same, units_zero, signedUnits_zero, signedUnits_zero] at different
        exact different rfl
      have odd := (odd_of_tie fraction finite apart (by rw [units_zero]; omega)).2
      exact absurd odd (by decide)

end Interchange

/-! ## Signs -/

/-- The sign bit; that of NaN is not set. -/
def Datum.negative : Datum → Bool
  | .nan => false
  | .infinite negative | .finite negative _ => negative

namespace Interchange

variable {F : Interchange}

theorem signField_encode (small : F.canonicalNan < F.signBit) (d : Datum) :
    F.signField (F.encode d) = d.negative.toNat := by
  have infinite : F.infinity < F.signBit := Nat.lt_of_le_of_lt (Nat.le_add_right _ _) small
  have bit (negative : Bool) : negative.toNat % 2 = negative.toNat := by cases negative <;> rfl
  rw [signField_eq]
  cases d with
  | nan => rw [encode, Nat.div_eq_of_lt small]; rfl
  | infinite negative => rw [encode, signed_div negative infinite, bit]; rfl
  | finite negative units =>
      rw [encode, signed_div negative (Nat.lt_of_le_of_lt (F.nearest_le units) infinite), bit]
      rfl

/-- Rounding keeps the sign. -/
theorem negative_decode_encode (d : Datum) :
    (single.decode (single.encode d)).negative = d.negative := by
  cases d with
  | nan => decide
  | infinite negative => cases negative <;> decide
  | finite negative units =>
      rw [decode_encode_finite (by decide)]
      split <;> rfl

/-! ## Overflow -/

/-- The largest single is odd, so the middle behind it already goes to infinity. -/
theorem nearest_single_eq_infinity_iff (n : Nat) :
    single.nearest n = single.infinity ↔ 0x1ffffff <<< 1177 ≤ n := by
  have middle : single.units (single.infinity - 1) + single.units single.infinity =
      2 * 0x1ffffff <<< 1177 := by decide +kernel
  have even : single.infinity % 2 = 0 := by decide
  have reached := le_nearest_iff (F := single) (n := n) (by decide)
    (show 0 < single.infinity by decide) (Nat.le_refl _)
  have most := single.nearest_le n
  rw [middle] at reached
  generalize 0x1ffffff <<< 1177 = limit at reached
  omega

end Interchange

namespace Binary64

/-- Is the sign bit set? -/
def negative (v : Binary64) : Bool := Interchange.double.signField v.bits.toNat = 1

def infinity (negative : Bool) : Binary64 := ofDatum (.infinite negative)

/-- The middle between the largest single and the power of two behind it.  The numbers of
this size or more become infinite. -/
def singleLimit : ℚ := 2 ^ 128 - 2 ^ 103

/-- What a number becomes in a field of singles: the `pattern` that is stored there and
the number `kept` that is loaded again. -/
structure RoundsTo (v : Binary64) (pattern : Nat) (kept : Binary64) : Prop where
  signField_eq : Interchange.single.signField pattern = v.negative.toNat
  negative_eq : kept.negative = v.negative
  value?_eq : kept.value? = Interchange.single.value? pattern
  infinite_iff : ∀ q, v.value? = some q → (kept = infinity v.negative ↔ singleLimit ≤ |q|)
  nearest : ∀ q, v.value? = some q → |q| < singleLimit →
    ∃ x, Interchange.single.Nearest q x pattern

/-! ## Rounding -/

theorem datum_roundToSingle (v : Binary64) :
    v.roundToSingle.datum = Interchange.single.decode (Interchange.single.encode v.datum) := by
  rw [roundToSingle, datum_ofSingle, toNat_toSingle]

theorem exists_datum_of_value? {v : Binary64} {q : ℚ} (number : v.value? = some q) :
    ∃ negative units, v.datum = .finite negative units ∧
      q = (signedUnits negative units : ℚ) / Datum.one :=
  Datum.exists_of_value? (v.value?_eq ▸ number)

theorem negative_eq_datum (v : Binary64) : v.negative = v.datum.negative := by
  rw [negative, ← encode_datum, Interchange.signField_encode (by decide)]
  cases v.datum.negative <;> rfl

theorem datum_infinity (negative : Bool) : (infinity negative).datum = .infinite negative :=
  datum_ofDatum (by cases negative <;> decide)

theorem singleLimit_eq : singleLimit = ((0x1ffffff <<< 1177 : Nat) : ℚ) / (Datum.one : ℚ) := by
  rw [singleLimit, cast_shiftLeft, Datum.cast_one, mul_div_assoc, ← zpow_sub₀ two_ne_zero]
  norm_num

theorem abs_signedUnits_div_one (negative : Bool) (n : Nat) :
    |(signedUnits negative n : ℚ) / Datum.one| = n / Datum.one := by
  rw [abs_div, abs_of_pos Datum.cast_one_pos]
  cases negative <;> simp [signedUnits]

/-- **The nearest single is stored and loaded again**, with the sign of the number, or
from the limit on the infinity of that sign. -/
theorem roundsTo_roundToSingle (v : Binary64) : v.RoundsTo v.toSingle.toNat v.roundToSingle where
  signField_eq := by
    rw [toNat_toSingle, Interchange.signField_encode (by decide), negative_eq_datum]
  negative_eq := by
    rw [negative_eq_datum, negative_eq_datum, datum_roundToSingle,
      Interchange.negative_decode_encode]
  value?_eq := by
    rw [Binary64.value?_eq, datum_roundToSingle, toNat_toSingle,
      Interchange.value?_eq Interchange.counted_single]
  infinite_iff q number := by
    obtain ⟨negative, n, shape, rfl⟩ := exists_datum_of_value? number
    have kept := v.datum_roundToSingle
    rw [shape, Interchange.decode_encode_finite (by decide)] at kept
    rw [negative_eq_datum, shape, abs_signedUnits_div_one, singleLimit_eq, div_one_le_iff,
      ← Interchange.nearest_single_eq_infinity_iff]
    constructor
    · intro infinite
      by_contra less
      rw [if_neg less, infinite, datum_infinity] at kept
      cases kept
    · intro reached
      rw [if_pos reached] at kept
      rw [← ofDatum_datum v.roundToSingle, kept]
      rfl
  nearest q number less := by
    obtain ⟨negative, n, shape, rfl⟩ := exists_datum_of_value? number
    rw [abs_signedUnits_div_one, singleLimit_eq, ← not_le, div_one_le_iff,
      ← Interchange.nearest_single_eq_infinity_iff] at less
    have finite := Nat.lt_of_le_of_ne (Interchange.single.nearest_le n) less
    rw [toNat_toSingle, shape]
    exact ⟨_, Interchange.nearest_encode Interchange.counted_single (by decide) (by decide)
      negative finite⟩

end Binary64

end NfcTag
