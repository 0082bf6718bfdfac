/-
# NfcTag.Proofs.FixedPoint.Exact -- the text of a decimal says its value

`render` puts the digits of a magnitude before and behind a point and fills up with zeros:
in front of them, if they do not reach the point, and behind them, if the scale is
negative.  The latter are the last digits of a greater magnitude (`toDigits_mul_pow`), so
every text is made alike: the digits of one number, padded and cut at the point
(`digits`).

Main statement: `render_is_exact`.  Each text is a numeral that says the value exactly,
with as many places as the scale; so at one scale no two decimals share a text.
-/
import Mathlib.Algebra.Order.Field.Rat
import Mathlib.Tactic.FieldSimp
import Mathlib.Tactic.Push
import NfcTag.FixedPoint
import NfcTag.Proofs.FixedPoint.Numeral

namespace NfcTag.FixedPoint

set_option autoImplicit false

/-! ## The digits of a number -/

theorem head?_toDigits {n : Nat} (positive : 0 < n) : (Nat.toDigits 10 n).head? ≠ some '0' := by
  induction n using Nat.strongRecOn with
  | ind n front =>
      by_cases small : n < 10
      · rw [Nat.toDigits_of_lt_base small, List.head?_singleton, ne_eq, Option.some.injEq,
          Nat.digitChar_eq_zero]
        omega
      · rw [Nat.toDigits_of_base_le (by decide) (Nat.le_of_not_lt small),
          List.head?_append_of_ne_nil _ Nat.toDigits_ne_nil]
        exact front (n / 10) (by omega) (by omega)

/-- Powers of ten are written as zeros behind the other digits. -/
theorem toDigits_mul_pow {n : Nat} (positive : 0 < n) (zeros : Nat) :
    Nat.toDigits 10 (n * 10 ^ zeros) = Nat.toDigits 10 n ++ List.replicate zeros '0' := by
  induction zeros with
  | zero => rw [Nat.pow_zero, Nat.mul_one, List.replicate_zero, List.append_nil]
  | succ zeros front =>
      have more : n * 10 ^ (zeros + 1) = 10 * (n * 10 ^ zeros) + 0 := by
        rw [Nat.pow_succ, ← Nat.mul_assoc, Nat.mul_comm, Nat.add_zero]
      rw [more, ← Nat.toDigits_append_toDigits (by decide)
        (Nat.mul_pos positive (Nat.pow_pos (by decide))) (by decide), front, Nat.toDigits_zero,
        List.append_assoc, ← List.replicate_succ']

/-! ## Padding -/

theorem length_pad (width : Nat) (digits : List Char) :
    (pad width digits).length = max width digits.length := by
  rw [pad, List.length_append, List.length_replicate]
  omega

theorem pad_of_length_le {width : Nat} {digits : List Char} (long : width ≤ digits.length) :
    pad width digits = digits := by
  rw [pad, Nat.sub_eq_zero_of_le long]
  rfl

theorem number_pad (width : Nat) (digits : List Char) :
    number (pad width digits) = number digits := by
  rw [pad, number_append, number, Nat.ofDigitChars_replicate_zero, Nat.mul_zero, Nat.zero_mul,
    Nat.zero_add]

theorem isDigit_of_mem_pad {width : Nat} {digits : List Char}
    (all : ∀ char ∈ digits, char.isDigit = true) :
    ∀ char ∈ pad width digits, char.isDigit = true := by
  intro char member
  cases List.mem_append.mp member with
  | inl zeros =>
      obtain rfl := List.eq_of_mem_replicate zeros
      rfl
  | inr digit => exact all char digit

/-! ## The numeral of a decimal -/

variable (value : FixedPoint Int)

/-- The magnitude, counted in units of the last place that is written. -/
def lastPlaces : Nat := value.unscaled.natAbs * 10 ^ (-value.scale).toNat

/-- All the digits that are written. -/
def digits : List Char := pad (value.scale.toNat + 1) (Nat.toDigits 10 value.lastPlaces)

theorem length_digits : value.digits.length =
    max (value.scale.toNat + 1) (Nat.toDigits 10 value.lastPlaces).length :=
  length_pad _ _

theorem isDigit_of_mem_digits : ∀ char ∈ value.digits, char.isDigit = true :=
  isDigit_of_mem_pad fun _ => Nat.isDigit_of_mem_toDigits (by decide) (by decide)

/-- How many of them stand before the point. -/
def wholeLength : Nat := value.digits.length - value.scale.toNat

theorem wholeLength_pos : 0 < value.wholeLength := by
  have length := value.length_digits
  rw [wholeLength]
  omega

/-- Zeros are padded up to the last place before the point and no further. -/
theorem no_leading_zero (zero : (value.digits.take value.wholeLength).head? = some '0') :
    value.digits.take value.wholeLength = ['0'] := by
  have length := value.length_digits
  rw [List.head?_take, if_neg (Nat.ne_of_gt value.wholeLength_pos)] at zero
  by_cases padded : (Nat.toDigits 10 value.lastPlaces).length ≤ value.scale.toNat + 1
  · have one : value.wholeLength = 1 := by
      rw [wholeLength]
      omega
    obtain ⟨rest, digits⟩ := List.head?_eq_some_iff.mp zero
    rw [one, digits]
    rfl
  · -- These are the digits of a number, which is not 0 as there are two of them or more.
    rw [digits, pad_of_length_le (by omega)] at zero
    refine absurd zero (head?_toDigits (Nat.pos_of_ne_zero fun none => padded ?_))
    rw [none]
    exact Nat.le_add_left 1 _

/-- The digits before the point and those behind it, with the sign of the magnitude. -/
def numeral : Numeral where
  negative := decide (value.unscaled < 0)
  whole := value.digits.take value.wholeLength
  fraction := value.digits.drop value.wholeLength
  whole_ne_nil := by
    have some := value.wholeLength_pos
    have length := value.length_digits
    rw [ne_eq, List.take_eq_nil_iff, ← List.length_eq_zero_iff]
    omega
  whole_digits := fun _ member => value.isDigit_of_mem_digits _ (List.mem_of_mem_take member)
  fraction_digits := fun _ member => value.isDigit_of_mem_digits _ (List.mem_of_mem_drop member)
  no_leading_zero := value.no_leading_zero

theorem length_fraction : value.numeral.fraction.length = value.scale.toNat := by
  have length := value.length_digits
  rw [numeral, List.length_drop, wholeLength]
  omega

theorem fraction_eq_nil_iff : value.numeral.fraction = [] ↔ value.scale ≤ 0 := by
  rw [← List.length_eq_zero_iff, length_fraction, Int.toNat_eq_zero]

theorem renderMagnitude_eq :
    renderMagnitude value.unscaled.natAbs value.scale = value.numeral.unsigned := by
  rw [Numeral.unsigned, Numeral.pointed]
  by_cases scale : value.scale ≤ 0
  · have none : value.scale.toNat = 0 := by omega
    have all : value.numeral.whole = Nat.toDigits 10 value.lastPlaces := by
      change value.digits.take value.wholeLength = _
      rw [wholeLength, none, Nat.sub_zero, List.take_length, digits, none]
      exact pad_of_length_le Nat.length_toDigits_pos
    rw [renderMagnitude, if_pos scale, if_pos (value.fraction_eq_nil_iff.mpr scale),
      List.append_nil, all, lastPlaces]
    split
    case isTrue zero => rw [zero, Nat.zero_mul, Nat.toDigits_zero]
    case isFalse nonzero => rw [toDigits_mul_pow (Nat.pos_of_ne_zero nonzero)]
  · have zeros : (-value.scale).toNat = 0 := by omega
    have magnitude : value.lastPlaces = value.unscaled.natAbs := by
      rw [lastPlaces, zeros, Nat.pow_zero, Nat.mul_one]
    rw [renderMagnitude, if_neg scale, if_neg (mt value.fraction_eq_nil_iff.mp scale),
      ← magnitude]
    rfl

theorem toList_render : (render value).toList = value.numeral.text := by
  rw [render, String.toList_ofList, renderMagnitude_eq, Numeral.text]
  simp only [numeral, decide_eq_true_eq]

/-! ## Its value -/

theorem number_numeral : number value.numeral.whole * 10 ^ value.scale.toNat +
    number value.numeral.fraction = value.lastPlaces := by
  rw [← length_fraction, ← number_append, numeral, List.take_append_drop, digits, number_pad,
    number_toDigits]

theorem value_numeral : value.numeral.value = value.unscaled * (10 : ℚ) ^ (-value.scale) := by
  have shift : (10 : ℚ) ^ (-value.scale) =
      10 ^ (-value.scale).toNat / 10 ^ value.scale.toNat := by
    rw [← zpow_natCast, ← zpow_natCast, ← zpow_sub₀ (by norm_num)]
    congr 1
    omega
  have digits : (number value.numeral.whole : ℚ) +
      number value.numeral.fraction / 10 ^ value.scale.toNat =
        value.unscaled.natAbs * (10 ^ (-value.scale).toNat / 10 ^ value.scale.toNat) := by
    have counted := congrArg (Nat.cast (R := ℚ)) value.number_numeral
    rw [lastPlaces] at counted
    push_cast at counted
    field_simp
    exact counted
  have sign : (if value.numeral.negative then -1 else 1 : ℚ) * value.unscaled.natAbs =
      value.unscaled := by
    simp only [numeral, decide_eq_true_eq, Nat.cast_natAbs]
    split
    case isTrue negative =>
      rw [abs_of_neg negative, Int.cast_neg, neg_one_mul, neg_neg]
    case isFalse positive =>
      rw [abs_of_nonneg (Int.not_lt.mp positive), one_mul]
  rw [Numeral.value, length_fraction, digits, ← mul_assoc, sign, shift]

/-! ## What a text says -/

/-- The numeral says the value, with a minus sign and a point only where they are needed
and as many places as the scale. -/
structure Numeral.Writes (numeral : Numeral) (value : FixedPoint Int) : Prop where
  minus : numeral.negative = true ↔ value.unscaled < 0
  point : numeral.fraction ≠ [] ↔ 0 < value.scale
  places : 0 < value.scale → (numeral.fraction.length : Int) = value.scale
  exact : numeral.value = value.unscaled * (10 : ℚ) ^ (-value.scale)

/-- The text is a numeral, and to whoever reads it as one it says the value. -/
structure Denotes (text : String) (value : FixedPoint Int) : Prop where
  form : ∃ numeral : Numeral, numeral.text = text.toList
  reads : ∀ numeral : Numeral, numeral.text = text.toList → numeral.Writes value

theorem writes_numeral : value.numeral.Writes value where
  minus := decide_eq_true_iff
  point := by rw [ne_eq, fraction_eq_nil_iff, Int.not_le]
  places := fun positive => by
    rw [length_fraction]
    exact Int.toNat_of_nonneg (Int.le_of_lt positive)
  exact := value.value_numeral

theorem denotes_render : Denotes (render value) value where
  form := ⟨value.numeral, value.toList_render.symm⟩
  reads := fun numeral text => by
    obtain rfl := Numeral.text_inj (text.trans value.toList_render)
    exact value.writes_numeral

/-- At one scale a text says one value. -/
theorem Denotes.unscaled_eq {text : String} {unscaled other scale : Int}
    (denotes : Denotes text ⟨unscaled, scale⟩) (otherDenotes : Denotes text ⟨other, scale⟩) :
    unscaled = other := by
  obtain ⟨numeral, form⟩ := denotes.form
  have power : (10 : ℚ) ^ (-scale) ≠ 0 := zpow_ne_zero _ (by norm_num)
  have same : (unscaled : ℚ) * 10 ^ (-scale) = other * 10 ^ (-scale) :=
    (denotes.reads numeral form).exact.symm.trans (otherDenotes.reads numeral form).exact
  exact Int.cast_injective (mul_right_cancel₀ power same)

/-- At this scale decimals of every magnitude, given as an integer or as a number that is
one, are rendered exactly. -/
structure RendersExactly (scale : Int) : Prop where
  integer : ∀ unscaled, Denotes (render ⟨unscaled, scale⟩) ⟨unscaled, scale⟩
  number : ∀ (magnitude : Binary64) (unscaled : Int), magnitude.toInt? = some unscaled →
    ∃ text, render? ⟨magnitude, scale⟩ = some text ∧ Denotes text ⟨unscaled, scale⟩
  different : ∀ unscaled other, unscaled ≠ other →
    render ⟨unscaled, scale⟩ ≠ render ⟨other, scale⟩

/-- **A decimal is rendered exactly**, whatever its magnitude and its scale. -/
theorem render_is_exact (scale : Int) : RendersExactly scale where
  integer := fun unscaled => denotes_render ⟨unscaled, scale⟩
  number := fun magnitude unscaled whole =>
    ⟨render ⟨unscaled, scale⟩, by rw [render?, whole]; rfl, denotes_render ⟨unscaled, scale⟩⟩
  different := fun unscaled other different same => by
    have denotes := denotes_render ⟨unscaled, scale⟩
    rw [same] at denotes
    exact different (denotes.unscaled_eq (denotes_render ⟨other, scale⟩))

/-- The zero before the point and the one behind it are both padding. -/
example : render ⟨-5, 2⟩ = "-0.05" := by decide

end NfcTag.FixedPoint
