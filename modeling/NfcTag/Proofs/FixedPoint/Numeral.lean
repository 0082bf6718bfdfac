/-
# NfcTag.Proofs.FixedPoint.Numeral -- decimal numerals and what they say

A numeral is a text of the form `-?(0|[1-9][0-9]*)(\.[0-9]+)?`.  Its digits say a rational
number, each at its place before or behind the point (`Numeral.value`).

Main statement: `Numeral.text_inj`.  No text is that of two numerals, so a text that is a
numeral says one number.
-/
import Mathlib.Algebra.Field.Rat
import Mathlib.Data.Rat.Cast.Defs

namespace NfcTag.FixedPoint

set_option autoImplicit false

/-! ## Digits -/

/-- The natural number that decimal digits say. -/
def number (digits : List Char) : Nat := Nat.ofDigitChars 10 digits 0

theorem number_toDigits (n : Nat) : number (Nat.toDigits 10 n) = n :=
  Nat.ofDigitChars_ten_toDigits

theorem number_append (front back : List Char) :
    number (front ++ back) = number front * 10 ^ back.length + number back := by
  simp only [number]
  rw [Nat.ofDigitChars_append, Nat.ofDigitChars_eq_ofDigitChars_zero, Nat.mul_comm]

/-! ## Numerals -/

/-- The parts of a numeral.  The fraction is empty if there is no point. -/
@[ext] structure Numeral where
  negative : Bool
  whole : List Char
  fraction : List Char
  whole_ne_nil : whole ≠ []
  whole_digits : ∀ char ∈ whole, char.isDigit = true
  fraction_digits : ∀ char ∈ fraction, char.isDigit = true
  no_leading_zero : whole.head? = some '0' → whole = ['0']

namespace Numeral

/-- The point with the fraction behind it. -/
def pointed (fraction : List Char) : List Char :=
  if fraction = [] then [] else '.' :: fraction

/-- What stands behind the sign. -/
def unsigned (numeral : Numeral) : List Char := numeral.whole ++ pointed numeral.fraction

def text (numeral : Numeral) : List Char :=
  if numeral.negative then '-' :: numeral.unsigned else numeral.unsigned

/-- The number that a numeral says. -/
def value (numeral : Numeral) : ℚ :=
  (if numeral.negative then -1 else 1) *
    (number numeral.whole + number numeral.fraction / 10 ^ numeral.fraction.length)

/-! ## Reading a text -/

theorem tail_pointed (fraction : List Char) : (pointed fraction).tail = fraction := by
  unfold pointed
  split <;> simp_all

/-- The digits of a text end where the whole part does. -/
theorem takeWhile_unsigned (numeral : Numeral) :
    numeral.unsigned.takeWhile Char.isDigit = numeral.whole := by
  have point : (pointed numeral.fraction).takeWhile Char.isDigit = [] := by
    unfold pointed
    split
    · rfl
    · exact List.takeWhile_cons_of_neg (by decide)
  rw [unsigned, List.takeWhile_append_of_pos numeral.whole_digits, point, List.append_nil]

theorem head?_text (numeral : Numeral) :
    numeral.text.head? = some '-' ↔ numeral.negative = true := by
  obtain ⟨first, rest, whole⟩ := List.exists_cons_of_ne_nil numeral.whole_ne_nil
  have digit : first.isDigit = true :=
    numeral.whole_digits first (whole ▸ List.mem_cons_self)
  have minus : first ≠ '-' := by
    rintro rfl
    exact absurd digit (by decide)
  cases negative : numeral.negative with
  | false => simp [text, negative, unsigned, whole, minus]
  | true => simp [text, negative]

theorem text_inj {one other : Numeral} (same : one.text = other.text) : one = other := by
  have negative : one.negative = other.negative := by
    rw [Bool.eq_iff_iff, ← head?_text, same, head?_text]
  have unsigned : one.unsigned = other.unsigned := by
    rw [text, text, negative] at same
    split at same
    · exact (List.cons.inj same).2
    · exact same
  have whole : one.whole = other.whole := by
    rw [← takeWhile_unsigned, unsigned, takeWhile_unsigned]
  have fraction : one.fraction = other.fraction := by
    rw [Numeral.unsigned, Numeral.unsigned, whole, List.append_cancel_left_eq] at unsigned
    rw [← tail_pointed one.fraction, unsigned, tail_pointed]
  exact Numeral.ext negative whole fraction

end Numeral

end NfcTag.FixedPoint
