/-
# NfcTag.Proofs.Number.Order -- rounding keeps the order of numbers

A number lies somewhere on the line of the rational numbers, or at one of its ends if it
is infinite (`Binary64.onLine?`), and numbers are compared there.  Rounding to the nearest
number keeps the order (`Nearest.mono`): only where two numbers are both in the middle
between two of the format does the rule for ties decide.  What is beyond the limit of the
singles goes to the ends of the line, so no case is left out (`Binary64.Lands`).

Main statement: `roundToSingle_mono`.
-/
import Mathlib.Order.WithBot
import NfcTag.Proofs.Number.Nearest

namespace NfcTag

set_option autoImplicit false

/-! ## The nearest number -/

/-- What is nearer to the larger of two numbers is not below the middle between them. -/
theorem add_le_of_abs_sub_le {x y q : ℚ} (less : y < x) (near : |x - q| ≤ |y - q|) :
    x + y ≤ 2 * q := by
  obtain ⟨size, -⟩ | ⟨size, -⟩ := abs_cases (y - q) <;> linarith [le_abs_self (x - q)]

theorem le_add_of_abs_sub_le {x y q : ℚ} (less : x < y) (near : |x - q| ≤ |y - q|) :
    2 * q ≤ x + y := by
  obtain ⟨size, -⟩ | ⟨size, -⟩ := abs_cases (y - q) <;> linarith [neg_abs_le (x - q)]

/-- Rounding to the nearest number keeps the order.  Where both numbers are in the middle
between two of the format, that only one of these is even decides. -/
theorem Interchange.Nearest.mono {F : Interchange} {q q' x x' : ℚ} {pattern pattern' : Nat}
    (one : F.Nearest q x pattern) (other : F.Nearest q' x' pattern') (le : q ≤ q') : x ≤ x' := by
  by_contra greater
  have less : x' < x := not_le.mp greater
  have near := one.le _ _ other.value?_eq
  have above := add_le_of_abs_sub_le less near
  have below := le_add_of_abs_sub_le less (other.le _ _ one.value?_eq)
  obtain rfl : q = q' := by linarith
  have tie := le_antisymm near (other.le _ _ one.value?_eq)
  have even := (one.even_of_tie _ _ other.value?_eq less.ne tie.symm).1
  exact (other.even_of_tie _ _ one.value?_eq less.ne' tie).2 even

/-! ## The line -/

/-- A place on the line of the rational numbers, whose ends are the infinities. -/
abbrev Line : Type := WithBot (WithTop ℚ)

def Line.ofRat (q : ℚ) : Line := ((q : WithTop ℚ) : WithBot (WithTop ℚ))

theorem Line.ofRat_le_iff {q r : ℚ} : ofRat q ≤ ofRat r ↔ q ≤ r :=
  WithBot.coe_le_coe.trans WithTop.coe_le_coe

def Line.ofEnd (negative : Bool) : Line := if negative then ⊥ else ⊤

namespace Binary64

/-- Where a number lies; NaN lies nowhere. -/
def onLine? (v : Binary64) : Option Line :=
  match v.datum with
  | .nan => none
  | .infinite negative => some (.ofEnd negative)
  | .finite _ _ => v.value?.map Line.ofRat

/-- Numbers are compared where they lie, so both zeros are alike. -/
instance : LE Binary64 where
  le v w := ∃ p r, v.onLine? = some p ∧ w.onLine? = some r ∧ p ≤ r

theorem onLine?_of_value? {v : Binary64} {q : ℚ} (number : v.value? = some q) :
    v.onLine? = some (Line.ofRat q) := by
  obtain ⟨negative, n, shape, -⟩ := exists_datum_of_value? number
  rw [onLine?, shape, number]
  rfl

theorem onLine?_infinity (negative : Bool) :
    (infinity negative).onLine? = some (.ofEnd negative) := by
  rw [onLine?, datum_infinity]

/-- The sign bit is that of the number, but for zero. -/
theorem sign_of_value? {v : Binary64} {q : ℚ} (number : v.value? = some q) :
    if v.negative then q ≤ 0 else 0 ≤ q := by
  obtain ⟨negative, n, shape, rfl⟩ := exists_datum_of_value? number
  have nonneg : (0 : ℚ) ≤ n / Datum.one := by positivity
  rw [negative_eq_datum, shape]
  cases negative with
  | false => simpa [signedUnits, Datum.negative] using nonneg
  | true => simpa [signedUnits, Datum.negative, neg_div] using nonneg

/-! ## Rounding on the line -/

/-- What lies at the first place comes to lie at the second when it is rounded to a single. -/
inductive Lands : Line → Line → Prop where
  | high {p : Line} (limit : Line.ofRat singleLimit ≤ p) : Lands p ⊤
  | low {p : Line} (limit : p ≤ Line.ofRat (-singleLimit)) : Lands p ⊥
  | near {q x : ℚ} {pattern : Nat} (less : |q| < singleLimit)
      (nearest : Interchange.single.Nearest q x pattern) : Lands (.ofRat q) (.ofRat x)

theorem roundToSingle_infinity (negative : Bool) :
    (infinity negative).roundToSingle = infinity negative := by
  cases negative <;> decide +kernel

/-- A number beyond the limit comes to lie at its end of the line. -/
theorem lands_ofEnd {v : Binary64} {q : ℚ} (number : v.value? = some q)
    (limit : singleLimit ≤ |q|) : Lands (.ofRat q) (.ofEnd v.negative) := by
  have sign := sign_of_value? number
  cases bit : v.negative with
  | false =>
      rw [bit, if_neg Bool.false_ne_true] at sign
      rw [abs_of_nonneg sign] at limit
      exact .high (Line.ofRat_le_iff.mpr limit)
  | true =>
      rw [bit, if_pos rfl] at sign
      rw [abs_of_nonpos sign] at limit
      exact .low (Line.ofRat_le_iff.mpr (le_neg.mp limit))

theorem exists_lands_of_value? {v : Binary64} {q : ℚ} (number : v.value? = some q) :
    ∃ r, v.roundToSingle.onLine? = some r ∧ Lands (.ofRat q) r := by
  have rounds := v.roundsTo_roundToSingle
  by_cases less : |q| < singleLimit
  · obtain ⟨x, nearest⟩ := rounds.nearest q number less
    refine ⟨.ofRat x, onLine?_of_value? ?_, .near less nearest⟩
    rw [rounds.value?_eq, nearest.value?_eq]
  · have limit := not_lt.mp less
    refine ⟨_, ?_, lands_ofEnd number limit⟩
    rw [(rounds.infinite_iff q number).mpr limit, onLine?_infinity]

theorem exists_lands {v : Binary64} {p : Line} (lies : v.onLine? = some p) :
    ∃ r, v.roundToSingle.onLine? = some r ∧ Lands p r := by
  cases shape : v.datum with
  | nan =>
      rw [onLine?, shape] at lies
      cases lies
  | infinite negative =>
      have same : v = infinity negative := by rw [← ofDatum_datum v, shape, infinity]
      rw [same, onLine?_infinity, Option.some.injEq] at lies
      rw [same, roundToSingle_infinity, onLine?_infinity, ← lies]
      refine ⟨_, rfl, ?_⟩
      cases negative with
      | false => exact .high le_top
      | true => exact .low bot_le
  | finite negative n =>
      have number : v.value? = some ((signedUnits negative n : ℚ) / Datum.one) := by
        rw [value?_eq, shape, Datum.value?_finite]
      obtain rfl := Option.some.inj ((onLine?_of_value? number).symm.trans lies)
      exact exists_lands_of_value? number

theorem Lands.mono {p p' r r' : Line} (one : Lands p r) (other : Lands p' r') (le : p ≤ p') :
    r ≤ r' := by
  cases one with
  | low limit => exact bot_le
  | high limit =>
      -- The other number is beyond the limit, too.
      cases other with
      | high limit' => exact le_top
      | low limit' =>
          have crossed := Line.ofRat_le_iff.mp ((limit.trans le).trans limit')
          norm_num [singleLimit] at crossed
      | near less' nearest' =>
          have beyond := Line.ofRat_le_iff.mp (limit.trans le)
          exact absurd beyond (not_le.mpr (lt_of_abs_lt less'))
  | near less nearest =>
      cases other with
      | high limit' => exact le_top
      | low limit' =>
          have beyond := Line.ofRat_le_iff.mp (le.trans limit')
          exact absurd beyond (not_le.mpr (neg_lt_of_abs_lt less))
      | near less' nearest' =>
          exact Line.ofRat_le_iff.mpr (nearest.mono nearest' (Line.ofRat_le_iff.mp le))

/-- **Rounding to singles keeps the order** of numbers. -/
theorem roundToSingle_mono {v w : Binary64} (le : v ≤ w) : v.roundToSingle ≤ w.roundToSingle := by
  obtain ⟨p, p', lies, lies', below⟩ := le
  obtain ⟨r, kept, lands⟩ := exists_lands lies
  obtain ⟨r', kept', lands'⟩ := exists_lands lies'
  exact ⟨r, r', kept, kept', lands.mono lands' below⟩

end Binary64

end NfcTag
