/-
# NfcTag.Proofs.Number.Rounding -- where rounding changes from one pattern to the next

The units of the magnitudes of a format grow with the magnitude, one step at a time
(`units_strictMono`), and rounding goes to one of the two that a count of units lies
between (`exists_bracket`).  So it reaches a magnitude exactly when the count has
passed the middle between it and the one before, the middle itself going to the even
one (`le_nearest_iff`).  That one law covers normal and subnormal values, underflow to
zero, the carry into the exponent field and the overflow to infinity, and everything
else is drawn from it.

Main statements: `natAbs_sub_nearest_le` and `odd_of_tie`, by which rounding is to the
nearest magnitude, ties to even.
-/
import Mathlib.Order.Monotone.Basic
import NfcTag.Proofs.Number.Patterns

namespace NfcTag.Interchange

set_option autoImplicit false

variable {F : Interchange} {n m : Nat}

/-! ## Steps between magnitudes -/

theorem units_lt_succ (F : Interchange) (magnitude : Nat) :
    F.units magnitude < F.units (magnitude + 1) := by
  obtain ⟨significand, shift, least, short, normal, value, rfl⟩ := F.exists_packed magnitude
  have next : F.units ((shift - F.quantum) <<< F.fractionBits + (significand + 1)) =
      (significand + 1) <<< shift :=
    units_packed least short (normal.imp_left (Nat.le_trans · (Nat.le_succ _)))
  rw [value, Nat.add_assoc, next, ← mul_one_shiftLeft significand,
    ← mul_one_shiftLeft (significand + 1), Nat.succ_mul]
  exact Nat.lt_add_of_pos_right (one_shiftLeft_pos shift)

theorem units_strictMono (F : Interchange) : StrictMono F.units :=
  strictMono_nat_of_lt_succ F.units_lt_succ

theorem units_zero (F : Interchange) : F.units 0 = 0 := by
  rw [units, Nat.zero_div, Nat.zero_mod, if_pos rfl, Nat.zero_shiftLeft]

/-! ## The two neighbours -/

/-- The spacing leaves a significand of the format's width. -/
theorem quotient_spacing (F : Interchange) (n : Nat) :
    n / 1 <<< F.spacing n < 1 <<< (F.fractionBits + 1) ∧
      (1 <<< F.fractionBits ≤ n / 1 <<< F.spacing n ∨ F.spacing n = F.quantum) := by
  have wide : F.spacing n = max F.quantum (n.log2 - F.fractionBits) := rfl
  simp only [Nat.shiftLeft_eq, Nat.one_mul]
  constructor
  · apply Nat.div_lt_of_lt_mul
    rw [← Nat.pow_add]
    calc n < 2 ^ (n.log2 + 1) := Nat.lt_log2_self
      _ ≤ 2 ^ (F.spacing n + (F.fractionBits + 1)) :=
          Nat.pow_le_pow_right (by decide) (by omega)
  · by_cases lowest : F.spacing n = F.quantum
    · exact .inr lowest
    · have full : F.fractionBits + F.spacing n = n.log2 := by omega
      have nonzero : n ≠ 0 := by
        rintro rfl
        rw [Nat.log2_zero] at full
        omega
      left
      rw [Nat.le_div_iff_mul_le (Nat.two_pow_pos _), ← Nat.pow_add, full]
      exact Nat.log2_self_le nonzero

/-- Rounding goes to the nearer one of the two magnitudes around a count of units, and
between them to the even one. -/
theorem exists_bracket (fraction : 0 < F.fractionBits) (n : Nat) :
    ∃ low, F.units low ≤ n ∧ n < F.units (low + 1) ∧
      F.nearest n = min F.infinity
        (if 2 * n < F.units low + F.units (low + 1) ∨
            2 * n = F.units low + F.units (low + 1) ∧ low % 2 = 0 then low else low + 1) := by
  obtain ⟨short, normal⟩ := F.quotient_spacing n
  have least : F.quantum ≤ F.spacing n := Nat.le_max_left _ _
  have parts := Nat.div_add_mod n (1 <<< F.spacing n)
  have rest := Nat.mod_lt n (one_shiftLeft_pos (F.spacing n))
  have rounded : F.nearest n = min F.infinity ((F.spacing n - F.quantum) <<< F.fractionBits +
      roundHalfEven n (1 <<< F.spacing n)) := rfl
  rw [roundHalfEven] at rounded
  generalize n / 1 <<< F.spacing n = quotient at short normal parts rounded
  have low : F.units ((F.spacing n - F.quantum) <<< F.fractionBits + quotient) =
      1 <<< F.spacing n * quotient := by
    rw [units_packed least (Nat.le_of_lt short) normal, ← mul_one_shiftLeft, Nat.mul_comm]
  have high : F.units ((F.spacing n - F.quantum) <<< F.fractionBits + quotient + 1) =
      1 <<< F.spacing n * quotient + 1 <<< F.spacing n := by
    rw [Nat.add_assoc, units_packed least short (normal.imp_left (Nat.le_trans · (Nat.le_succ _))),
      ← mul_one_shiftLeft, Nat.mul_comm, Nat.mul_succ]
  -- The exponent field stands behind the last bit of the fraction.
  have parity : ((F.spacing n - F.quantum) <<< F.fractionBits + quotient) % 2 = quotient % 2 := by
    obtain ⟨bits, same⟩ := Nat.exists_eq_succ_of_ne_zero (Nat.ne_of_gt fraction)
    rw [same, Nat.shiftLeft_succ, Nat.mul_add_mod]
  refine ⟨(F.spacing n - F.quantum) <<< F.fractionBits + quotient, ?_, ?_, ?_⟩
  · omega
  · omega
  · rw [low, high, parity, rounded]
    congr 1
    split <;> split <;> omega

/-! ## The middle between two magnitudes -/

/-- **Rounding reaches a magnitude where the count of units passes the middle** between
it and the one before, and reaches an even one in the middle already. -/
theorem le_nearest_iff (fraction : 0 < F.fractionBits) (positive : 0 < m)
    (most : m ≤ F.infinity) :
    m ≤ F.nearest n ↔ F.units (m - 1) + F.units m < 2 * n ∨
      F.units (m - 1) + F.units m = 2 * n ∧ m % 2 = 0 := by
  obtain ⟨low, below, above, rounded⟩ := exists_bracket fraction n
  have before := F.units_strictMono (show m - 1 < m by omega)
  rw [rounded, Nat.le_min, and_iff_right most]
  obtain less | rfl | more := Nat.lt_trichotomy m (low + 1)
  · have reached := F.units_strictMono.monotone (Nat.le_of_lt_succ less)
    split <;> omega
  · rw [Nat.add_sub_cancel]
    split <;> omega
  · have missed := F.units_strictMono.monotone (show low + 1 ≤ m - 1 by omega)
    split <;> omega

/-- The count lies between the two middles around the magnitude that it is rounded to. -/
theorem nearest_between (fraction : 0 < F.fractionBits) (finite : F.nearest n < F.infinity) :
    (0 < F.nearest n → F.units (F.nearest n - 1) + F.units (F.nearest n) < 2 * n ∨
      F.units (F.nearest n - 1) + F.units (F.nearest n) = 2 * n ∧ F.nearest n % 2 = 0) ∧
    (2 * n < F.units (F.nearest n) + F.units (F.nearest n + 1) ∨
      2 * n = F.units (F.nearest n) + F.units (F.nearest n + 1) ∧ F.nearest n % 2 = 0) := by
  constructor
  · intro positive
    exact (le_nearest_iff fraction positive (F.nearest_le n)).mp (Nat.le_refl _)
  · have stops : ¬(F.units (F.nearest n) + F.units (F.nearest n + 1) < 2 * n ∨
        F.units (F.nearest n) + F.units (F.nearest n + 1) = 2 * n ∧ (F.nearest n + 1) % 2 = 0) :=
      mt (le_nearest_iff fraction (Nat.succ_pos _) finite).mpr (Nat.not_succ_le_self _)
    omega

/-! ## Nearest, ties to even -/

/-- No magnitude is nearer than the one that is rounded to. -/
theorem natAbs_sub_nearest_le (fraction : 0 < F.fractionBits)
    (finite : F.nearest n < F.infinity) (m : Nat) :
    ((F.units (F.nearest n) : Int) - n).natAbs ≤ ((F.units m : Int) - n).natAbs := by
  obtain ⟨low, high⟩ := nearest_between fraction finite
  obtain less | rfl | more := Nat.lt_trichotomy m (F.nearest n)
  · have before := F.units_strictMono.monotone (Nat.le_sub_one_of_lt less)
    have apart := F.units_strictMono less
    have middle := low (by omega)
    omega
  · exact Nat.le_refl _
  · have behind := F.units_strictMono.monotone (show F.nearest n + 1 ≤ m from more)
    have apart := F.units_strictMono more
    omega

/-- Another magnitude that is as near is odd, and the one that is rounded to is even. -/
theorem odd_of_tie (fraction : 0 < F.fractionBits) (finite : F.nearest n < F.infinity)
    (other : m ≠ F.nearest n)
    (tie : ((F.units m : Int) - n).natAbs = ((F.units (F.nearest n) : Int) - n).natAbs) :
    F.nearest n % 2 = 0 ∧ m % 2 = 1 := by
  obtain ⟨low, high⟩ := nearest_between fraction finite
  obtain less | more := Nat.lt_or_gt_of_ne other
  · have before := F.units_strictMono.monotone (Nat.le_sub_one_of_lt less)
    have apart := F.units_strictMono less
    have middle := low (by omega)
    have same : m = F.nearest n - 1 := F.units_strictMono.injective (by omega)
    omega
  · have behind := F.units_strictMono.monotone (show F.nearest n + 1 ≤ m from more)
    have apart := F.units_strictMono more
    have same : m = F.nearest n + 1 := F.units_strictMono.injective (by omega)
    omega

end NfcTag.Interchange
