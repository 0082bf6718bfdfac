/-
# NfcTag.Proofs.Number.Patterns -- patterns read and written again

A pattern of a format is decoded and encoded again to itself, unless it is a NaN:
of those only one is ever written (`encode_decode`).  A double holds what a
single holds (`decode_encode_single`), so widening loses nothing, and what was narrowed
once is narrowed to the same single again (`toSingle_roundToSingle`).

Main statement: `toSingle_ofSingle`.
-/
import NfcTag.Proofs.Number.Exact

namespace NfcTag

set_option autoImplicit false

namespace Interchange

variable {F : Interchange}

/-- Every pattern packs a significand and a shift, the ones past infinity too. -/
theorem exists_packed (F : Interchange) (magnitude : Nat) :
    ∃ significand shift, F.quantum ≤ shift ∧ significand < 1 <<< (F.fractionBits + 1) ∧
      (1 <<< F.fractionBits ≤ significand ∨ shift = F.quantum) ∧
      F.units magnitude = significand <<< shift ∧
      (shift - F.quantum) <<< F.fractionBits + significand = magnitude := by
  have positive := one_shiftLeft_pos F.fractionBits
  have double : 1 <<< (F.fractionBits + 1) = 2 * 1 <<< F.fractionBits := Nat.shiftLeft_succ _ _
  have parts := Nat.div_add_mod magnitude (1 <<< F.fractionBits)
  have below := Nat.mod_lt magnitude positive
  generalize exponent : magnitude / 1 <<< F.fractionBits = e at parts
  generalize fraction : magnitude % 1 <<< F.fractionBits = f at parts below
  by_cases lowest : e = 0
  · subst lowest
    rw [Nat.mul_zero, Nat.zero_add] at parts
    refine ⟨f, F.quantum, Nat.le_refl _, by omega, .inr rfl, ?_, ?_⟩
    · simp only [units, exponent, fraction, if_true]
    · rw [Nat.sub_self, Nat.zero_shiftLeft, Nat.zero_add, parts]
  · -- The exponent field counts from one, and its one is the leading one.
    have moved : (F.quantum + e - 1 - F.quantum) <<< F.fractionBits +
        (1 <<< F.fractionBits + f) = magnitude := by
      obtain ⟨e, rfl⟩ := Nat.exists_eq_succ_of_ne_zero lowest
      have shift : F.quantum + e.succ - 1 - F.quantum = e := by omega
      rw [shift, ← mul_one_shiftLeft, ← parts, Nat.mul_succ, Nat.mul_comm]
      omega
    refine ⟨1 <<< F.fractionBits + f, F.quantum + e - 1, by omega, by omega, .inl (by omega), ?_,
      moved⟩
    simp only [units, exponent, fraction, if_neg lowest]

/-- A finite pattern holds its own value. -/
theorem exists_held_units {magnitude : Nat} (finite : magnitude < F.infinity) :
    ∃ significand shift, F.Held significand shift ∧
      F.units magnitude = significand <<< shift ∧
      (shift - F.quantum) <<< F.fractionBits + significand = magnitude := by
  obtain ⟨significand, shift, least, short, normal, units, rfl⟩ := F.exists_packed magnitude
  exact ⟨significand, shift, ⟨least, short, normal, finite⟩, units, rfl⟩

/-- A pattern is written as it was read, but for the NaNs. -/
theorem encode_decode {pattern : Nat} (word : pattern < 2 * F.signBit) :
    F.encode (F.decode pattern) = if F.IsNan pattern then F.canonicalNan else pattern := by
  have sign : (if decide (pattern / F.signBit % 2 = 1) then F.signBit else 0) +
      pattern % F.signBit = pattern := by
    have parts := Nat.div_add_mod pattern F.signBit
    have bit : pattern / F.signBit < 2 := Nat.div_lt_of_lt_mul (by omega)
    obtain zero | one := Nat.le_one_iff_eq_zero_or_eq_one.mp (Nat.le_of_lt_succ bit)
    · rw [zero] at parts ⊢
      simpa using parts
    · rw [one] at parts ⊢
      simpa using parts
  rw [decode]
  by_cases isNan : F.IsNan pattern
  · rw [if_pos isNan, if_pos isNan]
    rfl
  · have most : pattern % F.signBit ≤ F.infinity := Nat.le_of_not_lt isNan
    rw [if_neg isNan, if_neg isNan]
    by_cases infinite : pattern % F.signBit = F.infinity
    · rw [if_pos infinite, encode, ← infinite]
      exact sign
    · obtain ⟨significand, shift, held, value, magnitude⟩ :=
        exists_held_units (Nat.lt_of_le_of_ne most infinite)
      rw [if_neg infinite, encode, value, nearest_held held, magnitude]
      exact sign

/-- Of the NaN patterns only one is ever written. -/
theorem encode_of_isNan {d : Datum} (small : F.infinity < F.signBit)
    (isNan : F.IsNan (F.encode d)) : F.encode d = F.canonicalNan := by
  have number (sign : Bool) (pattern : Nat) (most : pattern ≤ F.infinity) :
      ¬ F.IsNan ((if sign then F.signBit else 0) + pattern) := by
    rw [IsNan, signed_mod sign (Nat.lt_of_le_of_lt most small)]
    exact Nat.not_lt.mpr most
  cases d with
  | nan => rfl
  | infinite negative => exact absurd isNan (number negative _ (Nat.le_refl _))
  | finite negative units => exact absurd isNan (number negative _ (F.nearest_le units))

theorem encode_single_lt (d : Datum) : single.encode d < 0x100000000 := by
  cases d with
  | nan => decide
  | infinite negative => cases negative <;> decide
  | finite negative units => exact encode_finite_lt (by decide) negative units

theorem decode_eq_nan_iff {pattern : Nat} : F.decode pattern = .nan ↔ F.IsNan pattern := by
  rw [decode]
  split
  · exact iff_of_true rfl ‹_›
  · rename_i number
    refine iff_of_false (fun same => ?_) number
    split at same <;> cases same

/-- A pattern of a finite number is neither a NaN nor infinite. -/
theorem finite_of_decode {pattern value : Nat} {negative : Bool}
    (finite : F.decode pattern = .finite negative value) :
    pattern % F.signBit < F.infinity ∧ value = F.units (pattern % F.signBit) := by
  rw [decode] at finite
  split at finite
  · cases finite
  · rename_i isNan
    split at finite
    · cases finite
    · rename_i infinite
      cases finite
      exact ⟨Nat.lt_of_le_of_ne (Nat.le_of_not_lt isNan) infinite, rfl⟩

/-- What a single holds, a double holds. -/
theorem decode_encode_single (pattern : Nat) :
    double.decode (double.encode (single.decode pattern)) = single.decode pattern := by
  have small : double.infinity < double.signBit := by decide
  generalize datum : single.decode pattern = d
  cases d with
  | nan => decide
  | infinite negative => cases negative <;> decide
  | finite negative value =>
      obtain ⟨finite, rfl⟩ := finite_of_decode datum
      obtain ⟨significand, shift, held, units, -⟩ := exists_held_units finite
      have least : 925 ≤ shift := held.quantum_le
      have short : significand < 1 <<< 24 := held.short
      have most : (shift - 925) <<< 23 + significand < 255 <<< 23 := held.finite
      simp only [Nat.shiftLeft_eq] at short most
      obtain ⟨wide, moved, heldWide, same⟩ := Binary64.exists_held
        (show significand < 0x20000000000000 by omega) (show 52 ≤ shift by omega)
        (show shift ≤ 2045 by omega)
      rw [units, same]
      exact decode_encode_held heldWide small _

end Interchange

namespace Binary64

/-- The pattern of a number is what its sign and units are written as. -/
theorem encode_datum (v : Binary64) : Interchange.double.encode v.datum = v.bits.toNat := by
  rw [datum, Interchange.encode_decode (F := .double) v.bits.toNat_lt]
  split
  · exact (v.nan_unique ‹_›).symm
  · rfl

/-- A number is the number of its own sign and units. -/
theorem ofDatum_datum (v : Binary64) : ofDatum v.datum = v := by
  rw [ofDatum, encode_datum, UInt64.ofNat_toNat, ofBits_bits]

/-- A number that is an integer is that of the integer; only zero has another one. -/
theorem eq_ofInt_of_toInt? {v : Binary64} {n : Int} (whole : v.toInt? = some n)
    (nonzero : n ≠ 0) : v = ofInt n := by
  have positive : 0 < Datum.one := one_shiftLeft_pos 1074
  cases shape : v.datum with
  | nan => rw [toInt?, shape] at whole; cases whole
  | infinite negative => rw [toInt?, shape] at whole; cases whole
  | finite negative units =>
      rw [toInt?, shape] at whole
      simp only [Option.ite_none_right_eq_some, Option.some.injEq] at whole
      obtain ⟨exact, part⟩ := whole
      obtain ⟨count, rfl⟩ := Nat.dvd_of_mod_eq_zero exact
      simp only [truncate, shape, ← Int.natCast_ediv, Nat.mul_div_cancel_left count positive] at part
      have sign : negative = decide (n < 0) := by
        cases negative <;> simp at part ⊢ <;> omega
      have size : n.natAbs = count := by
        cases negative <;> simp at part <;> omega
      rw [← ofDatum_datum v, shape, ofInt, size, Nat.mul_comm, sign]

theorem eq_of_toNat? {v w : Binary64} {n : Nat} (first : v.toNat? = some n)
    (second : w.toNat? = some n) (nonzero : n ≠ 0) : v = w := by
  have whole {v : Binary64} (named : v.toNat? = some n) : v.toInt? = some (n : Int) := by
    obtain ⟨m, read, natural⟩ := Option.bind_eq_some_iff.mp named
    rw [read, (Int.mem_toNat?.mp natural)]
  rw [eq_ofInt_of_toInt? (whole first) (by omega), eq_ofInt_of_toInt? (whole second) (by omega)]

theorem datum_ofSingle (bits : UInt32) :
    (ofSingle bits).datum = Interchange.single.decode bits.toNat :=
  datum_ofDatum (Interchange.decode_encode_single bits.toNat)

/-- **A single is written as it was read**, but for the NaNs. -/
theorem toSingle_ofSingle (bits : UInt32) :
    (ofSingle bits).toSingle =
      if Interchange.single.IsNan bits.toNat then UInt32.ofNat Interchange.single.canonicalNan
      else bits := by
  have written : Interchange.single.encode (Interchange.single.decode bits.toNat) =
      if Interchange.single.IsNan bits.toNat then Interchange.single.canonicalNan
      else bits.toNat := by
    apply Interchange.encode_decode
    exact bits.toNat_lt
  rw [toSingle, datum_ofSingle, written]
  split
  · rfl
  · exact UInt32.ofNat_toNat

/-- All NaNs are read alike, and nothing else is. -/
theorem ofSingle_eq_nan_iff {bits : UInt32} :
    ofSingle bits = nan ↔ Interchange.single.IsNan bits.toNat := by
  rw [← Interchange.decode_eq_nan_iff]
  constructor
  · intro same
    rw [← datum_ofSingle, same]
    decide
  · intro isNan
    rw [ofSingle, isNan]
    decide

theorem ofBits_eq_nan_iff {bits : UInt64} :
    ofBits bits = nan ↔ Interchange.double.IsNan bits.toNat := by
  constructor
  · intro same
    refine Decidable.byContradiction fun number => ?_
    have kept := bits_ofBits bits
    rw [same, if_neg number] at kept
    exact number (by rw [← kept]; decide)
  · exact fun isNan => dif_pos isNan

/-- A single needs no rounding. -/
theorem roundToSingle_ofSingle (bits : UInt32) : (ofSingle bits).roundToSingle = ofSingle bits := by
  rw [roundToSingle, toSingle_ofSingle]
  split
  · rename_i isNan
    rw [ofSingle_eq_nan_iff.mpr isNan]
    exact ofSingle_eq_nan_iff.mpr (by decide)
  · rfl

theorem toNat_toSingle (v : Binary64) : v.toSingle.toNat = Interchange.single.encode v.datum := by
  rw [toSingle, UInt32.toNat_ofNat']
  exact Nat.mod_eq_of_lt (Interchange.encode_single_lt v.datum)

/-- A number has the bytes of the single that it is rounded to. -/
theorem toSingle_roundToSingle (v : Binary64) : v.roundToSingle.toSingle = v.toSingle := by
  rw [roundToSingle, toSingle_ofSingle]
  split
  · rename_i isNan
    rw [toNat_toSingle] at isNan
    rw [toSingle, Interchange.encode_of_isNan (by decide) isNan]
  · rfl

/-- Rounding makes no NaN of a number, and none of a NaN. -/
theorem roundToSingle_eq_nan_iff {v : Binary64} : v.roundToSingle = nan ↔ v = nan := by
  constructor
  · intro rounded
    have isNan := Interchange.decode_eq_nan_iff.mpr (ofSingle_eq_nan_iff.mp rounded)
    rw [toNat_toSingle] at isNan
    cases shape : v.datum with
    | nan =>
        rw [← ofDatum_datum v, shape]
        decide
    | infinite negative =>
        rw [shape] at isNan
        cases negative <;> exact absurd isNan (by decide)
    | finite negative units =>
        rw [shape, Interchange.decode_encode_finite (by decide)] at isNan
        split at isNan <;> cases isNan
  · rintro rfl
    exact roundToSingle_nan

end Binary64

end NfcTag
