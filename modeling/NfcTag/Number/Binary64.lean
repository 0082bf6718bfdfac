/-
# NfcTag.Number.Binary64 -- the numbers that callers hand in

Numbers reach the library as 64-bit floating point: field values, offsets, bit
indices and type codes may all be fractional, negative, infinite or NaN, and
every operation says what it does with such a number.  A `Binary64` is its bit
pattern; NaN has one pattern only, so equality of numbers is equality of
patterns, the two zeros apart.  Which pattern stands for a NaN in the bytes of a
tag is another matter, and no property of the number (`NanChoice`).

* `truncate` is the whole part, zero for NaN and the infinities: what an
  integer field stores before it wraps.
* `toInt?` and `toNat?` are exact: a place or an index has to be whole.
* `toSingle` and `ofSingle` narrow to a 32-bit pattern and widen it again.
-/
import NfcTag.Number.Interchange

namespace NfcTag

set_option autoImplicit false

/-- A 64-bit floating-point number with a single NaN. -/
@[ext] structure Binary64 where
  bits : UInt64
  /-- NaN is held in its canonical pattern. -/
  nan_unique : Interchange.double.IsNan bits.toNat →
    bits.toNat = Interchange.double.canonicalNan
  deriving DecidableEq

namespace Binary64

def nan : Binary64 := ⟨0x7ff8000000000000, fun _ => by decide⟩

/-- Any pattern as a number; NaN patterns lose their sign and payload. -/
def ofBits (bits : UInt64) : Binary64 :=
  if isNan : Interchange.double.IsNan bits.toNat then nan
  else ⟨bits, fun h => absurd h isNan⟩

/-- A number is the number of its own pattern. -/
theorem ofBits_bits (v : Binary64) : ofBits v.bits = v := by
  unfold ofBits
  split
  · rename_i isNan
    ext1
    exact UInt64.toNat_inj.mp (v.nan_unique isNan).symm
  · rfl

/-- The pattern of a number made from a pattern: NaN apart, the same. -/
theorem bits_ofBits (bits : UInt64) :
    (ofBits bits).bits =
      if Interchange.double.IsNan bits.toNat then nan.bits else bits := by
  unfold ofBits
  split <;> rfl

/-- The sign and the units of a number. -/
def datum (v : Binary64) : Datum := Interchange.double.decode v.bits.toNat

def ofDatum (d : Datum) : Binary64 := ofBits (UInt64.ofNat (Interchange.double.encode d))

def ofInt (n : Int) : Binary64 := ofDatum (.finite (n < 0) (n.natAbs * Datum.one))

instance : Inhabited Binary64 := ⟨ofInt 0⟩

/-! ## Whole numbers -/

/-- The whole part, toward zero; NaN and the infinities count as zero. -/
def truncate (v : Binary64) : Int :=
  match v.datum with
  | .finite negative units =>
      let whole : Int := units / Datum.one
      if negative then -whole else whole
  | _ => 0

/-- The number as an integer, if it is one. -/
def toInt? (v : Binary64) : Option Int :=
  match v.datum with
  | .finite _ units => if units % Datum.one = 0 then some v.truncate else none
  | _ => none

/-- The number as a natural, if it is one.  Both zeros are zero. -/
def toNat? (v : Binary64) : Option Nat := v.toInt?.bind Int.toNat?

/-- The whole part modulo 256. -/
def toByte (v : Binary64) : UInt8 := UInt8.ofInt v.truncate

/-! ## Singles -/

def toSingle (v : Binary64) : UInt32 := UInt32.ofNat (Interchange.single.encode v.datum)

/-- The number that a 32-bit pattern stands for. -/
def ofSingle (bits : UInt32) : Binary64 := ofDatum (Interchange.single.decode bits.toNat)

/-- The number rounded to 32 bits and widened again. -/
def roundToSingle (v : Binary64) : Binary64 := ofSingle v.toSingle

theorem roundToSingle_nan : nan.roundToSingle = nan := by decide +kernel

end Binary64

end NfcTag
