/-
# NfcTag.NanChoice -- which NaN is stored

A number says no more than that it is a NaN, but the formats have many patterns for one,
and which of them a field stores is up to the platform.  Some platforms keep the sign and
the payload of the pattern that a number was loaded from, some store one pattern always.
A `NanChoice` is what a platform stores at the places of a row.  It may choose anew at
every place, so what holds for all choices holds on all platforms.

`Field.encode`, and with it `Row.encode` and `Payload.encode`, stand for the platform that
always stores the canonical pattern (`NanChoice.canonical`); `encodeAs` is the same with
any other choice.
-/
import NfcTag.Payload

namespace NfcTag

set_option autoImplicit false

/-- For every place the patterns that are stored there if the number is a NaN. -/
structure NanChoice where
  single : Nat → UInt32
  double : Nat → UInt64
  isNan_single : ∀ place, Interchange.single.IsNan (single place).toNat
  isNan_double : ∀ place, Interchange.double.IsNan (double place).toNat

namespace NanChoice

/-- One pattern always: quiet, positive, without payload. -/
def canonical : NanChoice where
  single _ := 0x7fc00000
  double _ := 0x7ff8000000000000
  isNan_single _ := by decide
  isNan_double _ := by decide

/-- A NaN of 64 bits cut to 32: the sign and the front of the payload, made quiet. -/
def narrow (pattern : UInt64) : UInt32 :=
  UInt32.ofNat (pattern.toNat / 0x8000000000000000 * 0x80000000 + 0x7fc00000 +
    pattern.toNat / 0x20000000 % 0x400000)

theorem isNan_narrow (pattern : UInt64) : Interchange.single.IsNan (narrow pattern).toNat := by
  have sign := pattern.toNat_lt
  have infinity : Interchange.single.infinity = 0x7f800000 := rfl
  have signBit : Interchange.single.signBit = 0x80000000 := rfl
  rw [Interchange.IsNan, infinity, signBit, narrow, UInt32.toNat_ofNat']
  omega

/-- The pattern if it is that of a NaN, else the canonical one. -/
def nanOf (pattern : UInt64) : UInt64 :=
  if Interchange.double.IsNan pattern.toNat then pattern else 0x7ff8000000000000

theorem isNan_nanOf (pattern : UInt64) : Interchange.double.IsNan (nanOf pattern).toNat := by
  rw [nanOf]
  split
  · assumption
  · decide

/-- The choice of a platform whose NaNs keep their patterns: `patterns` are those of the
numbers that are stored. -/
def keeping (patterns : Nat → UInt64) : NanChoice where
  single place := narrow (nanOf (patterns place))
  double place := nanOf (patterns place)
  isNan_single _ := isNan_narrow _
  isNan_double _ := isNan_nanOf _

end NanChoice

/-! ## Bytes under a choice -/

namespace Field

/-- Only fields of floating point hold NaNs. -/
def isNan : (field : Field) → field.Value → Bool
  | f32, v | f64, v => v = Binary64.nan
  | _, _ => false

/-- The bytes of a value at a place. -/
def encodeAs (nan : NanChoice) (place : Nat) : (field : Field) → field.Value → Bytes
  | f32, v =>
      if v = Binary64.nan then BigEndian.encode 4 (nan.single place).toNat
      else f32.encode v
  | f64, v =>
      if v = Binary64.nan then BigEndian.encode 8 (nan.double place).toNat
      else f64.encode v
  | field, value => field.encode value

end Field

def Cell.isNan (cell : Cell) : Bool := cell.field.isNan cell.value

/-- The bytes of cells that lie back to back from a place on. -/
def Cell.encodeFrom (nan : NanChoice) : Nat → List Cell → Bytes
  | _, [] => []
  | place, cell :: rest =>
      cell.field.encodeAs nan place cell.value ++ encodeFrom nan (place + cell.field.size) rest

def Row.encodeAs {schema : Schema} (nan : NanChoice) (row : Row schema) : Bytes :=
  Cell.encodeFrom nan 0 row.wire.cells

def Payload.encodeAs (payload : Payload) (nan : NanChoice) (row : Row payload.schema) : Bytes :=
  row.encodeAs nan

end NfcTag
