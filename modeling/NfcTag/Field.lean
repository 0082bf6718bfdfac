/-
# NfcTag.Field -- the kinds of field a tag stores

A field is one of nineteen fixed-size kinds.  `Value` gives the type of its
values, `codec` its bytes; everything is big-endian.  Small integers come from
callers as plain numbers and wrap into the field, 64-bit ones are integers of
any size and wrap alike.  The scale of a fixed-point field belongs to the field
and is not stored: a written value's own scale is ignored, a read one has the
field's.
-/
import NfcTag.Codec
import NfcTag.FixedPoint
import NfcTag.WallTime

namespace NfcTag

set_option autoImplicit false

inductive Field where
  | u8 | u16 | u32 | u64
  | i8 | i16 | i32 | i64
  | f32 | f64
  | bool
  | timePoint | timeOfDay | dateRange | timeRange
  | zoneOffset | zonedTime
  | fixedPoint32 (scale : Int)
  | fixedPoint64 (scale : Int)
  deriving Repr, DecidableEq

namespace Field

abbrev Value : Field → Type
  | u8 | u16 | u32 | i8 | i16 | i32 | f32 | f64 | zoneOffset => Binary64
  | u64 | i64 | timePoint => Int
  | bool => Bool
  | timeOfDay => TimeOfDay
  | dateRange => Range Int
  | timeRange => Range TimeOfDay
  | zonedTime => ZonedTime
  | fixedPoint32 _ => FixedPoint Binary64
  | fixedPoint64 _ => FixedPoint Int

instance (field : Field) : DecidableEq field.Value := by
  cases field <;> infer_instance

/-! ## Bytes -/

/-- Hours, minutes and seconds, a byte each. -/
def timeOfDayCodec : Codec TimeOfDay :=
  let byte := (Codec.unsigned 1).number
  (byte.pair (byte.pair byte)).congr
    (fun t => (t.hours, t.minutes, t.seconds))
    fun (hours, minutes, seconds) => ⟨hours, minutes, seconds⟩

/-- The first end, then the last. -/
def rangeCodec {α : Type} (bound : Codec α) : Codec (Range α) :=
  (bound.pair bound).congr (fun r => (r.first, r.last)) fun (first, last) => ⟨first, last⟩

/-- The point in time, then its zone offset. -/
def zonedTimeCodec : Codec ZonedTime :=
  ((Codec.signed 8).pair (Codec.signed 2).number).congr
    (fun t => (t.time, t.offset)) fun (time, offset) => ⟨time, offset⟩

/-- The magnitude alone; the scale is given. -/
def fixedPointCodec {α : Type} (magnitude : Codec α) (scale : Int) : Codec (FixedPoint α) :=
  magnitude.congr FixedPoint.unscaled fun unscaled => ⟨unscaled, scale⟩

def codec : (field : Field) → Codec field.Value
  | u8 => (Codec.unsigned 1).number
  | u16 => (Codec.unsigned 2).number
  | u32 => (Codec.unsigned 4).number
  | u64 => Codec.unsigned 8
  | i8 => (Codec.signed 1).number
  | i16 | zoneOffset => (Codec.signed 2).number
  | i32 => (Codec.signed 4).number
  | i64 | timePoint => Codec.signed 8
  | f32 => Codec.single
  | f64 => Codec.double
  | bool => Codec.boolean
  | timeOfDay => timeOfDayCodec
  | dateRange => rangeCodec (Codec.signed 8)
  | timeRange => rangeCodec timeOfDayCodec
  | zonedTime => zonedTimeCodec
  | fixedPoint32 scale => fixedPointCodec (Codec.signed 4).number scale
  | fixedPoint64 scale => fixedPointCodec (Codec.signed 8) scale

def size (field : Field) : Nat := field.codec.size

/-- The bytes of a value, on a platform that stores one NaN (`encodeAs_canonical`). -/
def encode (field : Field) (value : field.Value) : Bytes := field.codec.encode value

/-- The value at the front of a byte string. -/
def decode (field : Field) (bytes : Bytes) : field.Value := field.codec.decode bytes

@[simp] theorem length_encode (field : Field) (value : field.Value) :
    (field.encode value).length = field.size :=
  field.codec.length_encode value

theorem size_pos (field : Field) : 0 < field.size := by
  cases field <;>
    simp [size, codec, Codec.number, Codec.unsigned, Codec.signed, Codec.word, Codec.single,
      Codec.double, Codec.boolean, Codec.congr, Codec.pair, timeOfDayCodec, rangeCodec,
      zonedTimeCodec, fixedPointCodec]

/-- The value that stands for nothing yet: zero, false, or made of such parts. -/
def zero : (field : Field) → field.Value
  | u8 | u16 | u32 | i8 | i16 | i32 | f32 | f64 | zoneOffset => Binary64.ofInt 0
  | u64 | i64 | timePoint => (0 : Int)
  | bool => false
  | timeOfDay => midnight
  | dateRange => ⟨0, 0⟩
  | timeRange => ⟨midnight, midnight⟩
  | zonedTime => ⟨0, Binary64.ofInt 0⟩
  | fixedPoint32 scale => ⟨Binary64.ofInt 0, scale⟩
  | fixedPoint64 scale => ⟨0, scale⟩
where
  midnight : TimeOfDay := ⟨Binary64.ofInt 0, Binary64.ofInt 0, Binary64.ofInt 0⟩

end Field

end NfcTag
