/-
# NfcTag.Field.Normal -- the value that a field keeps

`normalize` says what is left of a value once it has been stored: integers wrap
into the field's range, unsigned or two's complement; a 32-bit field rounds; a
decimal takes the field's scale; composite values are normalised part by part.
It is stated on values alone and mentions no bytes; `decode_encode` says that it
is what reading back gives.
-/
import NfcTag.Field

namespace NfcTag.Field

set_option autoImplicit false

/-- The whole part of a number, wrapped into `0 … 2 ^ bits - 1`. -/
def wrapUnsigned (bits : Nat) (v : Binary64) : Binary64 :=
  Binary64.ofInt (v.truncate % (1 <<< bits : Nat))

/-- The whole part of a number, wrapped into `-2 ^ (bits - 1) … 2 ^ (bits - 1) - 1`. -/
def wrapSigned (bits : Nat) (v : Binary64) : Binary64 :=
  Binary64.ofInt (v.truncate.bmod (1 <<< bits))

/-- Each part of a time of day is a byte. -/
def wrapTimeOfDay (t : TimeOfDay) : TimeOfDay :=
  ⟨wrapUnsigned 8 t.hours, wrapUnsigned 8 t.minutes, wrapUnsigned 8 t.seconds⟩

/-- The normal form of a value. -/
def normalize : (field : Field) → field.Value → field.Value
  | u8, v => wrapUnsigned 8 v
  | u16, v => wrapUnsigned 16 v
  | u32, v => wrapUnsigned 32 v
  | u64, n => Int.emod n (1 <<< 64 : Nat)
  | i8, v => wrapSigned 8 v
  | i16, v | zoneOffset, v => wrapSigned 16 v
  | i32, v => wrapSigned 32 v
  | i64, n | timePoint, n => Int.bmod n (1 <<< 64)
  | f32, v => v.roundToSingle
  | f64, v => v
  | bool, b => b
  | timeOfDay, t => wrapTimeOfDay t
  | dateRange, r => ⟨Int.bmod r.first (1 <<< 64), Int.bmod r.last (1 <<< 64)⟩
  | timeRange, r => ⟨wrapTimeOfDay r.first, wrapTimeOfDay r.last⟩
  | zonedTime, t => ⟨Int.bmod t.time (1 <<< 64), wrapSigned 16 t.offset⟩
  | fixedPoint32 scale, d => ⟨wrapSigned 32 d.unscaled, scale⟩
  | fixedPoint64 scale, d => ⟨Int.bmod d.unscaled (1 <<< 64), scale⟩

/-- Reading back a stored value gives its normal form, whatever follows it. -/
theorem decode_encode (field : Field) (value : field.Value) (rest : Bytes) :
    field.decode (field.encode value ++ rest) = field.normalize value := by
  rw [decode, encode, Codec.decode_append]
  cases field <;>
    simp only [codec, Codec.number, timeOfDayCodec, rangeCodec, zonedTimeCodec, fixedPointCodec,
      Codec.decode_encode_congr, Codec.decode_encode_pair, Codec.decode_encode_unsigned,
      Codec.decode_encode_signed, Codec.decode_encode_single, Codec.decode_encode_double,
      Codec.decode_encode_boolean] <;>
    rfl

end NfcTag.Field
