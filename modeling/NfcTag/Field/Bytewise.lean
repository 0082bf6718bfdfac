/-
# NfcTag.Field.Bytewise -- fields stored and loaded one byte at a time

Every field is made of numbers, 64-bit integers and truth values that are moved byte by
byte.  `put` and `get` do with a field at a place of a buffer what `write` and `read`
say comes of it, and refuse the same places.
-/
import NfcTag.Codec.Bytewise
import NfcTag.Field.Store

namespace NfcTag.Field

set_option autoImplicit false

def timeOfDayBytewise : Bytewise TimeOfDay :=
  (Bytewise.byte.pair (Bytewise.byte.pair Bytewise.byte)).congr
    (fun t => (t.hours, t.minutes, t.seconds))
    fun (hours, minutes, seconds) => ⟨hours, minutes, seconds⟩

def rangeBytewise {α : Type} (bound : Bytewise α) : Bytewise (Range α) :=
  (bound.pair bound).congr (fun r => (r.first, r.last)) fun (first, last) => ⟨first, last⟩

def zonedTimeBytewise : Bytewise ZonedTime :=
  (Bytewise.signedLong.pair (Bytewise.word 2).extend).congr
    (fun t => (t.time, t.offset)) fun (time, offset) => ⟨time, offset⟩

def fixedPointBytewise {α : Type} (magnitude : Bytewise α) (scale : Int) :
    Bytewise (FixedPoint α) :=
  magnitude.congr FixedPoint.unscaled fun unscaled => ⟨unscaled, scale⟩

def bytewise : (field : Field) → Bytewise field.Value
  | u8 => Bytewise.byte
  | u16 => Bytewise.word 2
  | u32 => Bytewise.word 4
  | u64 => Bytewise.long
  | i8 => Bytewise.byte.extend
  | i16 | zoneOffset => (Bytewise.word 2).extend
  | i32 => Bytewise.signedWord
  | i64 | timePoint => Bytewise.signedLong
  | f32 => Bytewise.single
  | f64 => Bytewise.double
  | bool => Bytewise.boolean
  | timeOfDay => timeOfDayBytewise
  | dateRange => rangeBytewise Bytewise.signedLong
  | timeRange => rangeBytewise timeOfDayBytewise
  | zonedTime => zonedTimeBytewise
  | fixedPoint32 scale => fixedPointBytewise Bytewise.signedWord scale
  | fixedPoint64 scale => fixedPointBytewise Bytewise.signedLong scale

/-- Store a value at a place, byte by byte: the buffer afterwards. -/
def put (field : Field) (value : field.Value) (buf : Bytes) (offset : Binary64) :
    Except Fault Bytes :=
  match field.place? buf offset with
  | some place => .ok (field.bytewise.store value place buf)
  | none => .error (field.outside buf offset)

/-- The value at a place, byte by byte. -/
def get (field : Field) (buf : Bytes) (offset : Binary64) : Except Fault field.Value :=
  match field.place? buf offset with
  | some place => .ok (field.bytewise.load place buf)
  | none => .error (field.outside buf offset)

end NfcTag.Field
