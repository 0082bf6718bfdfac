/-
# NfcTag.Proofs.Field.Bytewise -- fields moved byte by byte

The loops of every field agree with its encoding (`agrees_bytewise`).  So storing and
loading byte by byte is writing and reading, with the same refusals (`put_eq_write`,
`get_eq_read`), and whatever is known of one holds of the other.
-/
import NfcTag.Field.Bytewise
import NfcTag.Proofs.Codec.Bytewise
import NfcTag.Proofs.Field.Bytes

namespace NfcTag.Field

set_option autoImplicit false

open Bytewise

theorem agrees_timeOfDayBytewise : timeOfDayBytewise.Agrees timeOfDayCodec :=
  (agrees_byte.pair (agrees_byte.pair agrees_byte)).congr _ _

theorem agrees_rangeBytewise {α : Type} {path : Bytewise α} {bound : Codec α}
    (agrees : path.Agrees bound) : (rangeBytewise path).Agrees (rangeCodec bound) :=
  (agrees.pair agrees).congr _ _

theorem agrees_signedShort : (word 2).extend.Agrees (Codec.signed 2).number :=
  agrees_extend (by decide) (by decide) (agrees_word (by decide))

theorem agrees_zonedTimeBytewise : zonedTimeBytewise.Agrees zonedTimeCodec :=
  (agrees_signedLong.pair agrees_signedShort).congr _ _

theorem agrees_fixedPointBytewise {α : Type} {path : Bytewise α} {magnitude : Codec α}
    (agrees : path.Agrees magnitude) (scale : Int) :
    (fixedPointBytewise path scale).Agrees (fixedPointCodec magnitude scale) :=
  agrees.congr _ _

/-- **Every field is moved byte by byte as it is encoded.** -/
theorem agrees_bytewise (field : Field) : field.bytewise.Agrees field.codec := by
  cases field with
  | u8 => exact agrees_byte
  | u16 => exact agrees_word (by decide)
  | u32 => exact agrees_word (by decide)
  | u64 => exact agrees_long
  | i8 => exact agrees_extend (by decide) (by decide) agrees_byte
  | i16 => exact agrees_signedShort
  | i32 => exact agrees_signedWord
  | i64 => exact agrees_signedLong
  | f32 => exact agrees_single
  | f64 => exact agrees_double
  | bool => exact agrees_boolean
  | timePoint => exact agrees_signedLong
  | timeOfDay => exact agrees_timeOfDayBytewise
  | dateRange => exact agrees_rangeBytewise agrees_signedLong
  | timeRange => exact agrees_rangeBytewise agrees_timeOfDayBytewise
  | zoneOffset => exact agrees_signedShort
  | zonedTime => exact agrees_zonedTimeBytewise
  | fixedPoint32 scale => exact agrees_fixedPointBytewise agrees_signedWord scale
  | fixedPoint64 scale => exact agrees_fixedPointBytewise agrees_signedLong scale

section
variable (field : Field) (buf : Bytes) (offset : Binary64)

/-- Storing byte by byte is writing. -/
theorem put_eq_write (value : field.Value) :
    field.put value buf offset = field.write value buf offset := by
  cases named : field.place? buf offset with
  | none => simp only [put, write, named]
  | some place =>
      have fits : place + field.codec.size ≤ buf.length := (place?_eq_some_iff.mp named).2
      simp only [put, write, named, field.agrees_bytewise.store_eq value place buf fits, encode]

/-- Loading byte by byte is reading. -/
theorem get_eq_read : field.get buf offset = field.read buf offset := by
  cases named : field.place? buf offset with
  | none => simp only [get, read, named]
  | some place =>
      have fits : place + field.codec.size ≤ buf.length := (place?_eq_some_iff.mp named).2
      simp only [get, read, named, field.agrees_bytewise.load_eq place buf fits, decode]

end

/-! ## Loading and storing again -/

variable {field : Field} {value : field.Value} {buf : Bytes} {offset : Binary64}

theorem exists_place_of_get (loaded : field.get buf offset = .ok value) :
    ∃ place, offset.toNat? = some place ∧ place + field.size ≤ buf.length ∧
      field.decode (buf.drop place) = value := by
  rw [get_eq_read, read] at loaded
  cases named : field.place? buf offset with
  | none =>
      rw [named] at loaded
      cases loaded
  | some place =>
      obtain ⟨whole, fits⟩ := place?_eq_some_iff.mp named
      rw [named] at loaded
      exact ⟨place, whole, fits, Except.ok.inj loaded⟩

/-- A value that was loaded is stored as its bytes, a NaN as the canonical one. -/
theorem put_of_get (loaded : field.get buf offset = .ok value) :
    ∃ place, offset.toNat? = some place ∧ place + field.size ≤ buf.length ∧
      field.put value buf offset = .ok (buf.overwrite place
        (field.canonical (Span.bytes ⟨place, field.size⟩ buf))) := by
  obtain ⟨place, named, fits, rfl⟩ := exists_place_of_get loaded
  have enough : field.size ≤ (buf.drop place).length := by
    rw [List.length_drop]
    omega
  refine ⟨place, named, fits, ?_⟩
  rw [put_eq_write, write_of_place _ named fits, field.encode_decode_front enough, Span.bytes]

/-- A field that keeps every byte restores the buffer. -/
theorem put_of_get_of_isExact (exact : field.IsExact) (loaded : field.get buf offset = .ok value) :
    field.put value buf offset = .ok buf := by
  obtain ⟨place, -, fits, stored⟩ := put_of_get loaded
  rw [stored, canonical, respell_of_isExact exact, Bytes.overwrite_bytes fits]

end NfcTag.Field
