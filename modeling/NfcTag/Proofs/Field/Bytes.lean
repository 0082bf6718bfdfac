/-
# NfcTag.Proofs.Field.Bytes -- bytes that a field reads and writes again

An encoding is lossless if writing what was read restores the bytes
(`Codec.Lossless`).  Words are, and encodings made of lossless ones are, as long as
no value is changed on its way; so are all fields but three.  A truth value keeps of
its byte only whether it is zero, and for a NaN that was read the platform writes one of
its own choice: `respell` says what becomes of bytes.

Main statements: `encodeAs_decode`, and `normalize_decode`, by which a value that was
read is in normal form.
-/
import NfcTag.Proofs.NanChoice

namespace NfcTag

set_option autoImplicit false

namespace Codec

variable {α β : Type} {codec : Codec α}

/-! ## Lossless encodings -/

/-- Writing what was read restores the bytes. -/
def Lossless (codec : Codec α) : Prop :=
  ∀ bytes : Bytes, bytes.length = codec.size → codec.encode (codec.decode bytes) = bytes

theorem Lossless.congr {toWire : β → α} {ofWire : α → β} (lossless : codec.Lossless)
    (kept : ∀ bytes : Bytes, bytes.length = codec.size →
      toWire (ofWire (codec.decode bytes)) = codec.decode bytes) :
    (codec.congr toWire ofWire).Lossless := by
  intro bytes width
  show codec.encode (toWire (ofWire (codec.decode bytes))) = bytes
  rw [kept bytes width, lossless bytes width]

/-- Values of one type may be taken for values of another, if they can be taken back. -/
theorem Lossless.recast {toWire : β → α} {ofWire : α → β} (lossless : codec.Lossless)
    (inverse : ∀ value, toWire (ofWire value) = value) : (codec.congr toWire ofWire).Lossless :=
  lossless.congr fun bytes _ => inverse (codec.decode bytes)

theorem Lossless.pair {other : Codec β} (first : codec.Lossless) (second : other.Lossless) :
    (codec.pair other).Lossless := by
  intro bytes width
  have total : bytes.length = codec.size + other.size := width
  have front := first (bytes.take codec.size) (by rw [List.length_take]; omega)
  have rest := second (bytes.drop codec.size) (by rw [List.length_drop]; omega)
  rw [codec.decode_take] at front
  show codec.encode (codec.decode bytes) ++ other.encode (other.decode (bytes.drop codec.size)) =
    bytes
  rw [front, rest, List.take_append_drop]

theorem decode_word_of_length {width : Nat} {bytes : Bytes} (whole : bytes.length = width) :
    (word width).decode bytes = BigEndian.decode bytes := by
  show BigEndian.decode (bytes.take width) = _
  rw [List.take_of_length_le (Nat.le_of_eq whole)]

theorem decode_word_lt {width : Nat} {bytes : Bytes} (whole : bytes.length = width) :
    (word width).decode bytes < BigEndian.modulus width := by
  rw [decode_word_of_length whole, ← whole]
  exact BigEndian.decode_lt bytes

theorem lossless_word (width : Nat) : (word width).Lossless := by
  intro bytes (whole : bytes.length = width)
  rw [decode_word_of_length whole]
  have back := BigEndian.encode_decode bytes
  rwa [whole] at back

theorem lossless_unsigned (width : Nat) : (unsigned width).Lossless := by
  apply (lossless_word width).congr
  intro bytes (whole : bytes.length = width)
  have small := decode_word_lt whole
  rw [wrap, Int.ofNat_eq_natCast, ← Int.natCast_emod, Int.toNat_natCast, Nat.mod_eq_of_lt small]

theorem lossless_signed (width : Nat) : (signed width).Lossless := by
  apply (lossless_word width).congr
  intro bytes (whole : bytes.length = width)
  have small := decode_word_lt whole
  rw [wrap, Int.bmod_emod, ← Int.natCast_emod, Int.toNat_natCast, Nat.mod_eq_of_lt small]

/-- Integers that fit a number lose nothing when they become one. -/
theorem Lossless.number {codec : Codec Int} (lossless : codec.Lossless)
    (small : ∀ bytes : Bytes, bytes.length = codec.size →
      (codec.decode bytes).natAbs < 0x20000000000000) : codec.number.Lossless := by
  apply lossless.congr
  intro bytes whole
  exact Binary64.truncate_ofInt (small bytes whole)

theorem lossless_number_unsigned {width : Nat}
    (narrow : BigEndian.modulus width ≤ 0x20000000000000) :
    (unsigned width).number.Lossless := by
  apply (lossless_unsigned width).number
  intro bytes whole
  exact Nat.lt_of_lt_of_le (decode_word_lt whole) narrow

theorem lossless_number_signed {width : Nat}
    (narrow : BigEndian.modulus width ≤ 0x20000000000000) :
    (signed width).number.Lossless := by
  apply (lossless_signed width).number
  intro bytes whole
  have positive := BigEndian.modulus_pos width
  have least : -((BigEndian.modulus width : Int) / 2) ≤
      ((word width).decode bytes : Int).bmod (BigEndian.modulus width) := Int.le_bmod positive
  have most : ((word width).decode bytes : Int).bmod (BigEndian.modulus width) <
      ((BigEndian.modulus width : Int) + 1) / 2 := Int.bmod_lt positive
  show (((word width).decode bytes : Int).bmod (BigEndian.modulus width)).natAbs < _
  omega

end Codec

namespace Field

variable {field : Field} {bytes : Bytes}

/-! ## What becomes of bytes -/

/-- The field keeps every byte that it reads. -/
def IsExact (field : Field) : Prop := field ≠ bool ∧ field ≠ f32 ∧ field ≠ f64

instance (field : Field) : Decidable field.IsExact := inferInstanceAs (Decidable (_ ∧ _))

/-- What a field writes at a place for what it reads from these bytes: true is one, a NaN
is the one that the platform chooses there, and all else is kept. -/
def respell (nan : NanChoice) (place : Nat) : Field → Bytes → Bytes
  | bool, bytes => bytes.map fun byte => if 1 < byte then 1 else byte
  | f32, bytes =>
      if Interchange.single.IsNan (BigEndian.decode bytes) then
        BigEndian.encode 4 (nan.single place).toNat
      else bytes
  | f64, bytes =>
      if Interchange.double.IsNan (BigEndian.decode bytes) then
        BigEndian.encode 8 (nan.double place).toNat
      else bytes
  | _, bytes => bytes

/-- What a field writes for what it reads on a platform that has one NaN to write. -/
def canonical (field : Field) (bytes : Bytes) : Bytes := field.respell .canonical 0 bytes

theorem isExact_or (field : Field) :
    field.IsExact ∨ field = bool ∨ field = f32 ∨ field = f64 := by
  unfold IsExact
  grind

theorem respell_of_isExact {nan : NanChoice} {place : Nat} (exact : field.IsExact)
    (bytes : Bytes) : field.respell nan place bytes = bytes := by
  obtain ⟨notBool, notSingle, notDouble⟩ := exact
  cases field with
  | bool => exact absurd rfl notBool
  | f32 => exact absurd rfl notSingle
  | f64 => exact absurd rfl notDouble
  | _ => rfl

theorem isNan_of_isExact (exact : field.IsExact) (value : field.Value) :
    field.isNan value = false := by
  obtain ⟨-, notSingle, notDouble⟩ := exact
  cases field with
  | f32 => exact absurd rfl notSingle
  | f64 => exact absurd rfl notDouble
  | _ => rfl

theorem lossless_timeOfDayCodec : timeOfDayCodec.Lossless := by
  have byte : (Codec.unsigned 1).number.Lossless := Codec.lossless_number_unsigned (by decide)
  unfold timeOfDayCodec
  apply (byte.pair (byte.pair byte)).recast
  intro value
  rfl

theorem lossless_rangeCodec {α : Type} {bound : Codec α} (lossless : bound.Lossless) :
    (rangeCodec bound).Lossless :=
  (lossless.pair lossless).recast fun _ => rfl

theorem lossless_zonedTimeCodec : zonedTimeCodec.Lossless := by
  have offset : (Codec.signed 2).number.Lossless := Codec.lossless_number_signed (by decide)
  exact ((Codec.lossless_signed 8).pair offset).recast fun _ => rfl

theorem lossless_fixedPointCodec {α : Type} {magnitude : Codec α}
    (lossless : magnitude.Lossless) (scale : Int) : (fixedPointCodec magnitude scale).Lossless :=
  lossless.recast fun _ => rfl

theorem lossless_codec (exact : field.IsExact) : field.codec.Lossless := by
  have long : (Codec.signed 8).Lossless := Codec.lossless_signed 8
  obtain ⟨notBool, notSingle, notDouble⟩ := exact
  cases field with
  | bool => exact absurd rfl notBool
  | f32 => exact absurd rfl notSingle
  | f64 => exact absurd rfl notDouble
  | u8 => exact Codec.lossless_number_unsigned (by decide)
  | u16 => exact Codec.lossless_number_unsigned (by decide)
  | u32 => exact Codec.lossless_number_unsigned (by decide)
  | u64 => exact Codec.lossless_unsigned 8
  | i8 => exact Codec.lossless_number_signed (by decide)
  | i16 => exact Codec.lossless_number_signed (by decide)
  | i32 => exact Codec.lossless_number_signed (by decide)
  | i64 => exact long
  | timePoint => exact long
  | timeOfDay => exact lossless_timeOfDayCodec
  | dateRange => exact lossless_rangeCodec long
  | timeRange => exact lossless_rangeCodec lossless_timeOfDayCodec
  | zoneOffset => exact Codec.lossless_number_signed (by decide)
  | zonedTime => exact lossless_zonedTimeCodec
  | fixedPoint32 scale =>
      exact lossless_fixedPointCodec (Codec.lossless_number_signed (by decide)) scale
  | fixedPoint64 scale => exact lossless_fixedPointCodec long scale

theorem exists_single (whole : bytes.length = 4) :
    ∃ pattern : UInt32, BigEndian.decode bytes = pattern.toNat ∧
      f32.decode bytes = Binary64.ofSingle pattern ∧ BigEndian.encode 4 pattern.toNat = bytes := by
  have small : BigEndian.decode bytes < 0x100000000 := by
    have bound := BigEndian.decode_lt bytes
    rwa [whole] at bound
  have stored : (UInt32.ofNat (BigEndian.decode bytes)).toNat = BigEndian.decode bytes :=
    UInt32.toNat_ofNat_of_lt' small
  refine ⟨UInt32.ofNat (BigEndian.decode bytes), stored.symm, ?_, ?_⟩
  · show Binary64.ofSingle (UInt32.ofNat (BigEndian.decode (bytes.take 4))) = _
    rw [List.take_of_length_le (Nat.le_of_eq whole)]
  · rw [stored, ← whole, BigEndian.encode_decode]

theorem exists_double (whole : bytes.length = 8) :
    ∃ pattern : UInt64, BigEndian.decode bytes = pattern.toNat ∧
      f64.decode bytes = Binary64.ofBits pattern ∧ BigEndian.encode 8 pattern.toNat = bytes := by
  have small : BigEndian.decode bytes < 0x10000000000000000 := by
    have bound := BigEndian.decode_lt bytes
    rwa [whole] at bound
  have stored : (UInt64.ofNat (BigEndian.decode bytes)).toNat = BigEndian.decode bytes :=
    UInt64.toNat_ofNat_of_lt' small
  refine ⟨UInt64.ofNat (BigEndian.decode bytes), stored.symm, ?_, ?_⟩
  · show Binary64.ofBits (UInt64.ofNat (BigEndian.decode (bytes.take 8))) = _
    rw [List.take_of_length_le (Nat.le_of_eq whole)]
  · rw [stored, ← whole, BigEndian.encode_decode]

theorem encodeAs_decode_single (nan : NanChoice) (place : Nat) (whole : bytes.length = 4) :
    f32.encodeAs nan place (f32.decode bytes) = f32.respell nan place bytes := by
  obtain ⟨pattern, value, read, written⟩ := exists_single whole
  rw [respell, value, read]
  split
  · rename_i isNan
    rw [Binary64.ofSingle_eq_nan_iff.mpr isNan, encodeAs, if_pos rfl]
  · rename_i number
    rw [encodeAs, if_neg (mt Binary64.ofSingle_eq_nan_iff.mp number)]
    show BigEndian.encode 4 (Binary64.ofSingle pattern).toSingle.toNat = bytes
    rw [Binary64.toSingle_ofSingle, if_neg number, written]

theorem encodeAs_decode_double (nan : NanChoice) (place : Nat) (whole : bytes.length = 8) :
    f64.encodeAs nan place (f64.decode bytes) = f64.respell nan place bytes := by
  obtain ⟨pattern, value, read, written⟩ := exists_double whole
  rw [respell, value, read]
  split
  · rename_i isNan
    rw [Binary64.ofBits_eq_nan_iff.mpr isNan, encodeAs, if_pos rfl]
  · rename_i number
    rw [encodeAs, if_neg (mt Binary64.ofBits_eq_nan_iff.mp number)]
    show BigEndian.encode 8 (Binary64.ofBits pattern).bits.toNat = bytes
    rw [Binary64.bits_ofBits, if_neg number, written]

/-- A NaN comes back as a NaN, whichever that is. -/
theorem isNan_respell_single {nan : NanChoice} {place : Nat}
    (isNan : Interchange.single.IsNan (BigEndian.decode bytes)) :
    Interchange.single.IsNan (BigEndian.decode (f32.respell nan place bytes)) := by
  have inWord : (nan.single place).toNat < BigEndian.modulus 4 := (nan.single place).toNat_lt
  rw [respell, if_pos isNan, BigEndian.decode_encode, Nat.mod_eq_of_lt inWord]
  exact nan.isNan_single place

theorem isNan_respell_double {nan : NanChoice} {place : Nat}
    (isNan : Interchange.double.IsNan (BigEndian.decode bytes)) :
    Interchange.double.IsNan (BigEndian.decode (f64.respell nan place bytes)) := by
  have inWord : (nan.double place).toNat < BigEndian.modulus 8 := (nan.double place).toNat_lt
  rw [respell, if_pos isNan, BigEndian.decode_encode, Nat.mod_eq_of_lt inWord]
  exact nan.isNan_double place

theorem encode_decode_boolean (whole : bytes.length = 1) :
    bool.encode (bool.decode bytes) = bytes.map fun byte => if 1 < byte then 1 else byte := by
  obtain ⟨byte, rfl⟩ := List.length_eq_one_iff.mp whole
  show BigEndian.encode 1 (BigEndian.decode [byte] != 0).toNat =
    [if 1 < byte then 1 else byte]
  rw [BigEndian.decode_singleton]
  by_cases zero : byte = 0
  · subst zero
    decide
  · have positive : byte.toNat ≠ 0 := fun same => zero (UInt8.toNat_inj.mp same)
    rw [bne_iff_ne.mpr positive]
    split
    · rfl
    · rename_i small
      have one : byte = 1 := by
        apply UInt8.toNat_inj.mp
        have most : byte.toNat ≤ 1 := Nat.le_of_not_lt small
        exact Nat.le_antisymm most (Nat.pos_of_ne_zero positive)
      rw [one]
      rfl

/-- **Bytes that are read are written again**, but for what a truth value does not keep
and for the NaNs, which are those of the platform. -/
theorem encodeAs_decode (nan : NanChoice) (place : Nat) (field : Field)
    (whole : bytes.length = field.size) :
    field.encodeAs nan place (field.decode bytes) = field.respell nan place bytes := by
  obtain exact | rfl | rfl | rfl := field.isExact_or
  · rw [respell_of_isExact exact, encodeAs_of_isNan_eq_false (isNan_of_isExact exact _)]
    exact lossless_codec exact bytes whole
  · exact encode_decode_boolean whole
  · exact encodeAs_decode_single nan place whole
  · exact encodeAs_decode_double nan place whole

theorem decode_front (field : Field) (bytes : Bytes) :
    field.decode (bytes.take field.size) = field.decode bytes :=
  field.codec.decode_take bytes

/-- A value read off the front of bytes is written as that front, respelt. -/
theorem encodeAs_decode_front (nan : NanChoice) (place : Nat) (field : Field)
    (enough : field.size ≤ bytes.length) :
    field.encodeAs nan place (field.decode bytes) =
      field.respell nan place (bytes.take field.size) := by
  rw [← field.decode_front, field.encodeAs_decode nan place (List.length_take_of_le enough)]

theorem encode_decode_front (field : Field) (enough : field.size ≤ bytes.length) :
    field.encode (field.decode bytes) = field.canonical (bytes.take field.size) := by
  rw [← field.encodeAs_canonical 0, field.encodeAs_decode_front _ _ enough, canonical]

/-- A value that was read is in normal form. -/
theorem normalize_decode (field : Field) (enough : field.size ≤ bytes.length) :
    field.normalize (field.decode bytes) = field.decode bytes := by
  obtain exact | rfl | rfl | rfl := field.isExact_or
  · have back := field.decode_encode (field.decode bytes) []
    rw [List.append_nil, field.encode_decode_front enough, canonical, respell_of_isExact exact,
      field.decode_front] at back
    exact back.symm
  · rfl
  · exact Binary64.roundToSingle_ofSingle _
  · rfl

end Field

end NfcTag
