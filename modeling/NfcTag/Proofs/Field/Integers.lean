/-
# NfcTag.Proofs.Field.Integers -- integer fields count modulo a power of two

Whatever number an integer field is given, it stores the whole part modulo `2 ^ bits`;
a number without a whole part counts as zero.  A word is read as the one integer of the
field's range that it agrees with modulo `2 ^ bits`, and writing that integer restores
the word (`Codec.Modular`, shown of integers first and then of the numbers that callers
hand in).  The same is said of fields moved byte by byte at places of a buffer
(`Modular`).

Main statement: `integers_modulo_two_pow`.
-/
import Mathlib.Data.Int.ModEq
import NfcTag.Proofs.Field.Bytewise
import NfcTag.Proofs.Number.Value

namespace NfcTag

set_option autoImplicit false

/-! ## Words -/

theorem BigEndian.modulus_eq (width : Nat) : modulus width = 2 ^ (8 * width) := by
  induction width with
  | zero => rfl
  | succ width ih => rw [modulus, ih, Nat.mul_succ, Nat.pow_add, Nat.mul_comm]

theorem BigEndian.cast_modulus (width : Nat) : (modulus width : Int) = 2 ^ (8 * width) := by
  rw [modulus_eq, Nat.cast_pow, Nat.cast_ofNat]

/-- `n` is the integer that a word of so many bits stands for. -/
def Stands (signed : Bool) (bits word : Nat) (n : Int) : Prop :=
  match signed with
  | false => n = word
  | true => -2 ^ (bits - 1) ≤ n ∧ n < 2 ^ (bits - 1) ∧ n ≡ word [ZMOD 2 ^ bits]

theorem Stands.unique {signed : Bool} {bits word : Nat} {n m : Int} (positive : 0 < bits)
    (one : Stands signed bits word n) (other : Stands signed bits word m) : m = n := by
  cases signed with
  | false => exact Eq.trans other one.symm
  | true =>
      obtain ⟨least, most, residue⟩ := one
      obtain ⟨otherLeast, otherMost, otherResidue⟩ := other
      have apart : (2 : Int) ^ bits ∣ n - m := (otherResidue.trans residue.symm).dvd
      have double : (2 : Int) ^ bits = 2 * 2 ^ (bits - 1) := by
        rw [← pow_succ', Nat.sub_add_cancel positive]
      have none : n - m = 0 := Int.eq_zero_of_abs_lt_dvd apart (abs_lt.mpr ⟨by omega, by omega⟩)
      omega

/-- The integer of a narrow word is exact as a number. -/
theorem Stands.exact {signed : Bool} {width : Nat} {bytes : Bytes} {n : Int} (narrow : width ≤ 4)
    (whole : bytes.length = width)
    (stands : Stands signed (8 * width) (BigEndian.decode bytes) n) :
    n.natAbs < 0x20000000000000 := by
  cases signed with
  | false =>
      have word := BigEndian.decode_lt bytes
      have most := BigEndian.modulus_mono narrow
      have bound : BigEndian.modulus 4 = 0x100000000 := by decide
      rw [whole] at word
      unfold Stands at stands
      omega
  | true =>
      obtain ⟨least, most, -⟩ := stands
      have bound : (2 : Int) ^ (8 * width - 1) ≤ 2 ^ 32 :=
        pow_le_pow_right₀ (by decide) (by omega)
      omega

/-- The signed remainder is in range. -/
theorem stands_bmod {width : Nat} (positive : 0 < width) (word : Nat) :
    Stands true (8 * width) word ((word : Int).bmod (BigEndian.modulus width)) := by
  have whole := BigEndian.cast_modulus width
  have double : (2 : Int) ^ (8 * width) = 2 * 2 ^ (8 * width - 1) := by
    rw [← pow_succ', Nat.sub_add_cancel (by omega)]
  have least := Int.le_bmod (x := word) (BigEndian.modulus_pos width)
  have most := Int.bmod_lt (x := word) (BigEndian.modulus_pos width)
  refine ⟨by omega, by omega, ?_⟩
  rw [Int.ModEq, ← whole, Int.bmod_emod]

/-! ## How values stand for numbers -/

/-- Values that stand for numbers. -/
structure Numeric (α : Type) where
  /-- The number that a value stands for, if it is one. -/
  value? : α → Option ℚ
  /-- The value that stands for an integer. -/
  ofInt : Int → α

namespace Numeric

variable {α : Type}

/-- Numbers stand for themselves, unless they are infinite or NaN. -/
def double : Numeric Binary64 := ⟨Binary64.value?, Binary64.ofInt⟩

def integer : Numeric Int := ⟨fun n => some n, id⟩

/-- The whole part of the number, zero if there is none. -/
def whole (numeric : Numeric α) (value : α) : Int := (numeric.value? value).elim 0 towardZero

theorem whole_double (v : Binary64) : double.whole v = v.truncate := v.truncate_eq.symm

theorem whole_integer (n : Int) : integer.whole n = n := towardZero_intCast n

end Numeric

/-! ## Encodings -/

namespace Codec

variable {α : Type}

/-- The encoding counts modulo a power of two. -/
structure Modular (codec : Codec α) (numeric : Numeric α) (width : Nat) (signed : Bool) :
    Prop where
  size_eq : codec.size = width
  encode_eq : ∀ value, codec.encode value =
    BigEndian.encode width (numeric.whole value % 2 ^ (8 * width)).toNat
  decode_eq : ∀ bytes : Bytes, bytes.length = width →
    ∃ n, Stands signed (8 * width) (BigEndian.decode bytes) n ∧
      codec.decode bytes = numeric.ofInt n ∧ numeric.value? (numeric.ofInt n) = some (n : ℚ)

theorem wrap_eq (width : Nat) (n : Int) : wrap width n = (n % 2 ^ (8 * width)).toNat := by
  rw [wrap, BigEndian.cast_modulus]

theorem modular_unsigned (width : Nat) : (unsigned width).Modular Numeric.integer width false where
  size_eq := rfl
  encode_eq n := by
    rw [Numeric.whole_integer, ← wrap_eq]
    rfl
  decode_eq bytes whole :=
    ⟨_, rfl, congrArg Int.ofNat (decode_word_of_length whole), rfl⟩

theorem modular_signed {width : Nat} (positive : 0 < width) :
    (signed width).Modular Numeric.integer width true where
  size_eq := rfl
  encode_eq n := by
    rw [Numeric.whole_integer, ← wrap_eq]
    rfl
  decode_eq bytes whole := by
    refine ⟨_, stands_bmod positive _, ?_, rfl⟩
    show Int.bmod ((word width).decode bytes) _ = _
    rw [decode_word_of_length whole]
    rfl

/-- Numbers are encoded as their whole parts are. -/
theorem Modular.number {codec : Codec Int} {width : Nat} {signed : Bool} (narrow : width ≤ 4)
    (modular : codec.Modular Numeric.integer width signed) :
    codec.number.Modular Numeric.double width signed where
  size_eq := modular.size_eq
  encode_eq v := by
    show codec.encode v.truncate = _
    rw [modular.encode_eq, Numeric.whole_integer, Numeric.whole_double]
  decode_eq bytes whole := by
    obtain ⟨n, stands, read, -⟩ := modular.decode_eq bytes whole
    have exact := Binary64.value?_ofInt (stands.exact narrow whole)
    refine ⟨n, stands, ?_, ?_⟩
    · simp only [Codec.number, Codec.congr, read, Numeric.integer, Numeric.double, id]
    · simp only [Numeric.double, exact]

end Codec

namespace Field

variable {field : Field} {numeric : Numeric field.Value} {width : Nat} {signed : Bool}

/-! ## Fields -/

/-- At every place where it fits, the field counts modulo a power of two. -/
structure Modular (field : Field) (numeric : Numeric field.Value) (width : Nat)
    (signed : Bool) : Prop where
  /-- A value is stored as its whole part modulo `2 ^ bits`, the high byte first. -/
  put_eq : ∀ value buf offset place, offset.toNat? = some place →
    place + width ≤ buf.length →
      field.put value buf offset = .ok (buf.overwrite place
        (BigEndian.encode width (numeric.whole value % 2 ^ (8 * width)).toNat))
  /-- What is read is the one integer that the bytes stand for. -/
  get_eq : ∀ buf offset place, offset.toNat? = some place → place + width ≤ buf.length →
    ∃ n, (∀ m, Stands signed (8 * width) (BigEndian.decode (Span.bytes ⟨place, width⟩ buf)) m ↔
        m = n) ∧
      field.get buf offset = .ok (numeric.ofInt n) ∧
      numeric.value? (numeric.ofInt n) = some (n : ℚ)
  /-- What was read is stored as the bytes that it was read from. -/
  put_get : ∀ buf offset value, field.get buf offset = .ok value →
    field.put value buf offset = .ok buf

theorem modular_of_codec (exact : field.IsExact) (positive : 0 < width)
    (modular : field.codec.Modular numeric width signed) : field.Modular numeric width signed where
  put_eq value buf offset place named fits := by
    have room : place + field.size ≤ buf.length := by rwa [size, modular.size_eq]
    rw [put_eq_write, write_of_place value named room, encode, modular.encode_eq]
  get_eq buf offset place named fits := by
    have room : place + field.size ≤ buf.length := by rwa [size, modular.size_eq]
    have whole : (Span.bytes ⟨place, width⟩ buf).length = width :=
      List.length_take_of_le (by rw [List.length_drop]; exact Nat.le_sub_of_add_le' fits)
    obtain ⟨n, stands, read, worth⟩ := modular.decode_eq _ whole
    refine ⟨n, fun m => ⟨stands.unique (by omega), fun same => same ▸ stands⟩, ?_, worth⟩
    rw [get_eq_read, read_of_place named room, decode, ← field.codec.decode_take,
      modular.size_eq]
    exact congrArg _ read
  put_get _ _ _ loaded := put_of_get_of_isExact exact loaded

/-- **Integer fields compute exactly modulo a power of two**, on every number that
callers can hand in. -/
theorem integers_modulo_two_pow :
    u8.Modular .double 1 false ∧ u16.Modular .double 2 false ∧ u32.Modular .double 4 false ∧
      i8.Modular .double 1 true ∧ i16.Modular .double 2 true ∧ i32.Modular .double 4 true ∧
      u64.Modular .integer 8 false ∧ i64.Modular .integer 8 true ∧
      zoneOffset.Modular .double 2 true ∧ timePoint.Modular .integer 8 true := by
  have short : (Codec.signed 2).number.Modular .double 2 true :=
    (Codec.modular_signed (by decide)).number (by decide)
  have long : (Codec.signed 8).Modular .integer 8 true := Codec.modular_signed (by decide)
  refine ⟨?_, ?_, ?_, ?_, ?_, ?_, ?_, ?_, ?_, ?_⟩
  · exact modular_of_codec (by decide) (by decide) ((Codec.modular_unsigned 1).number (by decide))
  · exact modular_of_codec (by decide) (by decide) ((Codec.modular_unsigned 2).number (by decide))
  · exact modular_of_codec (by decide) (by decide) ((Codec.modular_unsigned 4).number (by decide))
  · exact modular_of_codec (by decide) (by decide)
      ((Codec.modular_signed (by decide)).number (by decide))
  · exact modular_of_codec (by decide) (by decide) short
  · exact modular_of_codec (by decide) (by decide)
      ((Codec.modular_signed (by decide)).number (by decide))
  · exact modular_of_codec (by decide) (by decide) (Codec.modular_unsigned 8)
  · exact modular_of_codec (by decide) (by decide) long
  · exact modular_of_codec (by decide) (by decide) short
  · exact modular_of_codec (by decide) (by decide) long

/-- Minus one and a half is cut to minus one. -/
example : (Bytewise.word 2).store (Binary64.ofBits 0xbff8000000000000) 0 [0, 0] = [0xff, 0xff] := by
  decide +kernel

end Field

end NfcTag
