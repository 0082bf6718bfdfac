/-
# NfcTag.Codec -- fixed-size encodings

A `Codec` lays a value down as exactly `size` bytes and reads one off the front
of a byte string.  Both facts are part of the type: `length_encode`, and
`decode_take`, by which nothing behind the value can change what is read.
Composite encodings are built with `pair` and `congr`, so they inherit both.

Integer words come in one unsigned and one two's-complement reading; writing is
the same for both and wraps.
-/
import NfcTag.Bytes.BigEndian
import NfcTag.Number.Binary64

namespace NfcTag

set_option autoImplicit false

/-- A fixed-size encoding of `α`. -/
structure Codec (α : Type) where
  /-- The number of bytes a value takes. -/
  size : Nat
  /-- Lay a value down. -/
  encode : α → Bytes
  /-- Read a value off the front of a byte string. -/
  decode : Bytes → α
  length_encode : ∀ value, (encode value).length = size
  /-- Only the front `size` bytes are read. -/
  decode_take : ∀ bytes, decode (bytes.take size) = decode bytes

namespace Codec

variable {α β : Type}

/-- One value after another. -/
def pair (first : Codec α) (second : Codec β) : Codec (α × β) where
  size := first.size + second.size
  encode value := first.encode value.1 ++ second.encode value.2
  decode bytes := (first.decode bytes, second.decode (bytes.drop first.size))
  length_encode value := by
    rw [List.length_append, first.length_encode, second.length_encode]
  decode_take bytes := by
    rw [← first.decode_take (bytes.take _), List.take_take, Nat.min_eq_left (by omega),
      first.decode_take, List.drop_take, Nat.add_sub_cancel_left, second.decode_take]

/-- The same bytes, read as another type. -/
def congr (codec : Codec α) (toWire : β → α) (ofWire : α → β) : Codec β where
  size := codec.size
  encode value := codec.encode (toWire value)
  decode bytes := ofWire (codec.decode bytes)
  length_encode value := codec.length_encode _
  decode_take bytes := by rw [codec.decode_take]

/-- A big-endian word of `width` bytes. -/
def word (width : Nat) : Codec Nat where
  size := width
  encode n := BigEndian.encode width n
  decode bytes := BigEndian.decode (bytes.take width)
  length_encode n := BigEndian.length_encode width n
  decode_take bytes := by rw [List.take_take, Nat.min_self]

/-! ## Integers -/

/-- An integer as a word: what lies outside the word's range wraps. -/
def wrap (width : Nat) (n : Int) : Nat := (n % BigEndian.modulus width).toNat

/-- An unsigned integer of `width` bytes. -/
def unsigned (width : Nat) : Codec Int := (word width).congr (wrap width) Int.ofNat

/-- A two's-complement integer of `width` bytes. -/
def signed (width : Nat) : Codec Int :=
  (word width).congr (wrap width) fun n => Int.bmod n (BigEndian.modulus width)

/-- An integer encoding for numbers: the whole part is stored. -/
def number (codec : Codec Int) : Codec Binary64 :=
  codec.congr Binary64.truncate Binary64.ofInt

/-! ## Floating point and truth values -/

def single : Codec Binary64 :=
  (word 4).congr (fun v => v.toSingle.toNat) fun n => Binary64.ofSingle (UInt32.ofNat n)

def double : Codec Binary64 :=
  (word 8).congr (fun v => v.bits.toNat) fun n => Binary64.ofBits (UInt64.ofNat n)

/-- One byte, written as 0 or 1; any other byte reads as true, too. -/
def boolean : Codec Bool := (word 1).congr Bool.toNat (· != 0)

/-! ## Reading back -/

/-- A value is read back from its own bytes whatever follows them. -/
theorem decode_append (codec : Codec α) (value : α) (rest : Bytes) :
    codec.decode (codec.encode value ++ rest) = codec.decode (codec.encode value) := by
  rw [← codec.decode_take (_ ++ rest), List.take_left' (codec.length_encode value)]

theorem decode_encode_congr (codec : Codec α) (toWire : β → α) (ofWire : α → β) (value : β) :
    (codec.congr toWire ofWire).decode ((codec.congr toWire ofWire).encode value) =
      ofWire (codec.decode (codec.encode (toWire value))) := rfl

theorem decode_encode_pair (first : Codec α) (second : Codec β) (value : α × β) :
    (first.pair second).decode ((first.pair second).encode value) =
      (first.decode (first.encode value.1), second.decode (second.encode value.2)) := by
  simp only [pair, decode_append, List.drop_left' (first.length_encode value.1)]

theorem decode_encode_word (width n : Nat) :
    (word width).decode ((word width).encode n) = n % BigEndian.modulus width := by
  simp only [word]
  rw [List.take_of_length_le (by simp), BigEndian.decode_encode]

theorem ofNat_wrap (width : Nat) (n : Int) : (wrap width n : Int) = n % BigEndian.modulus width :=
  Int.toNat_of_nonneg (Int.emod_nonneg n (Int.natCast_ne_zero.mpr
    (Nat.ne_of_gt (BigEndian.modulus_pos width))))

theorem wrap_lt (width : Nat) (n : Int) : wrap width n < BigEndian.modulus width := by
  have positive := BigEndian.modulus_pos width
  have below := Int.emod_lt_of_pos n (Int.natCast_pos.mpr positive)
  have same := ofNat_wrap width n
  omega

theorem decode_encode_unsigned (width : Nat) (n : Int) :
    (unsigned width).decode ((unsigned width).encode n) = n % BigEndian.modulus width := by
  rw [unsigned, decode_encode_congr, decode_encode_word, Nat.mod_eq_of_lt (wrap_lt width n)]
  exact ofNat_wrap width n

theorem decode_encode_signed (width : Nat) (n : Int) :
    (signed width).decode ((signed width).encode n) = n.bmod (BigEndian.modulus width) := by
  rw [signed, decode_encode_congr, decode_encode_word, Nat.mod_eq_of_lt (wrap_lt width n),
    ofNat_wrap, Int.emod_bmod]

theorem decode_encode_single (v : Binary64) :
    single.decode (single.encode v) = v.roundToSingle := by
  have inWord : v.toSingle.toNat < BigEndian.modulus 4 := v.toSingle.toNat_lt
  rw [single, decode_encode_congr, decode_encode_word, Nat.mod_eq_of_lt inWord,
    UInt32.ofNat_toNat]
  rfl

theorem decode_encode_double (v : Binary64) : double.decode (double.encode v) = v := by
  have inWord : v.bits.toNat < BigEndian.modulus 8 := v.bits.toNat_lt
  rw [double, decode_encode_congr, decode_encode_word, Nat.mod_eq_of_lt inWord,
    UInt64.ofNat_toNat, Binary64.ofBits_bits]

theorem decode_encode_boolean (b : Bool) : boolean.decode (boolean.encode b) = b := by
  cases b <;> rfl

end Codec

end NfcTag
