/-
# NfcTag.Tlv -- type-length-value blocks

Tag memory is a row of blocks: a type byte, a length field and as many bytes of
value.  The length field is one byte for lengths below 255, else the byte 255
and a 16-bit length, of which the largest is reserved.  A reader takes the long
form for short values, too; `encode` always writes the shorter one.
-/
import NfcTag.Bytes.BigEndian
import NfcTag.Fault

namespace NfcTag.Tlv

set_option autoImplicit false

/-! ## Types and limits -/

/-- Padding: a lone byte without a length field. -/
def null : UInt8 := 0x00

def lockControl : UInt8 := 0x01

def memoryControl : UInt8 := 0x02

/-- The block that holds the message. -/
def ndefMessage : UInt8 := 0x03

def proprietary : UInt8 := 0xfd

/-- The end of the area: a lone byte without a length field. -/
def terminator : UInt8 := 0xfe

/-- The first length byte of the long form. -/
def longForm : UInt8 := 0xff

/-- The long length that stands for no length. -/
def reservedLength : Nat := 0xffff

/-- The longest value of a block. -/
def maxLength : Nat := 0xfffe

/-! ## Length fields -/

/-- A length field as read: the bytes it takes and the length it declares. -/
structure LengthField where
  width : Nat
  length : Nat
  deriving Repr, DecidableEq

/-- Read a length field.  There is none if the bytes end inside it or if it
holds the reserved length. -/
def lengthField? : Bytes → Option LengthField
  | [] => none
  | first :: rest =>
      if first = longForm then
        match rest with
        | high :: low :: _ =>
            let length := BigEndian.decode [high, low]
            if length = reservedLength then none else some ⟨3, length⟩
        | _ => none
      else some ⟨1, first.toNat⟩

theorem lengthField?_short {byte : UInt8} (brief : byte ≠ longForm) (rest : Bytes) :
    lengthField? (byte :: rest) = some ⟨1, byte.toNat⟩ := by
  simp only [lengthField?, if_neg brief]

theorem lengthField?_long (high low : UInt8) (rest : Bytes) :
    lengthField? (longForm :: high :: low :: rest) =
      if high.toNat * 256 + low.toNat = reservedLength then none
      else some ⟨3, high.toNat * 256 + low.toNat⟩ := by
  simp only [lengthField?, if_true, BigEndian.decode_pair]

theorem lengthField?_long_cut {rest : Bytes} (short : rest.length < 2) :
    lengthField? (longForm :: rest) = none := by
  match rest, short with
  | [], _ | [_], _ => simp only [lengthField?, if_true]

/-- The shortest length field that declares `length`. -/
def encodeLength (length : Nat) : Bytes :=
  if length < longForm.toNat then BigEndian.encode 1 length
  else longForm :: BigEndian.encode 2 length

/-! ## Writing -/

/-- A block to write.  Its type is any number and is stored as a byte. -/
structure Entry where
  type : Binary64
  value : Bytes
  deriving DecidableEq

def encode (entry : Entry) : Except Fault Bytes :=
  if maxLength < entry.value.length then
    .error (.valueTooLong entry.value.length maxLength)
  else
    .ok (entry.type.toByte :: (encodeLength entry.value.length ++ entry.value))

/-- The bytes of blocks back to back, without an end. -/
def encodeAll : List Entry → Except Fault Bytes
  | [] => .ok []
  | entry :: rest => do
      let block ← encode entry
      let blocks ← encodeAll rest
      return block ++ blocks

/-- A whole memory area: the blocks and the terminator. -/
def encodeArea (entries : List Entry) : Except Fault Bytes := do
  let blocks ← encodeAll entries
  return blocks ++ [terminator]

end NfcTag.Tlv
