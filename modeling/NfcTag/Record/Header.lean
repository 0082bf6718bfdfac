/-
# NfcTag.Record.Header -- the front of a record

A header is a flags byte, the type length, the payload length in one byte or
four, and the id length if the flags announce it.  `Header.encode` writes these
fields and `Header.read?` takes them off the front of a byte string; the type,
the id and the payload follow in that order (`Header.record`).
-/
import NfcTag.Bytes.BigEndian
import NfcTag.Record

namespace NfcTag.Record

set_option autoImplicit false

/-- The flags byte, bit by bit. -/
structure Flags where
  messageBegin : Bool
  messageEnd : Bool
  chunked : Bool
  /-- The payload length takes one byte instead of four. -/
  shortRecord : Bool
  /-- There is an id length. -/
  idLength : Bool
  tnf : Tnf
  deriving Repr, DecidableEq

namespace Flags

/-! The weights of the bits; the low three hold the type name format. -/

def messageBeginBit : Nat := 0x80

def messageEndBit : Nat := 0x40

def chunkedBit : Nat := 0x20

def shortRecordBit : Nat := 0x10

def idLengthBit : Nat := 0x08

def tnfMask : Nat := 0x07

/-- The flags as a byte. -/
def toByte (flags : Flags) : UInt8 :=
  let bit (set : Bool) (weight : Nat) := if set then weight else 0
  UInt8.ofNat <|
    bit flags.messageBegin messageBeginBit + bit flags.messageEnd messageEndBit +
      bit flags.chunked chunkedBit + bit flags.shortRecord shortRecordBit +
      bit flags.idLength idLengthBit + flags.tnf.code

/-- The flags that a byte holds. -/
def ofByte (byte : UInt8) : Flags :=
  let has (weight : Nat) : Bool := byte.toNat / weight % 2 = 1
  { messageBegin := has messageBeginBit
    messageEnd := has messageEndBit
    chunked := has chunkedBit
    shortRecord := has shortRecordBit
    idLength := has idLengthBit
    tnf := Tnf.ofCode byte.toNat }

theorem ofByte_toByte (flags : Flags) : ofByte flags.toByte = flags := by
  obtain ⟨mb, me, cf, sr, il, tnf⟩ := flags
  cases mb <;> cases me <;> cases cf <;> cases sr <;> cases il <;> cases tnf <;> rfl

def payloadLengthSize (flags : Flags) : Nat := if flags.shortRecord then 1 else 4

def idLengthSize (flags : Flags) : Nat := if flags.idLength then 1 else 0

end Flags

structure Header where
  flags : Flags
  typeLength : Nat
  payloadLength : Nat
  /-- Zero if there is no id length. -/
  idLength : Nat
  deriving Repr, DecidableEq

namespace Header

/-- The bytes of the header itself. -/
def size (header : Header) : Nat :=
  2 + header.flags.payloadLengthSize + header.flags.idLengthSize

/-- The bytes of the header and of everything it declares. -/
def recordSize (header : Header) : Nat :=
  header.size + header.typeLength + header.idLength + header.payloadLength

/-- The record that a header at the front of a buffer declares. -/
def record (header : Header) : Record :=
  let type : Span := ⟨header.size, header.typeLength⟩
  let id : Span := ⟨type.stop, header.idLength⟩
  { tnf := header.flags.tnf
    type
    id := if header.idLength = 0 then none else some id
    payload := ⟨id.stop, header.payloadLength⟩ }

/-- The bytes of a header.  A length takes as many low bytes as its field
has. -/
def encode (header : Header) : Bytes :=
  header.flags.toByte ::
    (BigEndian.encode 1 header.typeLength ++
      BigEndian.encode header.flags.payloadLengthSize header.payloadLength ++
      BigEndian.encode header.flags.idLengthSize header.idLength)

/-- The header at the front of a byte string, if it is there as a whole. -/
def read? : Bytes → Option Header
  | flagsByte :: typeLength :: rest => do
      let flags := Flags.ofByte flagsByte
      let (payloadLength, rest) ← Bytes.split? flags.payloadLengthSize rest
      let (idLength, _) ← Bytes.split? flags.idLengthSize rest
      some
        { flags
          typeLength := typeLength.toNat
          payloadLength := BigEndian.decode payloadLength
          idLength := BigEndian.decode idLength }
  | _ => none

@[simp] theorem length_encode (header : Header) : header.encode.length = header.size := by
  simp only [encode, size, List.length_cons, List.length_append, BigEndian.length_encode]
  omega

theorem two_lt_size (header : Header) : 2 < header.size := by
  simp only [size, Flags.payloadLengthSize]
  split <;> omega

theorem recordSize_pos (header : Header) : 0 < header.recordSize := by
  have := header.two_lt_size
  simp only [recordSize]
  omega

end Header

end NfcTag.Record
