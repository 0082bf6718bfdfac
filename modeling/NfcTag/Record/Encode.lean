/-
# NfcTag.Record.Encode -- writing a record

A record takes the short form when its payload length fits a byte, and it has
an id length exactly when an id is given.  Types and ids of more than 255 bytes
are refused.
-/
import NfcTag.Fault
import NfcTag.Record.Header

namespace NfcTag.Record

set_option autoImplicit false

/-- The longest payload of a short record, the longest type and the longest
id. -/
def maxByteLength : Nat := 0xff

namespace Contents

def flags (contents : Contents) (position : Position) : Flags where
  messageBegin := position.messageBegin
  messageEnd := position.messageEnd
  chunked := false
  shortRecord := contents.payload.length ≤ maxByteLength
  idLength := contents.id.isSome
  tnf := Tnf.ofNumber contents.tnf

def header (contents : Contents) (position : Position) : Header where
  flags := contents.flags position
  typeLength := contents.type.length
  payloadLength := contents.payload.length
  idLength := (contents.id.map List.length).getD 0

end Contents

def encode (contents : Contents) (position : Position) : Except Fault Bytes :=
  let id := contents.id.getD []
  if maxByteLength < contents.type.length then
    .error (.typeTooLong contents.type.length maxByteLength)
  else if maxByteLength < id.length then
    .error (.idTooLong id.length maxByteLength)
  else
    .ok ((contents.header position).encode ++ contents.type ++ id ++ contents.payload)

end NfcTag.Record
