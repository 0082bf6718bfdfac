/-
# NfcTag.Record.Segments -- records too large for a list

The parts of a record may be large, and a list of their bytes takes many times their
size.  Here they are held in segments, which are arrays of bytes and may be shared, and
so is what is written.  `bytes_encodeSegments` says that it is what `encode` writes.
-/
import NfcTag.Record.Encode

namespace NfcTag

set_option autoImplicit false

/-- A byte string in segments, one behind the other. -/
abbrev Segments := List ByteArray

namespace Segments

def bytes (segments : Segments) : Bytes := segments.flatMap fun segment => segment.data.toList

def size (segments : Segments) : Nat := segments.foldl (fun size segment => size + segment.size) 0

theorem foldl_size (segments : Segments) (size : Nat) :
    segments.foldl (fun size segment => size + segment.size) size = size + segments.bytes.length := by
  induction segments generalizing size with
  | nil => rfl
  | cons segment segments ih =>
      have first : segment.data.toList.length = segment.size := Array.length_toList
      rw [List.foldl_cons, ih, bytes, bytes, List.flatMap_cons, List.length_append, first,
        Nat.add_assoc]

theorem length_bytes (segments : Segments) : segments.bytes.length = segments.size := by
  rw [size, foldl_size, Nat.zero_add]

end Segments

namespace Record

/-- `Contents` that are held in segments. -/
structure SegmentedContents where
  tnf : Binary64
  type : Segments
  id : Option Segments
  payload : Segments

namespace SegmentedContents

def contents (parts : SegmentedContents) : Contents where
  tnf := parts.tnf
  type := parts.type.bytes
  id := parts.id.map Segments.bytes
  payload := parts.payload.bytes

def header (parts : SegmentedContents) (position : Position) : Header where
  flags :=
    { messageBegin := position.messageBegin
      messageEnd := position.messageEnd
      chunked := false
      shortRecord := parts.payload.size ≤ maxByteLength
      idLength := parts.id.isSome
      tnf := Tnf.ofNumber parts.tnf }
  typeLength := parts.type.size
  payloadLength := parts.payload.size
  idLength := (parts.id.map Segments.size).getD 0

theorem header_contents (parts : SegmentedContents) (position : Position) :
    parts.contents.header position = parts.header position := by
  simp only [Contents.header, Contents.flags, contents, header, Segments.length_bytes,
    Option.isSome_map, Option.map_map, Function.comp_def]

end SegmentedContents

def encodeSegments (parts : SegmentedContents) (position : Position) : Except Fault Segments :=
  let id := parts.id.getD []
  if maxByteLength < parts.type.size then
    .error (.typeTooLong parts.type.size maxByteLength)
  else if maxByteLength < id.size then .error (.idTooLong id.size maxByteLength)
  else
    let header := ByteArray.mk (parts.header position).encode.toArray
    .ok (header :: (parts.type ++ id ++ parts.payload))

theorem bytes_encodeSegments (parts : SegmentedContents) (position : Position) :
    (encodeSegments parts position).map Segments.bytes = encode parts.contents position := by
  have id : parts.contents.id.getD [] = (parts.id.getD []).bytes := by
    rw [SegmentedContents.contents]
    cases parts.id <;> rfl
  have type : parts.contents.type.length = parts.type.size := Segments.length_bytes _
  rw [encodeSegments, encode, id, type, Segments.length_bytes, SegmentedContents.header_contents]
  split
  · rfl
  · split
    · rfl
    · simp only [Except.map, Segments.bytes, List.flatMap_cons, List.flatMap_append,
        List.append_assoc]
      rfl

end Record

end NfcTag
