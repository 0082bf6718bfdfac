/-
# NfcTag.Proofs.AppMessage.Reencode -- writing a message that was read

A message in a buffer may be written in many ways: with long length fields for short
payloads, with ids, with flags of all kinds.  Its contents, two types and two
payloads, are written in one.  Where the types are text without a byte order mark
(`Utf8.Unmarked`), nothing is lost on the way through the text and back
(`Unmarked.encode_ofBytes`), no length is too long, and no record grows
(`length_layout_le`).

Main statement: `encode_contents_of_parse`, for every message that can be read.
-/
import NfcTag.Proofs.AppMessage.Acceptance
import NfcTag.Proofs.Record.Reencode

namespace NfcTag

set_option autoImplicit false

/-! ## Types as text -/

namespace Utf8

/-- The bytes are whole characters, of which the first is no byte order mark. -/
structure Unmarked (bytes : Bytes) : Prop where
  text : ∃ text : String, encode text = bytes
  unmarked : ¬ [0xef, 0xbb, 0xbf] <+: bytes

theorem encode_mark : encode "\uFEFF" = [0xef, 0xbb, 0xbf] := by
  decide

theorem Unmarked.dropFirst_eq {text : String} (plain : Unmarked (encode text)) :
    dropFirst '\uFEFF' text.toList = text.toList := by
  apply dropFirst_of_head?_ne
  intro first
  apply plain.unmarked
  rw [← encode_mark, encode_prefix_iff]
  obtain ⟨rest, same⟩ := List.head?_eq_some_iff.mp first
  exact ⟨rest, same.symm⟩

/-- Read as a URI and written again, a type is what it was. -/
theorem Unmarked.encode_ofBytes {bytes : Bytes} (plain : Unmarked bytes) :
    encode (TypeUri.ofBytes bytes) = bytes := by
  obtain ⟨text, rfl⟩ := plain.text
  rw [encode, TypeUri.toList_ofBytes_encode, plain.dropFirst_eq, encode]

end Utf8

/-! ## Records -/

namespace Record

/-- A record without an id that has the format, the type and the payload of another one,
each record in its own buffer. -/
structure Renews (record : Record) (buf : Bytes) (other : Record) (otherBuf : Bytes) : Prop where
  tnf : record.tnf = other.tnf
  type : record.type.Holds buf (other.type.bytes otherBuf)
  payload : record.payload.Holds buf (other.payload.bytes otherBuf)
  id : record.id = none

theorem Renews.of_slice {record other : Record} {slice : Span} {buf otherBuf : Bytes}
    (sliced : slice.stop ≤ buf.length) (renews : record.Renews (slice.bytes buf) other otherBuf) :
    (record.shift slice.offset).Renews buf other otherBuf where
  tnf := renews.tnf
  type := renews.type.of_slice sliced
  payload := renews.payload.of_slice sliced
  id := by rw [shift, renews.id, Option.map_none]

theorem Renews.of_sameBytes {record other moved : Record} {buf otherBuf movedBuf : Bytes}
    (renews : record.Renews buf other otherBuf) (same : moved.SameBytes movedBuf other otherBuf) :
    record.Renews buf moved movedBuf where
  tnf := renews.tnf.trans same.tnf.symm
  type := same.type ▸ renews.type
  payload := same.payload ▸ renews.payload
  id := renews.id

/-- Contents without an id take the fewest bytes that a record with their type and their
payload has. -/
theorem length_layout_le (layout : Layout) {contents : Contents} (fits : contents.Fits)
    (position : Position) (type : contents.type = layout.type) (noId : contents.id = none)
    (payload : contents.payload = layout.payload) :
    (contents.layout position fits).bytes.length ≤ layout.bytes.length := by
  have field : (contents.flags position).payloadLengthSize ≤ layout.flags.payloadLengthSize := by
    have short : (contents.flags position).payloadLengthSize =
        layout.canonical.flags.payloadLengthSize := by
      rw [layout.flags_canonical]
      simp only [Flags.payloadLengthSize, Contents.flags, payload]
    rw [short, layout.payloadLengthSize_eq]
    exact Nat.le_add_right _ _
  simp only [Layout.length_bytes, Layout.parsed, Layout.header, Header.recordSize, Header.size,
    Contents.layout, type, payload, noId, Option.getD_none, List.length_nil]
  have absent : (contents.flags position).idLengthSize = 0 := by
    simp only [Flags.idLengthSize, Contents.flags, noId]
    rfl
  omega

end Record

/-! ## Messages -/

namespace AppMessage

open Record

/-- What the message in a buffer is made of. -/
def contents (message : AppMessage) (buf : Bytes) : Contents where
  dataType := message.data.uri buf
  data := message.data.payload.bytes buf
  metadataType := message.metadata.uri buf
  metadata := message.metadata.payload.bytes buf

theorem contents_congr {message other : AppMessage} {buf otherBuf : Bytes}
    (dataType : message.data.type.bytes buf = other.data.type.bytes otherBuf)
    (data : message.data.payload.bytes buf = other.data.payload.bytes otherBuf)
    (metadataType : message.metadata.type.bytes buf = other.metadata.type.bytes otherBuf)
    (metadata : message.metadata.payload.bytes buf = other.metadata.payload.bytes otherBuf) :
    message.contents buf = other.contents otherBuf := by
  simp only [contents, Record.uri, dataType, data, metadataType, metadata]

/-- The types of both records are text that a reader sees as it is. -/
structure PlainTypes (message : AppMessage) (buf : Bytes) : Prop where
  data : Utf8.Unmarked (message.data.type.bytes buf)
  metadata : Utf8.Unmarked (message.metadata.type.bytes buf)

/-- Both records of a message have the contents of another one's, and no ids. -/
structure Renews (message : AppMessage) (buf : Bytes) (other : AppMessage) (otherBuf : Bytes) :
    Prop where
  data : message.data.Renews buf other.data otherBuf
  metadata : message.metadata.Renews buf other.metadata otherBuf

theorem Renews.of_slice {message other : AppMessage} {slice : Span} {buf otherBuf : Bytes}
    (sliced : slice.stop ≤ buf.length) (renews : message.Renews (slice.bytes buf) other otherBuf) :
    (message.shift slice.offset).Renews buf other otherBuf :=
  ⟨renews.data.of_slice sliced, renews.metadata.of_slice sliced⟩

theorem Renews.contents_eq {message other : AppMessage} {buf otherBuf : Bytes}
    (renews : message.Renews buf other otherBuf) :
    message.contents buf = other.contents otherBuf :=
  contents_congr renews.data.type.bytes_eq renews.data.payload.bytes_eq
    renews.metadata.type.bytes_eq renews.metadata.payload.bytes_eq

/-! ## Writing a message again -/

/-- A record whose type is text can be written again. -/
theorem fits_uriRecord_of_layout {layout : Layout} (plain : Utf8.Unmarked layout.type) :
    (uriRecord (TypeUri.ofBytes layout.type) layout.payload).Fits := by
  apply uriRecord_fits
  · rw [plain.encode_ofBytes]
    exact layout.type_le
  · exact layout.payload_lt

/-- Written again, a record is still the application's own. -/
theorem own_uriRecord_of_layout {scheme : String} {layout : Layout}
    (plain : Utf8.Unmarked layout.type) (own : layout.Own scheme) (position : Position)
    (fits : (uriRecord (TypeUri.ofBytes layout.type) layout.payload).Fits) :
    ((uriRecord (TypeUri.ofBytes layout.type) layout.payload).layout position fits).Own
      scheme := by
  rw [own_uriRecord_iff, ← Utf8.encode_prefix_iff, plain.encode_ofBytes]
  exact own.2

/-- The spans of a message hold what its two records are made of. -/
theorem holds_ofLayouts (data metadata : Layout) (rest : Bytes) :
    let message := ofLayouts data metadata
    let buf := data.bytes ++ (metadata.bytes ++ rest)
    (message.data.type.Holds buf data.type ∧ message.data.payload.Holds buf data.payload) ∧
      message.metadata.type.Holds buf metadata.type ∧
      message.metadata.payload.Holds buf metadata.payload := by
  intro message buf
  have type := (metadata.holds_type rest).shift data.bytes []
  have payload := (metadata.holds_payload rest).shift data.bytes []
  rw [List.append_nil, data.length_bytes] at type payload
  exact ⟨⟨data.holds_type _, data.holds_payload _⟩, type, payload⟩

theorem renews_of_shows {record other : Record} {buf otherBuf type payload : Bytes}
    (seen : record.Shows buf (uriRecord (TypeUri.ofBytes type) payload))
    (sameTnf : record.tnf = other.tnf) (plain : Utf8.Unmarked type)
    (sameType : other.type.bytes otherBuf = type)
    (samePayload : other.payload.bytes otherBuf = payload) : record.Renews buf other otherBuf where
  tnf := sameTnf
  type := by
    have held := seen.type
    rwa [uriRecord, plain.encode_ofBytes, ← sameType] at held
  payload := by
    rw [samePayload]
    exact seen.payload
  id := seen.id_eq_none_iff.mpr (.inl rfl)

/-- **A message that was read can be written again**, in no more bytes than it took, and
is read as the same contents. -/
theorem encode_contents_of_parse {scheme : String} {bytes : Bytes} {message : AppMessage}
    (read : parse scheme bytes = .ok message) (plain : message.PlainTypes bytes) :
    ∃ ndef again, encode (message.contents bytes) = .ok ndef ∧ ndef.length ≤ message.size ∧
      parse scheme ndef = .ok again ∧ again.Renews ndef message bytes := by
  cases reading_of_parse read with
  | @whole data metadata rest split own metadataOwn =>
      subst split
      obtain ⟨⟨dataType, dataBytes⟩, metadataType, metadataBytes⟩ :=
        holds_ofLayouts data metadata rest
      obtain ⟨dataPlain, metadataPlain⟩ := plain
      rw [dataType.bytes_eq] at dataPlain
      rw [metadataType.bytes_eq] at metadataPlain
      let contents : Contents := ⟨TypeUri.ofBytes data.type, data.payload,
        TypeUri.ofBytes metadata.type, metadata.payload⟩
      have fits : contents.Fits :=
        ⟨fits_uriRecord_of_layout dataPlain, fits_uriRecord_of_layout metadataPlain⟩
      have same : (ofLayouts data metadata).contents
          (data.bytes ++ (metadata.bytes ++ rest)) = contents := by
        simp only [AppMessage.contents, Record.uri, dataType.bytes_eq, dataBytes.bytes_eq,
          metadataType.bytes_eq, metadataBytes.bytes_eq, contents]
      have newOwn : (contents.dataLayout fits).Own scheme :=
        own_uriRecord_of_layout dataPlain own _ fits.data
      have newMetadataOwn : (contents.metadataLayout fits).Own scheme :=
        own_uriRecord_of_layout metadataPlain metadataOwn _ fits.metadata
      have again := parse_layouts newOwn newMetadataOwn []
      have seen := shows_ofLayouts fits []
      rw [List.append_nil] at again seen
      have tnf := tnf_ofLayouts own metadataOwn
      have newTnf := tnf_ofLayouts newOwn newMetadataOwn
      have written := (congrArg encode same).trans (encode_eq_layouts fits)
      refine ⟨_, _, written, ?_, again, ?_, ?_⟩
      · rw [List.length_append, ofLayouts, ← data.length_bytes, ← metadata.length_bytes]
        exact Nat.add_le_add
          (length_layout_le data fits.data _ dataPlain.encode_ofBytes rfl rfl)
          (length_layout_le metadata fits.metadata _ metadataPlain.encode_ofBytes rfl rfl)
      · exact renews_of_shows seen.data (newTnf.1.trans tnf.1.symm) dataPlain dataType.bytes_eq
          dataBytes.bytes_eq
      · exact renews_of_shows seen.metadata (newTnf.2.trans tnf.2.symm) metadataPlain
          metadataType.bytes_eq metadataBytes.bytes_eq

end AppMessage

end NfcTag
