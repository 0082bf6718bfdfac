/-
# NfcTag.Proofs.AppMessage.Written -- reading back a written message

Two records of the application are written back to back, whatever their payloads
are, if no type is too long (`exists_encode`).  Where every length has a field, the
message is made of two layouts (`encode_eq_layouts`), each of them the application's
own exactly if its type starts with the scheme (`own_uriRecord_iff`).

Main statement: `parse_encode`, by which a reader finds exactly what was written.
-/
import NfcTag.Proofs.AppMessage.Layout
import NfcTag.Proofs.Record.RoundTrip
import NfcTag.Text.Utf8.RoundTrip

namespace NfcTag

set_option autoImplicit false

/-- Only types and ids are refused; a payload is written whatever its length. -/
theorem Record.exists_encode (contents : Contents) (position : Position)
    (type : contents.type.length ≤ maxByteLength)
    (id : (contents.id.getD []).length ≤ maxByteLength) :
    ∃ bytes, encode contents position = .ok bytes ∧ contents.payload.length ≤ bytes.length := by
  rw [encode, if_neg (Nat.not_lt.mpr type), if_neg (Nat.not_lt.mpr id)]
  refine ⟨_, rfl, ?_⟩
  rw [List.length_append]
  exact Nat.le_add_left _ _

namespace AppMessage

open Record

variable {scheme : String}

/-! ## What is written -/

/-- The type starts with the scheme and is not too long for a record. -/
structure IsType (scheme type : String) : Prop where
  starts : scheme.toList <+: type.toList
  short : (Utf8.encode type).length ≤ maxByteLength

/-- Both types are good for the scheme. -/
structure Contents.OfScheme (contents : Contents) (scheme : String) : Prop where
  data : IsType scheme contents.dataType
  metadata : IsType scheme contents.metadataType

theorem uriRecord_fits {type : String} {payload : Bytes}
    (short : (Utf8.encode type).length ≤ maxByteLength)
    (small : payload.length < 0x100000000) : (uriRecord type payload).Fits where
  type := short
  id _ given := by cases given
  payload := small

theorem tnf_absoluteUri : Tnf.ofNumber (Binary64.ofInt Tnf.absoluteUri.code) = .absoluteUri := by
  decide +kernel

/-- A record is the application's own exactly if its type starts with the scheme. -/
theorem own_uriRecord_iff {type : String} {payload : Bytes} (position : Position)
    (fits : (uriRecord type payload).Fits) :
    ((uriRecord type payload).layout position fits).Own scheme ↔
      scheme.toList <+: type.toList := by
  rw [← Utf8.encode_prefix_iff]
  constructor
  · exact fun own => own.2
  · intro starts
    refine ⟨?_, starts⟩
    simp only [Contents.layout, Contents.flags, uriRecord, tnf_absoluteUri]

theorem encode_eq_append {contents : Contents} {data metadata : Bytes}
    (first : Record.encode (uriRecord contents.dataType contents.data) ⟨true, false⟩ = .ok data)
    (second : Record.encode (uriRecord contents.metadataType contents.metadata) ⟨false, true⟩ =
      .ok metadata) :
    encode contents = .ok (data ++ metadata) := by
  simp only [encode, Message.encode, Message.encodeFrom, List.isEmpty_cons, List.isEmpty_nil,
    first, second, bind, Except.bind, pure, Except.pure, List.append_nil]
  rfl

/-- Both records fit. -/
structure Contents.Fits (contents : Contents) : Prop where
  data : (uriRecord contents.dataType contents.data).Fits
  metadata : (uriRecord contents.metadataType contents.metadata).Fits

def Contents.dataLayout (contents : Contents) (fits : contents.Fits) : Layout :=
  (uriRecord contents.dataType contents.data).layout ⟨true, false⟩ fits.data

def Contents.metadataLayout (contents : Contents) (fits : contents.Fits) : Layout :=
  (uriRecord contents.metadataType contents.metadata).layout ⟨false, true⟩ fits.metadata

theorem encode_eq_layouts {contents : Contents} (fits : contents.Fits) :
    encode contents =
      .ok ((contents.dataLayout fits).bytes ++ (contents.metadataLayout fits).bytes) :=
  encode_eq_append (encode_eq_layout fits.data ⟨true, false⟩)
    (encode_eq_layout fits.metadata ⟨false, true⟩)

/-- Messages whose types are short enough are never refused. -/
theorem exists_encode {contents : Contents}
    (dataType : (Utf8.encode contents.dataType).length ≤ maxByteLength)
    (metadataType : (Utf8.encode contents.metadataType).length ≤ maxByteLength) :
    ∃ bytes, encode contents = .ok bytes ∧ contents.data.length ≤ bytes.length ∧
      contents.metadata.length ≤ bytes.length := by
  obtain ⟨data, first, dataShort⟩ :=
    Record.exists_encode (uriRecord contents.dataType contents.data) ⟨true, false⟩
      dataType (Nat.zero_le _)
  obtain ⟨metadata, second, metadataShort⟩ :=
    Record.exists_encode (uriRecord contents.metadataType contents.metadata) ⟨false, true⟩
      metadataType (Nat.zero_le _)
  refine ⟨data ++ metadata, encode_eq_append first second, ?_, ?_⟩ <;> rw [List.length_append]
  · exact Nat.le_trans dataShort (Nat.le_add_right _ _)
  · exact Nat.le_trans metadataShort (Nat.le_add_left _ _)

/-! ## What is read -/

/-- The message found in `buf` is one with these contents. -/
structure Shows (message : AppMessage) (buf : Bytes) (contents : Contents) : Prop where
  data : message.data.Shows buf (uriRecord contents.dataType contents.data)
  metadata : message.metadata.Shows buf (uriRecord contents.metadataType contents.metadata)

theorem Shows.of_slice {message : AppMessage} {slice : Span} {buf : Bytes} {contents : Contents}
    (sliced : slice.stop ≤ buf.length) (seen : message.Shows (slice.bytes buf) contents) :
    (message.shift slice.offset).Shows buf contents :=
  ⟨seen.data.of_slice sliced, seen.metadata.of_slice sliced⟩

theorem size_ofLayouts (data metadata : Layout) :
    (ofLayouts data metadata).size = (data.bytes ++ metadata.bytes).length := by
  rw [List.length_append, data.length_bytes, metadata.length_bytes, ofLayouts]

theorem shows_ofLayouts {contents : Contents} (fits : contents.Fits) (rest : Bytes) :
    (ofLayouts (contents.dataLayout fits) (contents.metadataLayout fits)).Shows
      ((contents.dataLayout fits).bytes ++ ((contents.metadataLayout fits).bytes ++ rest))
      contents where
  data := shows_layout fits.data _ _
  metadata := by
    have seen := (shows_layout fits.metadata ⟨false, true⟩ rest).shift
      (contents.dataLayout fits).bytes []
    rw [List.append_nil, Layout.length_bytes] at seen
    exact seen

/-- **A written message is read back**, over its whole length. -/
theorem parse_encode {contents : Contents} (good : contents.OfScheme scheme) {bytes : Bytes}
    (written : encode contents = .ok bytes) (short : bytes.length < 0x100000000) :
    ∃ message, parse scheme bytes = .ok message ∧ message.Shows bytes contents ∧
      message.size = bytes.length := by
  obtain ⟨sameBytes, sameWritten, dataShort, metadataShort⟩ :=
    exists_encode good.data.short good.metadata.short
  obtain rfl := Except.ok.inj (written.symm.trans sameWritten)
  -- A message has room for its payloads, so its length bounds theirs.
  have fits : contents.Fits :=
    ⟨uriRecord_fits good.data.short (Nat.lt_of_le_of_lt dataShort short),
      uriRecord_fits good.metadata.short (Nat.lt_of_le_of_lt metadataShort short)⟩
  obtain rfl := Except.ok.inj (written.symm.trans (encode_eq_layouts fits))
  have read := parse_layouts ((own_uriRecord_iff ⟨true, false⟩ fits.data).mpr good.data.starts)
    ((own_uriRecord_iff ⟨false, true⟩ fits.metadata).mpr good.metadata.starts) []
  have seen := shows_ofLayouts fits []
  rw [List.append_nil] at read seen
  exact ⟨_, read, seen, size_ofLayouts _ _⟩

end AppMessage

end NfcTag
