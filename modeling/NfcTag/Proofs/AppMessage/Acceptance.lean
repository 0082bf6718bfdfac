/-
# NfcTag.Proofs.AppMessage.Acceptance -- which written messages a reader takes

A message can be written unless a type is too long (`encode_eq_error_iff`).  A
reader compares bytes, but UTF-8 keeps characters apart: it takes a written
message exactly if both types start with its scheme as texts, and then sees the
types as they were written, a byte order mark apart.

Main statement: `written_accepted_iff`, whatever follows the message.
-/
import NfcTag.Fault.Report
import NfcTag.Proofs.AppMessage.Written
import NfcTag.Proofs.TypeUri.Text

namespace NfcTag

set_option autoImplicit false

/-! ## Types -/

/-- A type that was written is seen as it was, without the mark that it may start with. -/
theorem Record.toList_uri {record : Record} {buf : Bytes} {type : String}
    (holds : record.type.Holds buf (Utf8.encode type)) :
    (record.uri buf).toList =
      if type.toList.head? = some '\uFEFF' then type.toList.tail else type.toList := by
  rw [uri, holds.bytes_eq, TypeUri.toList_ofBytes_encode, dropFirst]

namespace AppMessage

open Record

/-! ## Refusals -/

theorem encode_of_long_type {type : String} (long : maxByteLength < (Utf8.encode type).length)
    (payload : Bytes) (position : Position) :
    Record.encode (uriRecord type payload) position =
      .error (.typeTooLong (Utf8.encode type).length maxByteLength) := by
  rw [Record.encode]
  exact if_pos long

theorem encode_of_long_data {contents : Contents}
    (long : maxByteLength < (Utf8.encode contents.dataType).length) :
    encode contents =
      .error (.typeTooLong (Utf8.encode contents.dataType).length maxByteLength) := by
  simp only [encode, Message.encode, Message.encodeFrom, List.isEmpty_cons,
    encode_of_long_type long, bind, Except.bind]
  rfl

theorem encode_of_long_metadata {contents : Contents}
    (short : (Utf8.encode contents.dataType).length ≤ maxByteLength)
    (long : maxByteLength < (Utf8.encode contents.metadataType).length) :
    encode contents =
      .error (.typeTooLong (Utf8.encode contents.metadataType).length maxByteLength) := by
  obtain ⟨data, written, -⟩ :=
    Record.exists_encode (uriRecord contents.dataType contents.data) ⟨true, false⟩ short
      (Nat.zero_le _)
  simp only [encode, Message.encode, Message.encodeFrom, List.isEmpty_cons, written,
    encode_of_long_type long, bind, Except.bind]
  rfl

/-- The first type that is too long is the one that is refused. -/
theorem encode_eq_error_iff {contents : Contents} {fault : Fault} :
    encode contents = .error fault ↔
      maxByteLength < (Utf8.encode contents.dataType).length ∧
          fault = .typeTooLong (Utf8.encode contents.dataType).length maxByteLength ∨
        (Utf8.encode contents.dataType).length ≤ maxByteLength ∧
          maxByteLength < (Utf8.encode contents.metadataType).length ∧
          fault = .typeTooLong (Utf8.encode contents.metadataType).length maxByteLength := by
  by_cases dataLong : maxByteLength < (Utf8.encode contents.dataType).length
  · rw [encode_of_long_data dataLong, Except.error.injEq]
    simp only [dataLong, Nat.not_le.mpr dataLong, true_and, false_and, or_false, eq_comm]
  have dataShort := Nat.not_lt.mp dataLong
  by_cases metadataLong : maxByteLength < (Utf8.encode contents.metadataType).length
  · rw [encode_of_long_metadata dataShort metadataLong, Except.error.injEq]
    simp only [dataLong, dataShort, metadataLong, true_and, false_and, false_or, eq_comm]
  · obtain ⟨bytes, written, -⟩ := exists_encode dataShort (Nat.not_lt.mp metadataLong)
    simp only [written, dataLong, metadataLong, false_and, and_false, or_false, reduceCtorEq]

theorem exists_error_iff {contents : Contents} :
    (∃ fault, encode contents = .error fault) ↔
      maxByteLength < (Utf8.encode contents.dataType).length ∨
        maxByteLength < (Utf8.encode contents.metadataType).length := by
  constructor
  · rintro ⟨fault, refused⟩
    obtain ⟨long, -⟩ | ⟨-, long, -⟩ := encode_eq_error_iff.mp refused
    · exact .inl long
    · exact .inr long
  · intro long
    by_cases data : maxByteLength < (Utf8.encode contents.dataType).length
    · exact ⟨_, encode_of_long_data data⟩
    · exact ⟨_, encode_of_long_metadata (Nat.not_lt.mp data) (long.resolve_left data)⟩

theorem short_of_encode {contents : Contents} {bytes : Bytes}
    (written : encode contents = .ok bytes) :
    (Utf8.encode contents.dataType).length ≤ maxByteLength ∧
      (Utf8.encode contents.metadataType).length ≤ maxByteLength := by
  have unrefused : ¬ ∃ fault, encode contents = .error fault := by
    rintro ⟨fault, refused⟩
    rw [written] at refused
    cases refused
  rw [exists_error_iff, not_or, Nat.not_lt, Nat.not_lt] at unrefused
  exact unrefused

/-! ## Acceptance -/

/-- The record in `buf` is one of the application's, with this type and payload. -/
structure Reads (record : Record) (buf : Bytes) (type : String) (payload : Bytes) : Prop where
  tnf : record.tnf = .absoluteUri
  id : record.id = none
  payload : record.payload.Holds buf payload
  uri : (record.uri buf).toList =
    if type.toList.head? = some '\uFEFF' then type.toList.tail else type.toList

theorem reads_of_shows {record : Record} {buf : Bytes} {type : String} {payload : Bytes}
    (seen : record.Shows buf (uriRecord type payload)) (own : record.tnf = .absoluteUri) :
    Reads record buf type payload where
  tnf := own
  id := seen.id_eq_none_iff.mpr (.inl rfl)
  payload := seen.payload
  uri := Record.toList_uri seen.type

/-- How a reader of the scheme takes the bytes of a written message that something follows. -/
structure Verdict (scheme : String) (contents : Contents) (bytes rest : Bytes) : Prop where
  accepted_iff : (∃ message, parse scheme (bytes ++ rest) = .ok message) ↔
    scheme.toList <+: contents.dataType.toList ∧ scheme.toList <+: contents.metadataType.toList
  reads : ∀ message, parse scheme (bytes ++ rest) = .ok message →
    message.size = bytes.length ∧
      Reads message.data (bytes ++ rest) contents.dataType contents.data ∧
      Reads message.metadata (bytes ++ rest) contents.metadataType contents.metadata
  otherData : ¬ scheme.toList <+: contents.dataType.toList →
    parse scheme (bytes ++ rest) = .error .dataType
  otherMetadata : scheme.toList <+: contents.dataType.toList →
    ¬ scheme.toList <+: contents.metadataType.toList →
    parse scheme (bytes ++ rest) = .error .metadataType

theorem verdict (scheme : String) {contents : Contents} (fits : contents.Fits) (rest : Bytes) :
    Verdict scheme contents
      ((contents.dataLayout fits).bytes ++ (contents.metadataLayout fits).bytes) rest := by
  have data : (contents.dataLayout fits).Own scheme ↔
      scheme.toList <+: contents.dataType.toList := own_uriRecord_iff _ fits.data
  have metadata : (contents.metadataLayout fits).Own scheme ↔
      scheme.toList <+: contents.metadataType.toList := own_uriRecord_iff _ fits.metadata
  have seen := shows_ofLayouts fits rest
  have size := size_ofLayouts (contents.dataLayout fits) (contents.metadataLayout fits)
  constructor <;> rw [List.append_assoc]
  case accepted_iff =>
    simp only [parse_layouts_eq_ok_iff, exists_and_left, exists_eq, and_true, data, metadata]
  case reads =>
    intro message read
    obtain ⟨dataOwn, metadataOwn, rfl⟩ := parse_layouts_eq_ok_iff.mp read
    have tnf := tnf_ofLayouts dataOwn metadataOwn
    exact ⟨size, reads_of_shows seen.data tnf.1, reads_of_shows seen.metadata tnf.2⟩
  case otherData =>
    intro other
    exact parse_other (mt data.mp other) _
  case otherMetadata =>
    intro own other
    exact parse_metadata_other (data.mpr own) (mt metadata.mp other) rest

/-- **A written message is taken by the readers whose scheme starts both types**, whatever
follows it; it can be written unless a type is too long. -/
theorem written_accepted_iff (scheme : String) {contents : Contents}
    (dataSmall : contents.data.length < 0x100000000)
    (metadataSmall : contents.metadata.length < 0x100000000) :
    ((∃ fault, encode contents = .error fault) ↔
      maxByteLength < (Utf8.encode contents.dataType).length ∨
        maxByteLength < (Utf8.encode contents.metadataType).length) ∧
    (∀ fault, encode contents = .error fault → fault.report = .range fault.message) ∧
    ∀ bytes, encode contents = .ok bytes → ∀ rest, Verdict scheme contents bytes rest := by
  refine ⟨exists_error_iff, ?_, ?_⟩
  · intro fault refused
    obtain ⟨-, rfl⟩ | ⟨-, -, rfl⟩ := encode_eq_error_iff.mp refused <;> rfl
  · intro bytes written rest
    obtain ⟨dataShort, metadataShort⟩ := short_of_encode written
    have fits : contents.Fits :=
      ⟨uriRecord_fits dataShort dataSmall, uriRecord_fits metadataShort metadataSmall⟩
    obtain rfl := Except.ok.inj ((encode_eq_layouts fits).symm.trans written)
    exact verdict scheme fits rest

/-- Types and a scheme that start with a byte order mark, which the reader drops. -/
theorem written_accepted_iff_mark :
    let scheme := "\uFEFF\u00e9:"
    let contents : Contents := ⟨"\uFEFF\u00e9:d", [0x2a], "\uFEFF\u00e9:m?zip=0", []⟩
    contents.data.length < 0x100000000 ∧ contents.metadata.length < 0x100000000 ∧
      ∃ bytes message, encode contents = .ok bytes ∧
        parse scheme (bytes ++ [0xfe]) = .ok message ∧ message.size = bytes.length ∧
        (message.data.uri (bytes ++ [0xfe])).toList = "\u00e9:d".toList := by
  intro scheme contents
  have dataSmall : contents.data.length < 0x100000000 := by decide
  have metadataSmall : contents.metadata.length < 0x100000000 := by decide
  obtain ⟨bytes, written, -⟩ := @exists_encode contents (by decide) (by decide)
  have verdict := (written_accepted_iff scheme dataSmall metadataSmall).2.2 bytes written [0xfe]
  obtain ⟨message, read⟩ := verdict.accepted_iff.mpr ⟨by decide, by decide⟩
  obtain ⟨size, data, -⟩ := verdict.reads message read
  exact ⟨dataSmall, metadataSmall, bytes, message, written, read, size,
    data.uri.trans (by decide)⟩

end AppMessage

end NfcTag
