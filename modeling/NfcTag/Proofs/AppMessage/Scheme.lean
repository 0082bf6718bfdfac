/-
# NfcTag.Proofs.AppMessage.Scheme -- the URIs of accepted records

A record is accepted for the bytes of its type and shown as the text of them.  The
bytes behind the scheme may be anything: they are read from between characters, so
nothing that is ill-formed among them is made good at the expense of the scheme, and a
byte order mark is dropped only where the scheme starts with one.

Main statement: `accepted_uris_start_with_scheme`, for all bytes that are taken for a
message.
-/
import NfcTag.Proofs.AppMessage.Layout
import NfcTag.Proofs.TypeUri.Text

namespace NfcTag

set_option autoImplicit false

/-- Type bytes that start with those of a scheme are shown as a URI that starts with it. -/
theorem Record.prefix_uri_of_prefix_type {record : Record} {buf : Bytes} {scheme : String}
    (unmarked : scheme.toList.head? ≠ some '\uFEFF')
    (starts : Utf8.encode scheme <+: record.type.bytes buf) :
    scheme.toList <+: (record.uri buf).toList := by
  obtain ⟨rest, type⟩ := starts
  rw [uri, ← type, TypeUri.toList_ofBytes_append]
  cases chars : scheme.toList with
  | nil => exact List.nil_prefix
  | cons c front =>
      rw [chars] at unmarked
      have kept : dropFirst '\uFEFF' (c :: front ++ Utf8.decodeChars rest) =
          c :: front ++ Utf8.decodeChars rest := dropFirst_of_head?_ne unmarked
      rw [kept]
      exact List.prefix_append (c :: front) _

namespace AppMessage

variable {scheme : String} {buf : Bytes}

theorem recordAt_of_parse {offset : Nat} {parsed : Record.Parsed}
    (found : Record.parse buf offset = .ok parsed) (otherKind : Fault) :
    recordAt scheme buf offset otherKind =
      if accepts scheme buf parsed.record then .ok parsed else .error otherKind := by
  rw [recordAt, found]
  rfl

theorem accepts_of_recordAt {offset : Nat} {otherKind : Fault} {parsed : Record.Parsed}
    (read : recordAt scheme buf offset otherKind = .ok parsed) :
    accepts scheme buf parsed.record = true := by
  cases found : Record.parse buf offset with
  | error fault =>
      rw [recordAt, found] at read
      cases read
  | ok other =>
      rw [recordAt_of_parse found] at read
      split at read
      · rename_i accepted
        cases read
        exact accepted
      · cases read

/-- Both records of a message that is read have passed. -/
theorem accepts_of_parse {message : AppMessage} (read : parse scheme buf = .ok message) :
    accepts scheme buf message.data = true ∧ accepts scheme buf message.metadata = true := by
  rw [parse] at read
  cases first : recordAt scheme buf 0 .dataType with
  | error fault =>
      rw [first] at read
      cases read
  | ok data =>
      cases second : recordAt scheme buf data.size .metadataType with
      | error fault =>
          simp only [first, second, bind, Except.bind] at read
          cases read
      | ok metadata =>
          simp only [first, second, bind, Except.bind] at read
          cases read
          exact ⟨accepts_of_recordAt first, accepts_of_recordAt second⟩

/-- **Accepted records have URIs of the scheme**, whatever bytes their types go on with. -/
theorem accepted_uris_start_with_scheme (unmarked : scheme.toList.head? ≠ some '\uFEFF')
    {message : AppMessage} (read : parse scheme buf = .ok message) :
    scheme.toList <+: (message.data.uri buf).toList ∧
      scheme.toList <+: (message.metadata.uri buf).toList := by
  obtain ⟨data, metadata⟩ := accepts_of_parse read
  rw [accepts_eq_true_iff] at data metadata
  exact ⟨Record.prefix_uri_of_prefix_type unmarked data.2,
    Record.prefix_uri_of_prefix_type unmarked metadata.2⟩

/-- Behind the scheme one type has a byte that starts no character and a character that
is cut, the other one a surrogate. -/
theorem accepted_uris_start_with_scheme_malformed :
    let scheme := "\u00e9:"
    let buf : Bytes :=
      [0x13, 0x06, 0x01, 0xc3, 0xa9, 0x3a, 0xff, 0xe2, 0x82, 0x2a,
        0x13, 0x06, 0x00, 0xc3, 0xa9, 0x3a, 0xed, 0xa0, 0x80]
    let message : AppMessage :=
      ⟨⟨.absoluteUri, ⟨3, 6⟩, none, ⟨9, 1⟩⟩, ⟨.absoluteUri, ⟨13, 6⟩, none, ⟨19, 0⟩⟩, 19⟩
    scheme.toList.head? ≠ some '\uFEFF' ∧ parse scheme buf = .ok message ∧
      scheme.toList <+: (message.data.uri buf).toList ∧
      scheme.toList <+: (message.metadata.uri buf).toList := by
  intro scheme buf message
  have unmarked : scheme.toList.head? ≠ some '\uFEFF' := by decide
  have read : parse scheme buf = .ok message := by
    unfold scheme buf message
    rfl
  exact ⟨unmarked, read, accepted_uris_start_with_scheme unmarked read⟩

end AppMessage

end NfcTag
