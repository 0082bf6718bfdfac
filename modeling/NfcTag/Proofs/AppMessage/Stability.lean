/-
# NfcTag.Proofs.AppMessage.Stability -- messages of which more bytes arrive

Bytes arrive front first, and a reader may look for the message at any time.  What
it finds is settled as soon as the bytes that decide it are there: a message that
was read stays (`parse_append_of_ok`), and so does a refusal because of a record of
another kind (`parse_append_of_wrongType`).  While a message is incomplete, it is
refused as truncated and as nothing else (`parse_short`).

Main statement: `parse_stable`.  Only the fault of a record that is cut can go away.
-/
import NfcTag.Proofs.AppMessage.Layout

namespace NfcTag.AppMessage

set_option autoImplicit false

open Record

variable {scheme : String} {bytes : Bytes}

/-! ## More bytes -/

theorem parse_append_of_ok {message : AppMessage} (read : parse scheme bytes = .ok message)
    (rest : Bytes) : parse scheme (bytes ++ rest) = .ok message := by
  obtain ⟨data, metadata, own, metadataOwn, stands, same⟩ := parse_eq_ok_iff.mp read
  have further := stands.trans (List.prefix_append bytes rest)
  exact parse_eq_ok_iff.mpr ⟨data, metadata, own, metadataOwn, further, same⟩

/-- A record of another kind is whole, so nothing behind it changes what it is. -/
theorem parse_append_of_wrongType {fault : Fault} (refused : parse scheme bytes = .error fault)
    (wrong : fault.status? = some .wrongType) (rest : Bytes) :
    parse scheme (bytes ++ rest) = .error fault := by
  cases reading_of_parse refused with
  | dataCut cut | metadataCut _ _ cut =>
      rw [cut.status] at wrong
      cases wrong
  | dataOther split other => rw [split, List.append_assoc, parse_other other]
  | metadataOther split own other =>
      rw [split, List.append_assoc, List.append_assoc, parse_metadata_other own other]

/-- The records of a message are cut, or are of another kind. -/
theorem status_of_parse {fault : Fault} (refused : parse scheme bytes = .error fault) :
    fault.status? = some .truncated ∨ fault.status? = some .wrongType := by
  cases reading_of_parse refused with
  | dataCut cut | metadataCut _ _ cut => exact .inl cut.status
  | dataOther | metadataOther => exact .inr rfl

/-! ## Fewer bytes -/

/-- The bytes of its two records are all that a message needs. -/
theorem parse_prefix_of_size_le {message : AppMessage} (read : parse scheme bytes = .ok message)
    {front : Bytes} (starts : front <+: bytes) (enough : message.size ≤ front.length) :
    parse scheme front = .ok message := by
  obtain ⟨data, metadata, own, metadataOwn, stands, rfl⟩ := parse_eq_ok_iff.mp read
  have inside : data.bytes ++ metadata.bytes <+: front := by
    apply List.prefix_of_prefix_length_le stands starts
    rw [List.length_append, data.length_bytes, metadata.length_bytes]
    exact enough
  exact parse_eq_ok_iff.mpr ⟨data, metadata, own, metadataOwn, inside, rfl⟩

/-- And it needs all of them: one of the records is cut before. -/
theorem parse_short {message : AppMessage} (read : parse scheme bytes = .ok message)
    {front : Bytes} (starts : front <+: bytes) (short : front.length < message.size) :
    ∃ fault, parse scheme front = .error fault ∧ fault.status? = some .truncated := by
  cases reading_of_parse read with
  | @whole data metadata rest split own metadataOwn =>
      subst split
      by_cases inData : front.length < data.bytes.length
      · obtain ⟨fault, cut⟩ := data.exists_cut starts inData
        exact ⟨fault, parse_cut cut, cut.status⟩
      · -- The data record is there, so its kind is looked at, and it is the right one.
        obtain ⟨left, rfl⟩ : data.bytes <+: front :=
          List.prefix_of_prefix_length_le (List.prefix_append _ _) starts (Nat.le_of_not_lt inData)
        rw [List.prefix_append_right_inj] at starts
        have inMetadata : left.length < metadata.bytes.length := by
          rw [List.length_append, data.length_bytes] at short
          rw [metadata.length_bytes]
          exact Nat.lt_of_add_lt_add_left short
        obtain ⟨fault, cut⟩ := metadata.exists_cut starts inMetadata
        exact ⟨fault, parse_metadata_cut own cut, cut.status⟩

/-! ## What is settled -/

/-- What looking for a message in `bytes` says about looking for it earlier or later. -/
structure Settled (scheme : String) (bytes : Bytes) : Prop where
  read : ∀ message, parse scheme bytes = .ok message →
    (∀ rest, parse scheme (bytes ++ rest) = .ok message) ∧
    (∀ front, front <+: bytes → message.size ≤ front.length →
      parse scheme front = .ok message) ∧
    ∀ front, front <+: bytes → front.length < message.size →
      ∃ fault, parse scheme front = .error fault ∧ fault.status? = some .truncated
  wrongType : ∀ fault, parse scheme bytes = .error fault → fault.status? = some .wrongType →
    ∀ rest, parse scheme (bytes ++ rest) = .error fault
  onlyTruncated : ∀ rest, parse scheme (bytes ++ rest) ≠ parse scheme bytes →
    ∃ fault, parse scheme bytes = .error fault ∧ fault.status? = some .truncated

/-- **Only the fault of a record that is cut can be changed by more bytes.**  A message
that was read is read in all bytes that go on, and in fewer bytes down to its own size;
below that it is truncated.  A record of another kind stays refused with the same fault. -/
theorem parse_stable (scheme : String) (bytes : Bytes) : Settled scheme bytes := by
  constructor
  case read =>
    intro message read
    exact ⟨parse_append_of_ok read, fun _ starts => parse_prefix_of_size_le read starts,
      fun _ starts => parse_short read starts⟩
  case wrongType => exact fun fault refused => parse_append_of_wrongType refused
  case onlyTruncated =>
    intro rest changed
    cases read : parse scheme bytes with
    | ok message =>
        rw [read, parse_append_of_ok read] at changed
        exact absurd rfl changed
    | error fault =>
        obtain truncated | wrong := status_of_parse read
        · exact ⟨fault, rfl, truncated⟩
        · rw [read, parse_append_of_wrongType read wrong] at changed
          exact absurd rfl changed

end NfcTag.AppMessage
