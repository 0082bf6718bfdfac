/-
# NfcTag.Proofs.Reader.Outcome -- what a reader answers, its log apart

The log decides nothing, so each operation of a reader is described by its
outcome.  A memory has a message exactly where `MessageBlock` says
(`outcome_find_eq_ok_iff`), and reading data out of memory is reading it out of
the bytes of that block (`data_eq_find_andThen`, `outcome_data`): spans are moved
into memory and read there, which gives the same bytes.
-/
import NfcTag.Proofs.AppMessage.Layout
import NfcTag.Reader

namespace NfcTag

set_option autoImplicit false

/-- The first message block of a memory, when its value is neither empty nor
cut. -/
structure MessageBlock (memory : Bytes) (location : Tlv.Location) : Prop where
  found : Tlv.findByte? memory Tlv.ndefMessage = some location
  nonempty : location.length ≠ 0
  whole : location.span.stop ≤ memory.length

namespace MessageBlock

variable {memory : Bytes} {location : Tlv.Location}

theorem unique (block : MessageBlock memory location) {other : Tlv.Location}
    (otherBlock : MessageBlock memory other) : other = location :=
  Option.some.inj (otherBlock.found.symm.trans block.found)

theorem usable (block : MessageBlock memory location) :
    ¬ (location.length = 0 ∨ memory.length < location.span.stop) := by
  rintro (empty | cut)
  · exact block.nonempty empty
  · exact Nat.not_lt.mpr block.whole cut

/-- A first block of the type is the message block unless it is empty or cut. -/
theorem unusable_of_not (found : Tlv.findByte? memory Tlv.ndefMessage = some location)
    (noBlock : ¬ MessageBlock memory location) :
    location.length = 0 ∨ memory.length < location.span.stop := by
  by_cases empty : location.length = 0
  · exact .inl empty
  · exact .inr (Nat.lt_of_not_le fun whole => noBlock ⟨found, empty, whole⟩)

theorem length_bytes (block : MessageBlock memory location) :
    (location.span.bytes memory).length = location.length := by
  have whole := block.whole
  rw [Span.stop] at whole
  rw [Span.length_bytes]
  simp only [Tlv.Location.span] at whole ⊢
  omega

end MessageBlock

namespace Reader

variable (reader : Reader)

/-! ## Locating -/

theorem outcome_find_of_block {memory : Bytes} {location : Tlv.Location}
    (block : MessageBlock memory location) :
    (reader.find memory).outcome = .ok location.span := by
  simp only [find, block.found, if_neg block.usable]
  rfl

theorem outcome_find_of_not_block {memory : Bytes}
    (noBlock : ∀ location, ¬ MessageBlock memory location) :
    (reader.find memory).outcome = .error .noMessage := by
  cases found : Tlv.findByte? memory Tlv.ndefMessage with
  | none =>
      simp only [find, found]
      rfl
  | some location =>
      have unusable := MessageBlock.unusable_of_not found (noBlock location)
      simp only [find, found, if_pos unusable]
      rfl

theorem outcome_find_eq_ok_iff {memory : Bytes} {span : Span} :
    (reader.find memory).outcome = .ok span ↔
      ∃ location, MessageBlock memory location ∧ span = location.span := by
  constructor
  · intro located
    by_cases present : ∃ location, MessageBlock memory location
    · obtain ⟨location, block⟩ := present
      rw [reader.outcome_find_of_block block, Except.ok.injEq] at located
      exact ⟨location, block, located.symm⟩
    · rw [reader.outcome_find_of_not_block (not_exists.mp present)] at located
      cases located
  · rintro ⟨location, block, rfl⟩
    exact reader.outcome_find_of_block block

/-! ## Reading -/

theorem outcome_parse (ndef : Bytes) :
    (reader.parse ndef).outcome = AppMessage.parse reader.scheme ndef := by
  unfold parse
  split
  · rename_i message read
    rw [read]
    rfl
  · rename_i fault refused
    rw [refused]
    rfl

theorem outcome_decode (payload : Payload) (bytes : Bytes) :
    (reader.decode payload bytes).outcome = payload.decode bytes := by
  rw [decode, Traced.bind_eq_andThen, Traced.outcome_andThen]
  cases payload.decode bytes <;> rfl

theorem outcome_message (memory : Bytes) :
    (reader.message memory).outcome = (do
      let span ← (reader.find memory).outcome
      let message ← AppMessage.parse reader.scheme (span.bytes memory)
      return message.shift span.offset) := by
  simp only [message, Traced.bind_eq_andThen, Traced.outcome_andThen, outcome_parse]
  rfl

theorem outcome_message_of_error {memory : Bytes} {fault : Fault}
    (refused : (reader.find memory).outcome = .error fault) :
    (reader.message memory).outcome = .error fault := by
  rw [outcome_message, refused]
  rfl

theorem outcome_message_of_ok {memory : Bytes} {span : Span}
    (located : (reader.find memory).outcome = .ok span) :
    (reader.message memory).outcome =
      (AppMessage.parse reader.scheme (span.bytes memory)).map (·.shift span.offset) := by
  rw [outcome_message, located]
  simp only [bind, Except.bind]
  cases AppMessage.parse reader.scheme (span.bytes memory) <;> rfl

/-- What is read out of memory is read out of the bytes of its message block. -/
theorem exists_of_message {memory : Bytes} {message : AppMessage}
    (read : (reader.message memory).outcome = .ok message) :
    ∃ location inner, MessageBlock memory location ∧
      AppMessage.parse reader.scheme (location.span.bytes memory) = .ok inner ∧
      message = inner.shift location.offset := by
  cases located : (reader.find memory).outcome with
  | error fault =>
      rw [reader.outcome_message_of_error located] at read
      cases read
  | ok span =>
      obtain ⟨location, block, rfl⟩ := reader.outcome_find_eq_ok_iff.mp located
      rw [reader.outcome_message_of_ok located] at read
      cases parsed : AppMessage.parse reader.scheme (location.span.bytes memory) with
      | error fault =>
          rw [parsed] at read
          cases read
      | ok inner =>
          rw [parsed] at read
          exact ⟨location, inner, block, parsed, (Except.ok.inj read).symm⟩

theorem outcome_bareData (payload : Payload) (ndef : Bytes) :
    (reader.bareData payload ndef).outcome = (do
      let message ← AppMessage.parse reader.scheme ndef
      payload.decode (message.data.payload.bytes ndef)) := by
  simp only [bareData, Traced.bind_eq_andThen, Traced.outcome_andThen, outcome_parse,
    outcome_decode]

/-- **Data is read out of the message block alone**, with the same lines logged. -/
theorem data_eq_find_andThen (payload : Payload) (memory : Bytes) :
    reader.data payload memory =
      (reader.find memory).andThen fun span => reader.bareData payload (span.bytes memory) := by
  simp only [data, message, bareData, Traced.bind_eq_andThen, Traced.andThen_assoc]
  congr 1
  funext span
  apply Traced.andThen_congr
  intro message read
  rw [outcome_parse] at read
  -- The payload is moved into memory and read there.
  have moved := (AppMessage.within_of_parse read).data.payload.bytes_shift
  exact (Traced.lift_ok_andThen _ _).trans (congrArg (reader.decode payload) moved)

theorem outcome_data (payload : Payload) (memory : Bytes) :
    (reader.data payload memory).outcome = (do
      let span ← (reader.find memory).outcome
      (reader.bareData payload (span.bytes memory)).outcome) := by
  rw [data_eq_find_andThen, Traced.outcome_andThen]

theorem outcome_data_of_ok (payload : Payload) {memory : Bytes} {span : Span}
    (located : (reader.find memory).outcome = .ok span) :
    (reader.data payload memory).outcome =
      (reader.bareData payload (span.bytes memory)).outcome := by
  rw [outcome_data, located]
  rfl

theorem outcome_data_of_error (payload : Payload) {memory : Bytes} {fault : Fault}
    (refused : (reader.find memory).outcome = .error fault) :
    (reader.data payload memory).outcome = .error fault := by
  rw [outcome_data, refused]
  rfl

end Reader

end NfcTag
