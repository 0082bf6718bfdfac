/-
# NfcTag.Proofs.Reader.Confinement -- nothing behind the message is read

A reader that has located a message has looked at no byte behind it.  Whatever
follows the block (`MessageBlock.of_agree`), locating and reading give the same;
in memory that ends earlier there is no message (`not_block_of_cut`); and the
records that are read lie inside the block.  So a record that declares more than
the block holds is refused even when memory goes on behind it.

Main statement: `reads_located_block_only`.
-/
import NfcTag.Proofs.Reader.Outcome
import NfcTag.Proofs.Tlv.Cut

namespace NfcTag

set_option autoImplicit false

/-- The bytes of a span are the same in all buffers that agree up to its end. -/
theorem Span.bytes_take_stop (span : Span) (buf : Bytes) :
    span.bytes (buf.take span.stop) = span.bytes buf := by
  rw [bytes, bytes, List.drop_take, stop, Nat.add_sub_cancel_left, List.take_take, Nat.min_self]

namespace MessageBlock

variable {memory : Bytes} {location : Tlv.Location}

/-! ## The block in other memories -/

theorem take_eq_of_agree (block : MessageBlock memory location) {other : Bytes}
    (agree : memory.take location.span.stop <+: other) :
    memory.take location.span.stop = other.take location.span.stop := by
  have cut := List.prefix_iff_eq_take.mp agree
  rwa [List.length_take_of_le block.whole] at cut

/-- The block stands in every memory that starts with the bytes up to its end. -/
theorem of_agree (block : MessageBlock memory location) {other : Bytes}
    (agree : memory.take location.span.stop <+: other) : MessageBlock other location where
  found := by
    apply Tlv.findByte?_of_take (k := location.span.stop)
    rw [← block.take_eq_of_agree agree, Tlv.findByte?_take, block.found]
    exact Option.filter_some_pos (decide_eq_true (Nat.le_add_right _ _))
  nonempty := block.nonempty
  whole := by
    have short := agree.length_le
    rwa [List.length_take_of_le block.whole] at short

theorem bytes_eq_of_agree (block : MessageBlock memory location) {other : Bytes}
    (agree : memory.take location.span.stop <+: other) :
    location.span.bytes other = location.span.bytes memory := by
  rw [← Span.bytes_take_stop, ← block.take_eq_of_agree agree, Span.bytes_take_stop]

/-- In memory that ends before the block does, no other block takes its place. -/
theorem not_block_of_cut (block : MessageBlock memory location) {front : Bytes}
    (cut : front <+: memory) (short : front.length < location.span.stop)
    (other : Tlv.Location) : ¬ MessageBlock front other := by
  intro shown
  have found := shown.found
  rw [List.prefix_iff_eq_take.mp cut] at found
  have same : some other = some location :=
    (Tlv.findByte?_of_take found).symm.trans block.found
  obtain rfl := Option.some.inj same
  exact Nat.not_lt.mpr shown.whole short

end MessageBlock

namespace Reader

variable (reader : Reader) {memory : Bytes} {location : Tlv.Location}

/-! ## The reader on both sides of the end -/

theorem outcomes_of_agree (block : MessageBlock memory location) {other : Bytes}
    (agree : memory.take location.span.stop <+: other) :
    (reader.find other).outcome = (reader.find memory).outcome ∧
      (reader.message other).outcome = (reader.message memory).outcome ∧
      ∀ payload, (reader.data payload other).outcome = (reader.data payload memory).outcome := by
  have here := reader.outcome_find_of_block block
  have there := reader.outcome_find_of_block (block.of_agree agree)
  have same := block.bytes_eq_of_agree agree
  refine ⟨there.trans here.symm, ?_, fun payload => ?_⟩
  · rw [reader.outcome_message_of_ok there, reader.outcome_message_of_ok here, same]
  · rw [reader.outcome_data_of_ok payload there, reader.outcome_data_of_ok payload here, same]

theorem within_of_message (block : MessageBlock memory location) {message : AppMessage}
    (read : (reader.message memory).outcome = .ok message) :
    message.Within location.span ∧ message.size ≤ location.length := by
  obtain ⟨other, inner, otherBlock, parsed, rfl⟩ := reader.exists_of_message read
  obtain rfl := block.unique otherBlock
  have within := (AppMessage.within_of_parse parsed).shift other.span.offset
  have short := AppMessage.size_le_of_parse parsed
  rw [block.length_bytes] at within short
  refine ⟨within.mono ⟨?_, ?_⟩, short⟩ <;>
    simp only [Span.shift, Span.stop, Tlv.Location.span] <;> omega

/-- A data record that declares more than the block holds is refused. -/
theorem outcome_message_of_short_data (block : MessageBlock memory location)
    {header : Record.Header} (fits : header.Fits)
    (stands : header.encode <+: location.span.bytes memory)
    (short : location.length < header.recordSize) :
    (reader.message memory).outcome = .error (.recordCut header.recordSize location.length) := by
  have cut := Record.readFront_of_short fits stands (by rwa [block.length_bytes])
  rw [block.length_bytes, Record.readFront_eq_error_iff] at cut
  rw [outcome_message, reader.outcome_find_of_block block]
  simp only [bind, Except.bind, AppMessage.parse_cut cut]

/-- A metadata record that declares more than the block holds is refused. -/
theorem outcome_message_of_short_metadata (block : MessageBlock memory location)
    {data : Record.Layout} (own : data.Own reader.scheme) {rest : Bytes}
    (ndef : location.span.bytes memory = data.bytes ++ rest)
    {header : Record.Header} (fits : header.Fits) (stands : header.encode <+: rest)
    (short : rest.length < header.recordSize) :
    (reader.message memory).outcome = .error (.recordCut header.recordSize rest.length) := by
  have cut := Record.readFront_eq_error_iff.mp (Record.readFront_of_short fits stands short)
  rw [outcome_message, reader.outcome_find_of_block block]
  simp only [bind, Except.bind, ndef, AppMessage.parse_metadata_cut own cut]

/-- What is read out of `memory` depends on the bytes up to the end of `span`, needs
all of them, and comes from inside it. -/
structure ConfinedTo (memory : Bytes) (span : Span) : Prop where
  agree : ∀ (reader : Reader) (other : Bytes), memory.take span.stop <+: other →
    (reader.find other).outcome = (reader.find memory).outcome ∧
      (reader.message other).outcome = (reader.message memory).outcome ∧
      ∀ payload, (reader.data payload other).outcome = (reader.data payload memory).outcome
  cut : ∀ (reader : Reader) (front : Bytes), front <+: memory → front.length < span.stop →
    (reader.find front).outcome = .error .noMessage
  within : ∀ (reader : Reader) (message : AppMessage),
    (reader.message memory).outcome = .ok message →
      message.Within span ∧ message.size ≤ span.length
  shortData : ∀ (reader : Reader) (header : Record.Header), header.Fits →
    header.encode <+: span.bytes memory → span.length < header.recordSize →
      (reader.message memory).outcome = .error (.recordCut header.recordSize span.length)
  shortMetadata : ∀ (reader : Reader) (data : Record.Layout) (rest : Bytes)
    (header : Record.Header), data.Own reader.scheme → span.bytes memory = data.bytes ++ rest →
      header.Fits → header.encode <+: rest → rest.length < header.recordSize →
      (reader.message memory).outcome = .error (.recordCut header.recordSize rest.length)

/-- **Only the located block is read.**  Memories that agree up to its end read
alike; memory that ends earlier has no message; the records lie inside it, and one
that declares more is refused. -/
theorem reads_located_block_only {locator : Reader} {memory : Bytes} {span : Span}
    (located : (locator.find memory).outcome = .ok span) : ConfinedTo memory span := by
  obtain ⟨location, block, rfl⟩ := locator.outcome_find_eq_ok_iff.mp located
  constructor
  case agree => exact fun reader other => reader.outcomes_of_agree block
  case cut =>
    intro reader front cut short
    exact reader.outcome_find_of_not_block (block.not_block_of_cut cut short)
  case within => exact fun reader message => reader.within_of_message block
  case shortData => exact fun reader header => reader.outcome_message_of_short_data block
  case shortMetadata =>
    intro reader data rest header own ndef fits stands short
    exact reader.outcome_message_of_short_metadata block own ndef fits stands short

/-- A record of more bytes than its block has, in a memory that goes on behind it. -/
theorem reads_located_block_only_overlong :
    (find ⟨"", false⟩ [0x03, 0x05, 0xd3, 0x01, 0x04, 0x68, 0x2a, 0x2a, 0x2a, 0x2a]).outcome =
        .ok ⟨2, 5⟩ ∧
      ConfinedTo [0x03, 0x05, 0xd3, 0x01, 0x04, 0x68, 0x2a, 0x2a, 0x2a, 0x2a] ⟨2, 5⟩ :=
  have located : (find ⟨"", false⟩
      [0x03, 0x05, 0xd3, 0x01, 0x04, 0x68, 0x2a, 0x2a, 0x2a, 0x2a]).outcome = .ok ⟨2, 5⟩ := rfl
  ⟨located, reads_located_block_only located⟩

end Reader

end NfcTag
