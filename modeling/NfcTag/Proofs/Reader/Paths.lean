/-
# NfcTag.Proofs.Reader.Paths -- out of memory, or out of the bytes of the block

There are two ways to the data of a tag: reading its whole memory, and reading the
bytes of its message block, which a reader can locate itself or be handed by
others.  They agree on the value and on every fault; the spans of the one are those
of the other, moved (`Within.sameBytes_shift`); and the lines that are logged differ
by the one line of locating.  Logging itself never changes an outcome
(`outcomes_of_scheme`), and is nothing at all unless it is asked for.

Main statement: `reading_paths_agree`, for every memory.
-/
import NfcTag.Proofs.Reader.Outcome

namespace NfcTag

set_option autoImplicit false

namespace Reader

variable (reader : Reader) (payload : Payload) {memory : Bytes} {span : Span}

/-! ## Logging -/

theorem log_of_not_debug (quiet : reader.debug = false) (event : Event) :
    (reader.log event).lines = [] := by
  simp only [log, Traced.log, quiet, Bool.false_eq_true, if_false]

theorem lines_find_of_not_debug (quiet : reader.debug = false) (memory : Bytes) :
    (reader.find memory).lines = [] := by
  unfold find
  split
  · exact Traced.lines_andThen_eq_nil (reader.log_of_not_debug quiet _) fun _ => rfl
  · split
    all_goals exact Traced.lines_andThen_eq_nil (reader.log_of_not_debug quiet _) fun _ => rfl

theorem lines_parse_of_not_debug (quiet : reader.debug = false) (ndef : Bytes) :
    (reader.parse ndef).lines = [] := by
  unfold parse
  split
  all_goals exact Traced.lines_andThen_eq_nil (reader.log_of_not_debug quiet _) fun _ => rfl

theorem lines_message_of_not_debug (quiet : reader.debug = false) (memory : Bytes) :
    (reader.message memory).lines = [] :=
  Traced.lines_andThen_eq_nil (reader.lines_find_of_not_debug quiet memory) fun span =>
    Traced.lines_andThen_eq_nil (reader.lines_parse_of_not_debug quiet (span.bytes memory))
      fun _ => rfl

theorem lines_decode_of_not_debug (quiet : reader.debug = false) (bytes : Bytes) :
    (reader.decode payload bytes).lines = [] :=
  Traced.lines_andThen_eq_nil rfl fun _ =>
    Traced.lines_andThen_eq_nil (reader.log_of_not_debug quiet _) fun _ => rfl

theorem lines_bareData_of_not_debug (quiet : reader.debug = false) (ndef : Bytes) :
    (reader.bareData payload ndef).lines = [] :=
  Traced.lines_andThen_eq_nil (reader.lines_parse_of_not_debug quiet ndef) fun _ =>
    reader.lines_decode_of_not_debug payload quiet _

theorem lines_data_of_not_debug (quiet : reader.debug = false) (memory : Bytes) :
    (reader.data payload memory).lines = [] :=
  Traced.lines_andThen_eq_nil (reader.lines_message_of_not_debug quiet memory) fun _ =>
    reader.lines_decode_of_not_debug payload quiet _

/-- Locating a message logs one line, which says where it is. -/
theorem lines_find_of_ok (located : (reader.find memory).outcome = .ok span) :
    (reader.find memory).lines = if reader.debug then [(Event.located span).line] else [] := by
  obtain ⟨location, block, rfl⟩ := reader.outcome_find_eq_ok_iff.mp located
  simp only [find, block.found, if_neg block.usable]
  exact List.append_nil _

/-! ## Outcomes -/

/-- Where the message is depends on the memory alone. -/
theorem outcome_find_eq (other : Reader) (memory : Bytes) :
    (other.find memory).outcome = (reader.find memory).outcome := by
  by_cases present : ∃ location, MessageBlock memory location
  · obtain ⟨location, block⟩ := present
    rw [reader.outcome_find_of_block block, other.outcome_find_of_block block]
  · have noBlock := not_exists.mp present
    rw [reader.outcome_find_of_not_block noBlock, other.outcome_find_of_not_block noBlock]

/-- Readers of one scheme read alike, whether they log or not. -/
structure SameOutcomes (reader other : Reader) (payload : Payload) (memory : Bytes) : Prop where
  find : (other.find memory).outcome = (reader.find memory).outcome
  message : (other.message memory).outcome = (reader.message memory).outcome
  data : (other.data payload memory).outcome = (reader.data payload memory).outcome
  bareData : ∀ ndef,
    (other.bareData payload ndef).outcome = (reader.bareData payload ndef).outcome

theorem outcomes_of_scheme {other : Reader} (same : other.scheme = reader.scheme)
    (memory : Bytes) : reader.SameOutcomes other payload memory where
  find := reader.outcome_find_eq other memory
  message := by rw [outcome_message, outcome_message, reader.outcome_find_eq other, same]
  data := by
    simp only [outcome_data, outcome_bareData, reader.outcome_find_eq other, same]
  bareData ndef := by rw [outcome_bareData, outcome_bareData, same]

/-! ## The two ways -/

/-- With a message at `span`, reading the memory and reading the bytes of the span are
the same. -/
structure AgreesAt (memory : Bytes) (span : Span) : Prop where
  data : (reader.data payload memory).outcome =
    (reader.bareData payload (span.bytes memory)).outcome
  messageFault : ∀ fault, AppMessage.parse reader.scheme (span.bytes memory) = .error fault →
    (reader.message memory).outcome = .error fault
  message : ∀ inner, AppMessage.parse reader.scheme (span.bytes memory) = .ok inner →
    ∃ message, (reader.message memory).outcome = .ok message ∧ message.size = inner.size ∧
      message.data.SameBytes memory inner.data (span.bytes memory) ∧
      message.metadata.SameBytes memory inner.metadata (span.bytes memory)
  lines : (reader.data payload memory).lines =
    (reader.find memory).lines ++ (reader.bareData payload (span.bytes memory)).lines
  locateLine : reader.debug = true → (reader.find memory).lines = [(Event.located span).line]

/-- Both ways to the data of `memory`, with and without a log. -/
structure PathsAgree (memory : Bytes) : Prop where
  refused : ∀ fault, (reader.find memory).outcome = .error fault →
    (reader.message memory).outcome = .error fault ∧
      (reader.data payload memory).outcome = .error fault
  located : ∀ span, (reader.find memory).outcome = .ok span →
    reader.AgreesAt payload memory span
  quiet : reader.debug = false →
    (reader.find memory).lines = [] ∧ (reader.message memory).lines = [] ∧
      (reader.data payload memory).lines = [] ∧
      ∀ ndef, (reader.bareData payload ndef).lines = []
  logless : ∀ other : Reader, other.scheme = reader.scheme →
    reader.SameOutcomes other payload memory

theorem agreesAt (located : (reader.find memory).outcome = .ok span) :
    reader.AgreesAt payload memory span where
  data := reader.outcome_data_of_ok payload located
  messageFault fault refused := by
    rw [reader.outcome_message_of_ok located, refused]
    rfl
  message inner read := by
    have within := AppMessage.within_of_parse read
    refine ⟨inner.shift span.offset, ?_, rfl, within.data.sameBytes_shift,
      within.metadata.sameBytes_shift⟩
    rw [reader.outcome_message_of_ok located, read]
    rfl
  lines := by rw [data_eq_find_andThen, Traced.lines_andThen_of_ok located]
  locateLine debug := by rw [reader.lines_find_of_ok located, if_pos debug]

/-- **Both ways to the data agree**: without a message block both have its fault, and
with one they have the same value or fault, the same bytes in every span and, apart
from the line of locating, the same log.  The log decides nothing. -/
theorem reading_paths_agree (memory : Bytes) : reader.PathsAgree payload memory where
  refused _ refused :=
    ⟨reader.outcome_message_of_error refused, reader.outcome_data_of_error payload refused⟩
  located _ located := reader.agreesAt payload located
  quiet quiet :=
    ⟨reader.lines_find_of_not_debug quiet memory, reader.lines_message_of_not_debug quiet memory,
      reader.lines_data_of_not_debug payload quiet memory,
      reader.lines_bareData_of_not_debug payload quiet⟩
  logless _ same := reader.outcomes_of_scheme payload same memory

end Reader

end NfcTag
