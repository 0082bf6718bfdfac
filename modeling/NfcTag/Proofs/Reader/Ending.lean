/-
# NfcTag.Proofs.Reader.Ending -- how reading data out of a memory ends

Seven ways, decided one stage after the other: is there a message block, does a
whole record stand at its front, is it the application's own, does another whole
record follow inside the block, is that one the application's own, and has the
data the length that the payload asks for.  `DataEnds` states the condition of
each way on the bytes of the memory alone.

Main statement: `data_ends_in_one_way`.  Exactly one way is open for every memory
whatever, it is the one that is taken, and its fault is always one of tag
contents, never one of an argument out of range.
-/
import NfcTag.Proofs.Payload
import NfcTag.Proofs.Reader.Outcome

namespace NfcTag

set_option autoImplicit false

/-- The ways in which reading data ends. -/
inductive DataEnding where
  | noMessage
  | dataCut
  | dataType
  | metadataCut
  | metadataType
  | wrongLength
  | value
  deriving Repr, DecidableEq

/-- The status that each way is reported with. -/
def DataEnding.status? : DataEnding → Option Status
  | noMessage => some .noMessage
  | dataCut | metadataCut => some .truncated
  | dataType | metadataType => some .wrongType
  | wrongLength => some .wrongLength
  | value => none

open Record in
/-- The condition of each way and its outcome.  Every stage but the first takes
the bytes of the message block for granted, and every stage behind the data
record takes that record for granted. -/
inductive DataEnds (scheme : String) (payload : Payload) (memory : Bytes) :
    DataEnding → Except Fault (Row payload.schema.wire) → Prop where
  | noMessage
      (unusable : ∀ location, Tlv.findByte? memory Tlv.ndefMessage = some location →
        location.length = 0 ∨ memory.length < location.span.stop) :
      DataEnds scheme payload memory .noMessage (.error .noMessage)
  | dataCut {location : Tlv.Location} {fault : Fault}
      (block : MessageBlock memory location)
      (cut : Cut (location.span.bytes memory) fault) :
      DataEnds scheme payload memory .dataCut (.error fault)
  | dataType {location : Tlv.Location} {data : Layout} {rest : Bytes}
      (block : MessageBlock memory location)
      (ndef : location.span.bytes memory = data.bytes ++ rest)
      (other : ¬ data.Own scheme) :
      DataEnds scheme payload memory .dataType (.error .dataType)
  | metadataCut {location : Tlv.Location} {data : Layout} {rest : Bytes} {fault : Fault}
      (block : MessageBlock memory location)
      (ndef : location.span.bytes memory = data.bytes ++ rest)
      (own : data.Own scheme)
      (cut : Cut rest fault) :
      DataEnds scheme payload memory .metadataCut (.error fault)
  | metadataType {location : Tlv.Location} {data metadata : Layout} {rest : Bytes}
      (block : MessageBlock memory location)
      (ndef : location.span.bytes memory = data.bytes ++ (metadata.bytes ++ rest))
      (own : data.Own scheme)
      (other : ¬ metadata.Own scheme) :
      DataEnds scheme payload memory .metadataType (.error .metadataType)
  | wrongLength {location : Tlv.Location} {data metadata : Layout} {rest : Bytes}
      (block : MessageBlock memory location)
      (ndef : location.span.bytes memory = data.bytes ++ (metadata.bytes ++ rest))
      (own : data.Own scheme)
      (metadataOwn : metadata.Own scheme)
      (wrong : data.payload.length ≠ payload.size) :
      DataEnds scheme payload memory .wrongLength
        (.error (.payloadLength payload.name payload.size data.payload.length))
  | value {location : Tlv.Location} {data metadata : Layout} {rest : Bytes}
      {row : Row payload.schema.wire}
      (block : MessageBlock memory location)
      (ndef : location.span.bytes memory = data.bytes ++ (metadata.bytes ++ rest))
      (own : data.Own scheme)
      (metadataOwn : metadata.Own scheme)
      (right : data.payload.length = payload.size)
      (cells : row.cells = Cell.decodeAll payload.schema.wire data.payload) :
      DataEnds scheme payload memory .value (.ok row)

namespace Reader

open Record

variable (reader : Reader) (payload : Payload)

/-! ## Outcomes stage by stage -/

theorem outcome_data_of_block {memory : Bytes} {location : Tlv.Location}
    (block : MessageBlock memory location) :
    (reader.data payload memory).outcome =
      (reader.bareData payload (location.span.bytes memory)).outcome :=
  reader.outcome_data_of_ok payload (reader.outcome_find_of_block block)

theorem outcome_bareData_of_error {ndef : Bytes} {fault : Fault}
    (refused : AppMessage.parse reader.scheme ndef = .error fault) :
    (reader.bareData payload ndef).outcome = .error fault := by
  rw [outcome_bareData, refused]
  rfl

theorem outcome_bareData_of_layouts {data metadata : Layout} (own : data.Own reader.scheme)
    (metadataOwn : metadata.Own reader.scheme) (rest : Bytes) :
    (reader.bareData payload (data.bytes ++ (metadata.bytes ++ rest))).outcome =
      payload.decode data.payload := by
  have held := data.holds_payload (metadata.bytes ++ rest)
  rw [outcome_bareData, AppMessage.parse_layouts own metadataOwn, ← held.bytes_eq]
  rfl

/-- Every way that is open is the one that is taken. -/
theorem outcome_eq_of_ends {memory : Bytes} {way : DataEnding}
    {outcome : Except Fault (Row payload.schema.wire)}
    (ends : DataEnds reader.scheme payload memory way outcome) :
    (reader.data payload memory).outcome = outcome := by
  cases ends with
  | noMessage unusable =>
      have noBlock : ∀ location, ¬ MessageBlock memory location :=
        fun location block => block.usable (unusable location block.found)
      exact reader.outcome_data_of_error payload (reader.outcome_find_of_not_block noBlock)
  | dataCut block cut =>
      rw [outcome_data_of_block reader payload block]
      exact reader.outcome_bareData_of_error payload (AppMessage.parse_cut cut)
  | dataType block ndef other =>
      rw [outcome_data_of_block reader payload block, ndef]
      exact reader.outcome_bareData_of_error payload (AppMessage.parse_other other _)
  | metadataCut block ndef own cut =>
      rw [outcome_data_of_block reader payload block, ndef]
      exact reader.outcome_bareData_of_error payload (AppMessage.parse_metadata_cut own cut)
  | metadataType block ndef own other =>
      rw [outcome_data_of_block reader payload block, ndef]
      exact reader.outcome_bareData_of_error payload (AppMessage.parse_metadata_other own other _)
  | wrongLength block ndef own metadataOwn wrong =>
      rw [outcome_data_of_block reader payload block, ndef,
        reader.outcome_bareData_of_layouts payload own metadataOwn,
        Payload.decode_of_length_ne wrong]
  | @value _ _ _ _ row block ndef own metadataOwn right cells =>
      rw [outcome_data_of_block reader payload block, ndef,
        reader.outcome_bareData_of_layouts payload own metadataOwn,
        Payload.decode_of_length right, Except.ok.injEq, Row.mk.injEq, cells]

/-! ## The ways -/

variable (scheme : String)

/-- Some way is open for every memory. -/
theorem exists_ends (memory : Bytes) : ∃ way outcome, DataEnds scheme payload memory way outcome := by
  by_cases usable : ∃ location, MessageBlock memory location
  · obtain ⟨location, block⟩ := usable
    obtain ⟨outcome, reading⟩ := AppMessage.exists_reading scheme (location.span.bytes memory)
    cases reading with
    | dataCut cut => exact ⟨_, _, .dataCut block cut⟩
    | dataOther split other => exact ⟨_, _, .dataType block split other⟩
    | metadataCut split own cut => exact ⟨_, _, .metadataCut block split own cut⟩
    | metadataOther split own other => exact ⟨_, _, .metadataType block split own other⟩
    | @whole data _ _ split own metadataOwn =>
        by_cases right : data.payload.length = payload.size
        · exact ⟨_, .ok ⟨_, Cell.map_column_decodeAll _ _⟩,
            .value block split own metadataOwn right rfl⟩
        · exact ⟨_, _, .wrongLength block split own metadataOwn right⟩
  · refine ⟨_, _, .noMessage fun location found => ?_⟩
    exact MessageBlock.unusable_of_not found (not_exists.mp usable location)

/-- A memory that is cut at the data record is not cut at the metadata record. -/
theorem not_cut_of_layout {memory : Bytes} {first second : Tlv.Location} {fault : Fault}
    {data : Layout} {rest : Bytes} (firstBlock : MessageBlock memory first)
    (cut : Cut (first.span.bytes memory) fault) (secondBlock : MessageBlock memory second)
    (ndef : second.span.bytes memory = data.bytes ++ rest) : False := by
  obtain rfl := firstBlock.unique secondBlock
  exact cut.incomplete data ⟨rest, ndef.symm⟩

/-- Two ways that are open have different outcomes: the cuts are told apart by
the memory, all others by their faults. -/
theorem ending_unique {memory : Bytes} {first second : DataEnding}
    {outcome outcome' : Except Fault (Row payload.schema.wire)}
    (one : DataEnds scheme payload memory first outcome)
    (other : DataEnds scheme payload memory second outcome') (same : outcome = outcome') :
    first = second := by
  cases one with
  | dataCut firstBlock cut =>
      have status := cut.status
      cases other with
      | dataCut => rfl
      | metadataCut secondBlock ndef => exact (not_cut_of_layout firstBlock cut secondBlock ndef).elim
      | value => cases same
      | _ => cases same; cases status
  | metadataCut firstBlock ndef own cut =>
      have status := cut.status
      cases other with
      | dataCut secondBlock cut => exact (not_cut_of_layout secondBlock cut firstBlock ndef).elim
      | metadataCut => rfl
      | value => cases same
      | _ => cases same; cases status
  | value =>
      cases other with
      | value => rfl
      | _ => cases same
  | _ =>
      cases other with
      | dataCut _ cut => cases same; cases cut.status
      | metadataCut _ _ _ cut => cases same; cases cut.status
      | _ => first | rfl | cases same

/-- The fault of every way is one of tag contents, and has the status of the way. -/
theorem status_of_ends {memory : Bytes} {way : DataEnding} {fault : Fault}
    (ends : DataEnds scheme payload memory way (.error fault)) :
    ∃ status, way.status? = some status ∧ fault.status? = some status := by
  cases ends with
  | dataCut _ cut => exact ⟨.truncated, rfl, cut.status⟩
  | metadataCut _ _ _ cut => exact ⟨.truncated, rfl, cut.status⟩
  | _ => exact ⟨_, rfl, rfl⟩

/-- **Reading data out of any memory ends in exactly one way**, and is only ever
refused with the status of that way. -/
theorem data_ends_in_one_way (memory : Bytes) :
    ∃ way, DataEnds reader.scheme payload memory way (reader.data payload memory).outcome ∧
      (∀ other outcome, DataEnds reader.scheme payload memory other outcome →
        other = way ∧ outcome = (reader.data payload memory).outcome) ∧
      ∀ fault, (reader.data payload memory).outcome = .error fault →
        ∃ status, way.status? = some status ∧ fault.report = .tag status.code fault.message := by
  obtain ⟨way, outcome, ends⟩ := exists_ends payload reader.scheme memory
  have taken := reader.outcome_eq_of_ends payload ends
  subst taken
  refine ⟨way, ends, ?_, ?_⟩
  · intro other outcome reached
    have same := (reader.outcome_eq_of_ends payload reached).symm
    exact ⟨ending_unique payload reader.scheme reached ends same, same⟩
  · intro fault refused
    rw [refused] at ends
    obtain ⟨status, expected, known⟩ := status_of_ends payload reader.scheme ends
    refine ⟨status, expected, ?_⟩
    rw [Fault.report, known]

end Reader

end NfcTag
