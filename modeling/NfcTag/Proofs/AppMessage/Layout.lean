/-
# NfcTag.Proofs.AppMessage.Layout -- the grammar of an application message

An application message is two records back to back that are the application's
own (`Record.Layout.Own`), with anything behind them.  Reading one is decided
stage by stage, and each stage has its lemma here: the first record is cut, is
of another kind, or passes; then the same for the second, of which nothing is
looked at before the first has passed.  `Reading` puts the stages together for all
bytes, and `parse_eq_ok_iff` for the messages that are read.
-/
import NfcTag.AppMessage
import NfcTag.Proofs.Record.Layout

namespace NfcTag

set_option autoImplicit false

/-- The record is one of the application's: it has an absolute URI as type that
starts with the scheme. -/
def Record.Layout.Own (layout : Record.Layout) (scheme : String) : Prop :=
  layout.flags.tnf = .absoluteUri ∧ Utf8.encode scheme <+: layout.type

namespace AppMessage

open Record

variable (scheme : String) (front : Bytes)

/-! ## One record -/

theorem accepts_eq_true_iff (buf : Bytes) (record : Record) :
    accepts scheme buf record = true ↔
      record.tnf = .absoluteUri ∧ Utf8.encode scheme <+: record.type.bytes buf := by
  rw [accepts, Bool.and_eq_true, decide_eq_true_eq, List.isPrefixOf_iff_prefix]

theorem accepts_layout_iff (layout : Layout) (rest : Bytes) :
    accepts scheme (front ++ (layout.bytes ++ rest)) (layout.parsed.record.shift front.length) =
      true ↔ layout.Own scheme := by
  have type := (layout.holds_type rest).shift front []
  rw [List.append_nil] at type
  rw [accepts_eq_true_iff, Record.shift, type.bytes_eq]
  rfl

theorem recordAt_cut {bytes : Bytes} {fault : Fault} (cut : Cut bytes fault) (otherKind : Fault) :
    recordAt scheme (front ++ bytes) front.length otherKind = .error fault := by
  rw [recordAt, parse_append, readFront_eq_error_iff.mpr cut]
  rfl

theorem recordAt_layout (layout : Layout) (rest : Bytes) (otherKind : Fault) :
    recordAt scheme (front ++ (layout.bytes ++ rest)) front.length otherKind =
      if accepts scheme (front ++ (layout.bytes ++ rest)) (layout.parsed.record.shift front.length)
      then .ok (layout.parsed.shift front.length) else .error otherKind := by
  rw [recordAt, parse_append, readFront_bytes_append]
  rfl

variable {scheme}

theorem recordAt_own {layout : Layout} (own : layout.Own scheme) (rest : Bytes)
    (otherKind : Fault) :
    recordAt scheme (front ++ (layout.bytes ++ rest)) front.length otherKind =
      .ok (layout.parsed.shift front.length) := by
  rw [recordAt_layout, if_pos ((accepts_layout_iff scheme front layout rest).mpr own)]

theorem recordAt_other {layout : Layout} (other : ¬ layout.Own scheme) (rest : Bytes)
    (otherKind : Fault) :
    recordAt scheme (front ++ (layout.bytes ++ rest)) front.length otherKind =
      .error otherKind := by
  rw [recordAt_layout, if_neg (mt (accepts_layout_iff scheme front layout rest).mp other)]

/-! ## Two records -/

/-- The message that two records back to back are read as. -/
def ofLayouts (data metadata : Layout) : AppMessage where
  data := data.parsed.record
  metadata := metadata.parsed.record.shift data.parsed.size
  size := data.parsed.size + metadata.parsed.size

theorem tnf_ofLayouts {data metadata : Layout} (dataOwn : data.Own scheme)
    (metadataOwn : metadata.Own scheme) :
    (ofLayouts data metadata).data.tnf = .absoluteUri ∧
      (ofLayouts data metadata).metadata.tnf = .absoluteUri :=
  ⟨dataOwn.1, metadataOwn.1⟩

theorem parse_cut {bytes : Bytes} {fault : Fault} (cut : Cut bytes fault) :
    parse scheme bytes = .error fault := by
  rw [parse, show recordAt scheme bytes 0 .dataType = .error fault from
    recordAt_cut scheme [] cut .dataType]
  rfl

theorem parse_other {data : Layout} (other : ¬ data.Own scheme) (rest : Bytes) :
    parse scheme (data.bytes ++ rest) = .error .dataType := by
  rw [parse, show recordAt scheme (data.bytes ++ rest) 0 .dataType = .error .dataType from
    recordAt_other [] other rest .dataType]
  rfl

/-- Once the data record has passed, the metadata record decides. -/
theorem parse_own {data : Layout} (own : data.Own scheme) (rest : Bytes) :
    parse scheme (data.bytes ++ rest) =
      (recordAt scheme (data.bytes ++ rest) data.bytes.length .metadataType).map fun metadata =>
        ⟨data.parsed.record, metadata.record, data.parsed.size + metadata.size⟩ := by
  have first : recordAt scheme (data.bytes ++ rest) 0 .dataType = .ok data.parsed := by
    rw [← data.parsed.shift_zero]
    exact recordAt_own [] own rest .dataType
  simp only [parse, first, data.length_bytes, bind, Except.bind]
  cases recordAt scheme (data.bytes ++ rest) data.parsed.size .metadataType <;> rfl

theorem parse_metadata_cut {data : Layout} (own : data.Own scheme) {rest : Bytes} {fault : Fault}
    (cut : Cut rest fault) : parse scheme (data.bytes ++ rest) = .error fault := by
  rw [parse_own own, recordAt_cut scheme data.bytes cut]
  rfl

theorem parse_metadata_other {data metadata : Layout} (own : data.Own scheme)
    (other : ¬ metadata.Own scheme) (rest : Bytes) :
    parse scheme (data.bytes ++ (metadata.bytes ++ rest)) = .error .metadataType := by
  rw [parse_own own, recordAt_other data.bytes other]
  rfl

theorem parse_layouts {data metadata : Layout} (dataOwn : data.Own scheme)
    (metadataOwn : metadata.Own scheme) (rest : Bytes) :
    parse scheme (data.bytes ++ (metadata.bytes ++ rest)) = .ok (ofLayouts data metadata) := by
  rw [parse_own dataOwn, recordAt_own data.bytes metadataOwn, data.length_bytes]
  rfl

/-- Of two records, both must be the application's own. -/
theorem parse_layouts_eq_ok_iff {data metadata : Layout} {rest : Bytes} {message : AppMessage} :
    parse scheme (data.bytes ++ (metadata.bytes ++ rest)) = .ok message ↔
      data.Own scheme ∧ metadata.Own scheme ∧ message = ofLayouts data metadata := by
  constructor
  · intro read
    by_cases dataOwn : data.Own scheme
    · by_cases metadataOwn : metadata.Own scheme
      · rw [parse_layouts dataOwn metadataOwn, Except.ok.injEq] at read
        exact ⟨dataOwn, metadataOwn, read.symm⟩
      · rw [parse_metadata_other dataOwn metadataOwn] at read
        cases read
    · rw [parse_other dataOwn] at read
      cases read
  · rintro ⟨dataOwn, metadataOwn, rfl⟩
    exact parse_layouts dataOwn metadataOwn rest

/-! ## How reading ends -/

/-- The ways in which reading a message ends, stage by stage. -/
inductive Reading (scheme : String) (bytes : Bytes) : Except Fault AppMessage → Prop where
  | dataCut {fault : Fault} (cut : Cut bytes fault) : Reading scheme bytes (.error fault)
  | dataOther {data : Layout} {rest : Bytes} (split : bytes = data.bytes ++ rest)
      (other : ¬ data.Own scheme) : Reading scheme bytes (.error .dataType)
  | metadataCut {data : Layout} {rest : Bytes} {fault : Fault} (split : bytes = data.bytes ++ rest)
      (own : data.Own scheme) (cut : Cut rest fault) : Reading scheme bytes (.error fault)
  | metadataOther {data metadata : Layout} {rest : Bytes}
      (split : bytes = data.bytes ++ (metadata.bytes ++ rest)) (own : data.Own scheme)
      (other : ¬ metadata.Own scheme) : Reading scheme bytes (.error .metadataType)
  | whole {data metadata : Layout} {rest : Bytes}
      (split : bytes = data.bytes ++ (metadata.bytes ++ rest)) (own : data.Own scheme)
      (metadataOwn : metadata.Own scheme) : Reading scheme bytes (.ok (ofLayouts data metadata))

theorem exists_reading (scheme : String) (bytes : Bytes) :
    ∃ outcome, Reading scheme bytes outcome := by
  obtain ⟨data, rest, split⟩ | ⟨fault, cut⟩ := exists_layout_or_cut bytes
  · by_cases own : data.Own scheme
    · obtain ⟨metadata, rest, rfl⟩ | ⟨fault, cut⟩ := exists_layout_or_cut rest
      · by_cases metadataOwn : metadata.Own scheme
        · exact ⟨_, .whole split own metadataOwn⟩
        · exact ⟨_, .metadataOther split own metadataOwn⟩
      · exact ⟨_, .metadataCut split own cut⟩
    · exact ⟨_, .dataOther split own⟩
  · exact ⟨_, .dataCut cut⟩

theorem Reading.parse_eq {bytes : Bytes} {outcome : Except Fault AppMessage}
    (reading : Reading scheme bytes outcome) : parse scheme bytes = outcome := by
  cases reading with
  | dataCut cut => exact parse_cut cut
  | dataOther split other => rw [split, parse_other other]
  | metadataCut split own cut => rw [split, parse_metadata_cut own cut]
  | metadataOther split own other => rw [split, parse_metadata_other own other]
  | whole split own metadataOwn => rw [split, parse_layouts own metadataOwn]

theorem reading_of_parse {bytes : Bytes} {outcome : Except Fault AppMessage}
    (read : parse scheme bytes = outcome) : Reading scheme bytes outcome := by
  obtain ⟨other, reading⟩ := exists_reading scheme bytes
  rwa [← read, reading.parse_eq]

/-- A message is read exactly where two records of the application stand. -/
theorem parse_eq_ok_iff {bytes : Bytes} {message : AppMessage} :
    parse scheme bytes = .ok message ↔
      ∃ data metadata : Layout, data.Own scheme ∧ metadata.Own scheme ∧
        data.bytes ++ metadata.bytes <+: bytes ∧ message = ofLayouts data metadata := by
  constructor
  · intro read
    cases reading_of_parse read with
    | @whole data metadata rest split own metadataOwn =>
        refine ⟨data, metadata, own, metadataOwn, ⟨rest, ?_⟩, rfl⟩
        rw [split, List.append_assoc]
  · rintro ⟨data, metadata, own, metadataOwn, ⟨rest, rfl⟩, rfl⟩
    rw [List.append_assoc, parse_layouts own metadataOwn]

/-! ## Where its records lie -/

/-- Every span of both records lies inside another one. -/
structure Within (message : AppMessage) (outer : Span) : Prop where
  data : message.data.Within outer
  metadata : message.metadata.Within outer

theorem Within.mono {message : AppMessage} {inner outer : Span} (within : message.Within inner)
    (inside : inner.Within outer) : message.Within outer :=
  ⟨within.data.mono inside, within.metadata.mono inside⟩

theorem Within.shift {message : AppMessage} {outer : Span} (within : message.Within outer)
    (amount : Nat) : (message.shift amount).Within (outer.shift amount) :=
  ⟨within.data.shift amount, within.metadata.shift amount⟩

theorem within_ofLayouts (data metadata : Layout) :
    (ofLayouts data metadata).Within ⟨0, (ofLayouts data metadata).size⟩ where
  data := data.within.mono ⟨Nat.le_refl 0, by
    simp only [Span.stop, ofLayouts]
    omega⟩
  metadata := (metadata.within.shift data.parsed.size).mono ⟨Nat.zero_le _, by
    simp only [Span.stop, Span.shift, ofLayouts]
    omega⟩

/-- A message that is read takes no more bytes than there are. -/
theorem size_le_of_parse {bytes : Bytes} {message : AppMessage}
    (read : parse scheme bytes = .ok message) : message.size ≤ bytes.length := by
  obtain ⟨data, metadata, -, -, ⟨rest, rfl⟩, rfl⟩ := parse_eq_ok_iff.mp read
  simp only [ofLayouts, List.length_append, Layout.length_bytes]
  omega

theorem within_of_parse {bytes : Bytes} {message : AppMessage}
    (read : parse scheme bytes = .ok message) : message.Within ⟨0, bytes.length⟩ := by
  have short := size_le_of_parse read
  obtain ⟨data, metadata, -, -, -, rfl⟩ := parse_eq_ok_iff.mp read
  exact (within_ofLayouts data metadata).mono ⟨Nat.le_refl 0, by
    simp only [Span.stop]
    omega⟩

end AppMessage

end NfcTag
