/-
# NfcTag.Proofs.Record.Reencode -- writing a record that was read

A record in a buffer may be written in several ways: with four bytes for a payload
length that fits one, with an id length of zero, and with a chunk flag that says
nothing about its contents.  Written again it has none of these
(`Layout.canonical`), and it takes as many bytes less as the first two cost.

Main statement: `reencoding_is_canonical`, which also says which records are written
as the bytes that they were read from.
-/
import NfcTag.Proofs.Number.Exact
import NfcTag.Proofs.Record.RoundTrip

namespace NfcTag

set_option autoImplicit false

theorem Tnf.ofNumber_code (tnf : Tnf) : ofNumber (Binary64.ofInt tnf.code) = tnf := by
  have small := tnf.code_lt
  have low : ((tnf.code : Int) % 8).toNat = tnf.code := by omega
  rw [ofNumber, Binary64.truncate_ofInt (by omega), low, ofCode_code]

namespace Record

/-- What the record in a buffer is made of. -/
def contents (record : Record) (buf : Bytes) : Contents where
  tnf := Binary64.ofInt record.tnf.code
  type := record.type.bytes buf
  id := record.id.map (·.bytes buf)
  payload := record.payload.bytes buf

/-- Where in its message a record with these flags stands. -/
def Flags.position (flags : Flags) : Position := ⟨flags.messageBegin, flags.messageEnd⟩

/-- The payload length takes four bytes although it fits one. -/
def LongByChoice (flags : Flags) (record : Record) : Prop :=
  flags.shortRecord = false ∧ record.payload.length ≤ maxByteLength

/-- There is an id length, and it is zero. -/
def EmptyId (flags : Flags) (record : Record) : Prop :=
  flags.idLength = true ∧ record.id = none

instance (flags : Flags) (record : Record) : Decidable (LongByChoice flags record) :=
  inferInstanceAs (Decidable (_ ∧ _))

instance (flags : Flags) (record : Record) : Decidable (EmptyId flags record) :=
  inferInstanceAs (Decidable (_ ∧ _))

namespace Layout

variable (layout : Layout)

/-! ## Contents -/

def contents : Contents where
  tnf := Binary64.ofInt layout.flags.tnf.code
  type := layout.type
  id := if layout.id = [] then none else some layout.id
  payload := layout.payload

theorem tnf_parsed : layout.parsed.record.tnf = layout.flags.tnf := rfl

/-- Whoever reads the record, wherever it stands, finds its contents. -/
theorem contents_parsed_shift (front behind : Bytes) :
    (layout.parsed.record.shift front.length).contents (front ++ (layout.bytes ++ behind)) =
      layout.contents := by
  have moved {span : Span} {bytes : Bytes} (holds : span.Holds (layout.bytes ++ []) bytes) :
      (span.shift front.length).bytes (front ++ (layout.bytes ++ behind)) = bytes := by
    rw [List.append_nil] at holds
    exact (holds.shift front behind).bytes_eq
  have id : (layout.parsed.record.shift front.length).id.map
      (·.bytes (front ++ (layout.bytes ++ behind))) =
        if layout.id = [] then none else some layout.id := by
    cases present : layout.parsed.record.id with
    | none =>
        rw [if_pos (layout.id_eq_none_iff.mp present), Record.shift, present]
        rfl
    | some span =>
        have named : layout.id ≠ [] := fun empty => by
          rw [layout.id_eq_none_iff.mpr empty] at present
          cases present
        rw [if_neg named, Record.shift, present, Option.map_some, Option.map_some,
          moved (layout.holds_id present [])]
  rw [Record.contents, id, contents]
  show Contents.mk _ ((layout.parsed.record.type.shift _).bytes _) _
    ((layout.parsed.record.payload.shift _).bytes _) = _
  rw [moved (layout.holds_type []), moved (layout.holds_payload [])]
  rfl

theorem fits_contents : layout.contents.Fits where
  type := layout.type_le
  id id given := by
    simp only [contents, Option.ite_none_left_eq_some, Option.some.injEq] at given
    obtain ⟨-, rfl⟩ := given
    exact layout.id_le
  payload := layout.payload_lt

/-! ## The canonical form -/

/-- The record as it is written again. -/
def canonical : Layout := layout.contents.layout layout.flags.position layout.fits_contents

theorem flags_canonical : layout.canonical.flags =
    { layout.flags with
      chunked := false
      shortRecord := layout.payload.length ≤ maxByteLength
      idLength := layout.id ≠ [] } := by
  show layout.contents.flags layout.flags.position = _
  have named : layout.contents.id.isSome = decide (layout.id ≠ []) := by
    by_cases empty : layout.id = [] <;> simp [contents, empty]
  rw [Contents.flags, named, contents, Tnf.ofNumber_code]
  rfl

theorem tnf_canonical : layout.canonical.flags.tnf = layout.flags.tnf := by
  rw [flags_canonical]

theorem id_canonical : layout.canonical.id = layout.id := by
  show layout.contents.id.getD [] = layout.id
  by_cases empty : layout.id = [] <;> simp [contents, empty]

theorem contents_canonical : layout.canonical.contents = layout.contents := by
  rw [contents, contents, id_canonical, tnf_canonical]
  rfl

/-! ### How long it is -/

theorem longByChoice_iff : LongByChoice layout.flags layout.parsed.record ↔
    layout.flags.shortRecord = false ∧ layout.payload.length ≤ maxByteLength := Iff.rfl

theorem emptyId_iff : EmptyId layout.flags layout.parsed.record ↔
    layout.flags.idLength = true ∧ layout.id = [] := by
  rw [EmptyId, id_eq_none_iff]

theorem payloadLengthSize_eq : layout.flags.payloadLengthSize =
    layout.canonical.flags.payloadLengthSize +
      if LongByChoice layout.flags layout.parsed.record then 3 else 0 := by
  have fits := layout.fits.payload
  rw [flags_canonical]
  simp only [Flags.payloadLengthSize, decide_eq_true_eq, longByChoice_iff] at fits ⊢
  cases short : layout.flags.shortRecord with
  | true =>
      rw [short] at fits
      have small : layout.payload.length ≤ maxByteLength := Nat.le_of_lt_succ fits
      simp [small]
  | false => by_cases small : layout.payload.length ≤ maxByteLength <;> simp [small]

theorem idLengthSize_eq : layout.flags.idLengthSize =
    layout.canonical.flags.idLengthSize +
      if EmptyId layout.flags layout.parsed.record then 1 else 0 := by
  have fits := layout.fits.id
  rw [flags_canonical]
  simp only [Flags.idLengthSize, emptyId_iff] at fits ⊢
  cases present : layout.flags.idLength with
  | true => by_cases empty : layout.id = [] <;> simp [empty]
  | false =>
      rw [present] at fits
      have empty : layout.id = [] := List.length_eq_zero_iff.mp (Nat.lt_one_iff.mp fits)
      simp [empty]

/-- It is shorter than the record that was read, by the bytes that this one wastes. -/
theorem size_eq : layout.parsed.size = layout.canonical.bytes.length +
    (if LongByChoice layout.flags layout.parsed.record then 3 else 0) +
      if EmptyId layout.flags layout.parsed.record then 1 else 0 := by
  have payload := layout.payloadLengthSize_eq
  have id := layout.idLengthSize_eq
  have type : layout.canonical.type = layout.type := rfl
  have contents : layout.canonical.payload = layout.payload := rfl
  rw [length_bytes]
  show layout.header.recordSize = layout.canonical.header.recordSize + _ + _
  simp only [Header.recordSize, Header.size, header, type, contents, id_canonical]
  omega

/-! ### Which records have it -/

/-- Lengths that take no more bytes than they need leave only the chunk flag to differ. -/
theorem flags_eq_of_not (short : ¬ LongByChoice layout.flags layout.parsed.record)
    (named : ¬ EmptyId layout.flags layout.parsed.record) (whole : layout.flags.chunked = false) :
    layout.canonical.flags = layout.flags := by
  have payload := layout.payloadLengthSize_eq
  have id := layout.idLengthSize_eq
  rw [if_neg short, Nat.add_zero, flags_canonical] at payload
  rw [if_neg named, Nat.add_zero, flags_canonical] at id
  rw [flags_canonical]
  generalize decide (layout.payload.length ≤ maxByteLength) = fitsByte at payload ⊢
  generalize decide (layout.id ≠ []) = isNamed at id ⊢
  generalize layout.flags = flags at payload id whole ⊢
  obtain ⟨begins, ends, chunked, shortRecord, idLength, tnf⟩ := flags
  cases whole
  cases shortRecord <;> cases fitsByte <;> cases payload <;>
    cases idLength <;> cases isNamed <;> cases id <;> rfl

theorem canonical_eq_iff : layout.canonical.bytes = layout.bytes ↔
    ¬ LongByChoice layout.flags layout.parsed.record ∧
      ¬ EmptyId layout.flags layout.parsed.record ∧ layout.flags.chunked = false := by
  constructor
  · intro same
    have size := layout.size_eq
    rw [same, layout.length_bytes] at size
    have header := layout.read?_bytes_append []
    rw [← same, layout.canonical.read?_bytes_append, Option.some.injEq] at header
    have flags : layout.canonical.flags = layout.flags := congrArg Header.flags header
    refine ⟨fun long => ?_, fun empty => ?_, ?_⟩
    · rw [if_pos long] at size
      omega
    · rw [if_pos empty] at size
      omega
    · rw [← flags, flags_canonical]
  · rintro ⟨short, named, whole⟩
    rw [bytes, bytes, header, header, id_canonical, layout.flags_eq_of_not short named whole]
    rfl

end Layout

/-! ## Records in a buffer -/

/-- What comes of writing a record again that was read at a place of a buffer, with the
flags that it has there. -/
structure Reencoded (buf : Bytes) (offset : Nat) (parsed : Parsed) (flags : Flags)
    (again : Bytes) : Prop where
  encode_eq : encode (parsed.record.contents buf) flags.position = .ok again
  /-- The new bytes are read as a record of the same contents. -/
  parse_eq : ∃ record, parse again 0 = .ok ⟨record, again.length⟩ ∧
    record.SameBytes again parsed.record buf
  /-- They are fewer by those that the old ones waste on lengths. -/
  size_eq : parsed.size = again.length +
    (if LongByChoice flags parsed.record then 3 else 0) +
      if EmptyId flags parsed.record then 1 else 0
  /-- They are the old ones if these waste none and have no chunk flag. -/
  eq_iff : again = Span.bytes ⟨offset, parsed.size⟩ buf ↔
    ¬ LongByChoice flags parsed.record ∧ ¬ EmptyId flags parsed.record ∧ flags.chunked = false

/-- The record that was read stands at its place. -/
theorem exists_layout_of_parse {buf : Bytes} {offset : Nat} {parsed : Parsed}
    (read : parse buf offset = .ok parsed) :
    ∃ (layout : Layout) (front behind : Bytes), buf = front ++ (layout.bytes ++ behind) ∧
      offset = front.length ∧ parsed = layout.parsed.shift front.length := by
  rw [parse] at read
  cases first : readFront (buf.drop offset) with
  | error fault =>
      rw [first] at read
      cases read
  | ok found =>
      obtain ⟨layout, ⟨behind, split⟩, rfl⟩ := readFront_eq_ok_iff.mp first
      rw [first] at read
      cases read
      have inside : offset ≤ buf.length := by
        have pos := layout.header.recordSize_pos
        have total := congrArg List.length split
        rw [List.length_append, layout.length_bytes, List.length_drop] at total
        simp only [Layout.parsed] at total
        omega
      have width : (buf.take offset).length = offset := List.length_take_of_le inside
      refine ⟨layout, buf.take offset, behind, ?_, width.symm, by rw [width]⟩
      rw [split, List.take_append_drop]

theorem emptyId_shift_iff {flags : Flags} {record : Record} {amount : Nat} :
    EmptyId flags (record.shift amount) ↔ EmptyId flags record := by
  rw [EmptyId, EmptyId, shift, Option.map_eq_none_iff]

theorem Layout.reencoded (layout : Layout) (front behind : Bytes) :
    Reencoded (front ++ (layout.bytes ++ behind)) front.length (layout.parsed.shift front.length)
      layout.flags layout.canonical.bytes where
  encode_eq := by
    rw [Parsed.shift, contents_parsed_shift]
    exact encode_eq_layout layout.fits_contents layout.flags.position
  parse_eq := by
    have read := parse_bytes_append layout.canonical []
    have found := layout.canonical.contents_parsed_shift [] []
    have here : layout.canonical.parsed.record.shift 0 = layout.canonical.parsed.record :=
      congrArg Parsed.record layout.canonical.parsed.shift_zero
    rw [List.append_nil] at read
    rw [List.length_nil, List.nil_append, List.append_nil, here, contents_canonical,
      ← layout.contents_parsed_shift front behind] at found
    refine ⟨layout.canonical.parsed.record, ?_, ?_⟩
    · rw [read, length_bytes]
    · exact
        { tnf := layout.canonical.tnf_parsed.trans layout.tnf_canonical
          type := congrArg Contents.type found
          id := congrArg Contents.id found
          payload := congrArg Contents.payload found }
  size_eq := by
    show layout.parsed.size = layout.canonical.bytes.length +
      (if LongByChoice layout.flags layout.parsed.record then 3 else 0) +
        if EmptyId layout.flags (layout.parsed.record.shift front.length) then 1 else 0
    simp only [emptyId_shift_iff]
    exact layout.size_eq
  eq_iff := by
    have middle := (Span.holds_middle front layout.bytes behind).bytes_eq
    rw [layout.length_bytes] at middle
    rw [Parsed.shift, middle, canonical_eq_iff, emptyId_shift_iff]
    rfl

/-- **A record that was read can be written again**, to the same contents in as few
bytes as they take. -/
theorem reencoding_is_canonical {buf : Bytes} {offset : Nat} {parsed : Parsed}
    (read : parse buf offset = .ok parsed) :
    ∃ byte again, buf[offset]? = some byte ∧
      Reencoded buf offset parsed (Flags.ofByte byte) again := by
  obtain ⟨layout, front, behind, rfl, rfl, rfl⟩ := exists_layout_of_parse read
  refine ⟨layout.flags.toByte, layout.canonical.bytes, ?_, ?_⟩
  · rw [List.getElem?_append_right (Nat.le_refl _), Nat.sub_self]
    rfl
  · rw [Flags.ofByte_toByte]
    exact layout.reencoded front behind

/-- A chunk flag, four bytes for a payload length of two, and an id length of zero: of ten
bytes six are left. -/
theorem reencoding_is_canonical_wasteful :
    let buf : Bytes :=
      [0xee, 0xee, 0xab, 0x01, 0x00, 0x00, 0x00, 0x02, 0x00, 0x74, 0x61, 0x62, 0xff]
    let parsed : Parsed := ⟨⟨.absoluteUri, ⟨9, 1⟩, none, ⟨10, 2⟩⟩, 10⟩
    parse buf 2 = .ok parsed ∧ ∃ byte again, buf[2]? = some byte ∧
      Reencoded buf 2 parsed (Flags.ofByte byte) again := by
  intro buf parsed
  have read : parse buf 2 = .ok parsed := rfl
  exact ⟨read, reencoding_is_canonical read⟩

end Record

end NfcTag
