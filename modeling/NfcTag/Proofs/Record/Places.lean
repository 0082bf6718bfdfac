/-
# NfcTag.Proofs.Record.Places -- where the parts of a record stand in a buffer

A reader takes a header off the front of what is left of a buffer.  Here the fields
of a header are looked up instead, each at its own place of the whole buffer
(`Header.StandsAt`), and that comes to the same (`read?_drop_eq_some_iff`).  From there
on only numbers decide: a record is there if the buffer has all the bytes that its
header declares, and its parts lie side by side (`Header.Tiles`).

Main statement: `reading_is_exact`.
-/
import NfcTag.Fault.Report
import NfcTag.Proofs.Record.Layout

namespace NfcTag

set_option autoImplicit false

theorem Bytes.split?_drop_eq_some_iff {buf front rest : Bytes} {count place : Nat}
    (inside : place ≤ buf.length) :
    Bytes.split? count (buf.drop place) = some (front, rest) ↔
      Span.Holds ⟨place, count⟩ buf front ∧ rest = buf.drop (place + count) := by
  have length : ((buf.drop place).take count).length = count ↔ place + count ≤ buf.length := by
    rw [List.length_take, List.length_drop]
    omega
  simp only [Bytes.split?, length, Option.ite_none_right_eq_some, Option.some.injEq,
    Prod.mk.injEq, List.drop_drop]
  constructor
  · rintro ⟨fits, bytes, rfl⟩
    exact ⟨⟨fits, bytes⟩, rfl⟩
  · rintro ⟨⟨fits, bytes⟩, rfl⟩
    exact ⟨fits, bytes, rfl⟩

namespace Record

namespace Header

/-! ## The fields of a header -/

/-- Every field of the header stands at its place: the flags and the type length, the
payload length in as many bytes as the flags ask for, and the id length in one byte or
none. -/
structure StandsAt (header : Header) (buf : Bytes) (offset : Nat) : Prop where
  flags : ∃ byte, buf[offset]? = some byte ∧ header.flags = Flags.ofByte byte
  typeLength : ∃ byte, buf[offset + 1]? = some byte ∧ header.typeLength = byte.toNat
  payloadLength : ∃ field, Span.Holds ⟨offset + 2, header.flags.payloadLengthSize⟩ buf field ∧
    header.payloadLength = BigEndian.decode field
  idLength : ∃ field,
    Span.Holds ⟨offset + 2 + header.flags.payloadLengthSize, header.flags.idLengthSize⟩ buf field ∧
      header.idLength = BigEndian.decode field

variable {header : Header} {buf : Bytes} {offset : Nat}

theorem read?_drop_eq_some_iff :
    read? (buf.drop offset) = some header ↔ header.StandsAt buf offset := by
  have first : buf[offset]? = (buf.drop offset)[0]? := by rw [List.getElem?_drop, Nat.add_zero]
  have second : buf[offset + 1]? = (buf.drop offset)[1]? := by rw [List.getElem?_drop]
  have total : (buf.drop offset).length = buf.length - offset := List.length_drop
  match left : buf.drop offset with
  | flagsByte :: typeLength :: fields =>
      rw [left] at first second total
      have inside : offset + 2 ≤ buf.length := by
        simp only [List.length_cons] at total
        omega
      have behind : fields = buf.drop (offset + 2) := by
        rw [← List.drop_drop, left]
        rfl
      simp only [read?, bind, Option.bind_eq_some_iff, Prod.exists, Option.some.injEq, behind,
        Bytes.split?_drop_eq_some_iff inside]
      constructor
      · rintro ⟨payloadLength, _, ⟨payload, rfl⟩, idLength, _, id, rfl⟩
        have id := (Bytes.split?_drop_eq_some_iff payload.inside).mp id
        exact ⟨⟨_, first, rfl⟩, ⟨_, second, rfl⟩, ⟨_, payload, rfl⟩, ⟨_, id.1, rfl⟩⟩
      · rintro ⟨⟨_, here, flags⟩, ⟨_, next, type⟩, ⟨payloadLength, payload, payloadValue⟩,
          ⟨idLength, id, idValue⟩⟩
        cases here.symm.trans first
        cases next.symm.trans second
        obtain ⟨_, _, _, _⟩ := header
        subst flags type payloadValue idValue
        exact ⟨_, _, ⟨payload, rfl⟩, _, _,
          (Bytes.split?_drop_eq_some_iff payload.inside).mpr ⟨id, rfl⟩, rfl⟩
  | [] =>
      rw [left] at first
      refine iff_of_false (by simp [read?]) fun stands => ?_
      obtain ⟨_, here, -⟩ := stands.flags
      cases here.symm.trans first
  | [_] =>
      rw [left] at second
      refine iff_of_false (by simp [read?]) fun stands => ?_
      obtain ⟨_, next, -⟩ := stands.typeLength
      cases next.symm.trans second

/-- Only one header stands at a place. -/
theorem StandsAt.unique {other : Header} (stands : header.StandsAt buf offset)
    (otherStands : other.StandsAt buf offset) : header = other := by
  have found := read?_drop_eq_some_iff.mpr stands
  rw [read?_drop_eq_some_iff.mpr otherStands] at found
  exact (Option.some.inj found).symm

theorem read?_drop_eq_none (absent : ¬ ∃ header : Header, header.StandsAt buf offset) :
    read? (buf.drop offset) = none := by
  cases found : read? (buf.drop offset) with
  | none => rfl
  | some header => exact absurd ⟨header, read?_drop_eq_some_iff.mp found⟩ absent

theorem StandsAt.offset_le (stands : header.StandsAt buf offset) : offset ≤ buf.length := by
  obtain ⟨_, here, -⟩ := stands.flags
  exact Nat.le_of_lt (List.getElem?_eq_some_iff.mp here).1

/-! ## The parts of a record -/

/-- The record begins at `offset` with its header; its type, its id and its payload stand
behind it side by side, and its size is that of all of them together. -/
structure Tiles (header : Header) (offset : Nat) (parsed : Parsed) : Prop where
  tnf : parsed.record.tnf = header.flags.tnf
  type : parsed.record.type = ⟨offset + header.size, header.typeLength⟩
  id : parsed.record.id = if header.idLength = 0 then none
    else some ⟨parsed.record.type.stop, header.idLength⟩
  payload : parsed.record.payload =
    ⟨parsed.record.type.stop + header.idLength, header.payloadLength⟩
  stop : parsed.record.payload.stop = offset + parsed.size
  size : parsed.size = 2 + header.flags.payloadLengthSize + header.flags.idLengthSize +
    header.typeLength + header.idLength + header.payloadLength

theorem tiles_shift (header : Header) (offset : Nat) :
    header.Tiles offset (Parsed.shift ⟨header.record, header.recordSize⟩ offset) where
  tnf := rfl
  type := by
    simp only [Parsed.shift, Record.shift, record, Span.shift, Nat.add_comm]
  id := by
    simp only [Parsed.shift, Record.shift, record, Span.shift, Span.stop]
    split
    · rfl
    · simp only [Option.map_some, Option.some.injEq, Span.mk.injEq, and_true]
      omega
  payload := by
    simp only [Parsed.shift, Record.shift, record, Span.shift, Span.stop, Span.mk.injEq, and_true]
    omega
  stop := by
    simp only [Parsed.shift, Record.shift, record, Span.shift, Span.stop, recordSize]
    omega
  size := rfl

end Header

/-! ## Reading at a place -/

variable {header : Header} {buf : Bytes} {offset : Nat}

theorem parse_of_standsAt (stands : header.StandsAt buf offset) :
    parse buf offset = if offset + header.recordSize ≤ buf.length then
      .ok (Parsed.shift ⟨header.record, header.recordSize⟩ offset)
    else .error (.recordCut header.recordSize (buf.length - offset)) := by
  have inside := stands.offset_le
  have enough : header.recordSize ≤ buf.length - offset ↔
      offset + header.recordSize ≤ buf.length := by omega
  simp only [parse, readFront, Header.read?_drop_eq_some_iff.mpr stands, List.length_drop, enough]
  split <;> rfl

theorem parse_of_absent (absent : ¬ ∃ header : Header, header.StandsAt buf offset) :
    parse buf offset = .error .headerCut := by
  simp only [parse, readFront, Header.read?_drop_eq_none absent]
  rfl

theorem parse_eq_ok_iff_standsAt {parsed : Parsed} :
    parse buf offset = .ok parsed ↔
      ∃ header : Header, header.StandsAt buf offset ∧ offset + header.recordSize ≤ buf.length ∧
        parsed = Parsed.shift ⟨header.record, header.recordSize⟩ offset := by
  by_cases present : ∃ header : Header, header.StandsAt buf offset
  · obtain ⟨header, stands⟩ := present
    rw [parse_of_standsAt stands]
    constructor
    · intro read
      split at read
      · cases read
        exact ⟨header, stands, ‹_›, rfl⟩
      · cases read
    · rintro ⟨other, otherStands, enough, rfl⟩
      cases stands.unique otherStands
      rw [if_pos enough]
  · rw [parse_of_absent present]
    refine iff_of_false (fun read => by cases read) ?_
    rintro ⟨header, stands, -⟩
    exact present ⟨header, stands⟩

/-- Why no record is read, and what is said of it: how many bytes there should be, if the
header is there to say so. -/
inductive Refusal (buf : Bytes) (offset : Nat) : String → Prop where
  | header (absent : ¬ ∃ header : Header, header.StandsAt buf offset) :
      Refusal buf offset "record truncated"
  | contents {header : Header} (stands : header.StandsAt buf offset)
      (short : buf.length < offset + header.recordSize) :
      Refusal buf offset
        s!"record truncated: needs {header.recordSize} bytes, {buf.length - offset} available"

/-- A record is refused as truncated, and for no other reason. -/
theorem report_parse_eq_error_iff {report : Report} :
    (parse buf offset).mapError Fault.report = .error report ↔
      ∃ text, report = .tag Status.truncated.code text ∧ Refusal buf offset text := by
  by_cases present : ∃ header : Header, header.StandsAt buf offset
  · obtain ⟨header, stands⟩ := present
    rw [parse_of_standsAt stands]
    constructor
    · intro refused
      split at refused
      · cases refused
      · cases refused
        exact ⟨_, rfl, .contents stands (Nat.lt_of_not_le ‹_›)⟩
    · rintro ⟨text, rfl, absent | ⟨otherStands, short⟩⟩
      · exact absurd ⟨header, stands⟩ absent
      · cases stands.unique otherStands
        rw [if_neg (Nat.not_le.mpr short)]
        rfl
  · rw [parse_of_absent present]
    constructor
    · intro refused
      cases refused
      exact ⟨_, rfl, .header present⟩
    · rintro ⟨text, rfl, _ | ⟨stands, -⟩⟩
      · rfl
      · exact absurd ⟨_, stands⟩ present

/-! ## Flags that no reader looks at -/

/-- The two agree in all that a reader looks at. -/
structure Flags.Alike (one other : Flags) : Prop where
  shortRecord : one.shortRecord = other.shortRecord
  idLength : one.idLength = other.idLength
  tnf : one.tnf = other.tnf

/-- Of the flags byte only the low five bits count. -/
theorem Flags.alike_ofByte {one other : UInt8} (same : one.toNat % 32 = other.toNat % 32) :
    Alike (ofByte one) (ofByte other) where
  shortRecord := by
    have bit : one.toNat / 0x10 % 2 = other.toNat / 0x10 % 2 := by omega
    show decide (one.toNat / 0x10 % 2 = 1) = decide (other.toNat / 0x10 % 2 = 1)
    rw [bit]
  idLength := by
    have bit : one.toNat / 0x08 % 2 = other.toNat / 0x08 % 2 := by omega
    show decide (one.toNat / 0x08 % 2 = 1) = decide (other.toNat / 0x08 % 2 = 1)
    rw [bit]
  tnf := by
    have low : one.toNat % 8 = other.toNat % 8 := by omega
    simp only [ofByte, Tnf.ofCode, low]

theorem Flags.Alike.payloadLengthSize_eq {one other : Flags} (alike : one.Alike other) :
    one.payloadLengthSize = other.payloadLengthSize := by
  rw [payloadLengthSize, payloadLengthSize, alike.shortRecord]

theorem Flags.Alike.idLengthSize_eq {one other : Flags} (alike : one.Alike other) :
    one.idLengthSize = other.idLengthSize := by
  rw [idLengthSize, idLengthSize, alike.idLength]

/-- Headers with such flags and the same lengths declare the same record. -/
theorem Flags.Alike.record_eq {one other : Flags} (alike : one.Alike other)
    (type payload id : Nat) :
    (Header.mk one type payload id).record = (Header.mk other type payload id).record := by
  simp only [Header.record, Header.size, alike.payloadLengthSize_eq, alike.idLengthSize_eq,
    alike.tnf]

theorem Flags.Alike.recordSize_eq {one other : Flags} (alike : one.Alike other)
    (type payload id : Nat) :
    (Header.mk one type payload id).recordSize = (Header.mk other type payload id).recordSize := by
  simp only [Header.recordSize, Header.size, alike.payloadLengthSize_eq, alike.idLengthSize_eq]

theorem readFront_cons_congr {one other : UInt8}
    (alike : (Flags.ofByte one).Alike (Flags.ofByte other)) (rest : Bytes) :
    readFront (one :: rest) = readFront (other :: rest) := by
  cases rest with
  | nil => rfl
  | cons typeLength fields =>
      simp only [readFront, Header.read?, alike.payloadLengthSize_eq, alike.idLengthSize_eq]
      cases Bytes.split? (Flags.ofByte other).payloadLengthSize fields with
      | none => rfl
      | some payload =>
          simp only [bind, Option.bind_some]
          cases Bytes.split? (Flags.ofByte other).idLengthSize payload.2 with
          | none => rfl
          | some id =>
              simp only [Option.bind_some]
              rw [alike.recordSize_eq, alike.record_eq]
              rfl

theorem parse_set_flags {byte other : UInt8} (here : buf[offset]? = some byte)
    (same : other.toNat % 32 = byte.toNat % 32) :
    parse (buf.set offset other) offset = parse buf offset := by
  obtain ⟨inside, rfl⟩ := List.getElem?_eq_some_iff.mp here
  have left : buf.drop offset = buf[offset] :: buf.drop (offset + 1) :=
    List.drop_eq_getElem_cons inside
  have right : (buf.set offset other).drop offset = other :: buf.drop (offset + 1) := by
    rw [List.drop_set, if_neg (Nat.lt_irrefl _), Nat.sub_self, left, List.set_cons_zero]
  rw [parse, parse, left, right, readFront_cons_congr (Flags.alike_ofByte same)]

/-! ## All of it -/

/-- What comes of reading a record at a place of a buffer. -/
structure Exact (buf : Bytes) (offset : Nat) : Prop where
  /-- A record is read if its header is there and all that this declares. -/
  read_iff : (∃ parsed, parse buf offset = .ok parsed) ↔
    ∃ header : Header, header.StandsAt buf offset ∧ offset + header.recordSize ≤ buf.length
  /-- All else is refused as truncated. -/
  refused_iff : ∀ report, (parse buf offset).mapError Fault.report = .error report ↔
    ∃ text, report = .tag Status.truncated.code text ∧ Refusal buf offset text
  tiles : ∀ parsed, parse buf offset = .ok parsed →
    (∃ header : Header, header.StandsAt buf offset ∧ header.Tiles offset parsed) ∧
      3 ≤ parsed.size ∧ offset + parsed.size ≤ buf.length
  /-- The message flags and the chunk flag play no part. -/
  flags : ∀ byte other, buf[offset]? = some byte → other.toNat % 32 = byte.toNat % 32 →
    parse (buf.set offset other) offset = parse buf offset
  /-- A record is the same as at the front of what is left of the buffer. -/
  front : parse buf offset = (parse (buf.drop offset) 0).map (·.shift offset)

/-- **Reading a record at any place of any buffer is exact.** -/
theorem reading_is_exact (buf : Bytes) (offset : Nat) : Exact buf offset where
  read_iff := by
    constructor
    · rintro ⟨parsed, read⟩
      obtain ⟨header, stands, enough, -⟩ := parse_eq_ok_iff_standsAt.mp read
      exact ⟨header, stands, enough⟩
    · rintro ⟨header, stands, enough⟩
      exact ⟨_, parse_eq_ok_iff_standsAt.mpr ⟨header, stands, enough, rfl⟩⟩
  refused_iff _ := report_parse_eq_error_iff
  tiles := by
    intro parsed read
    obtain ⟨header, stands, enough, rfl⟩ := parse_eq_ok_iff_standsAt.mp read
    have least := header.two_lt_size
    refine ⟨⟨header, stands, header.tiles_shift offset⟩, ?_, enough⟩
    simp only [Parsed.shift, Header.recordSize]
    omega
  flags byte other here same := parse_set_flags here same
  front := by
    cases read : readFront (buf.drop offset) with
    | ok parsed => simp only [parse, List.drop_zero, read, Except.map, Parsed.shift_zero]
    | error fault => simp only [parse, List.drop_zero, read, Except.map]

end Record

end NfcTag
