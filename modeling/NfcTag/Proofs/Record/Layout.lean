/-
# NfcTag.Proofs.Record.Layout -- the grammar of a record

A `Layout` is a whole record as it stands in bytes: flags, type, id and payload,
whose lengths fit the fields that the flags give them.  Its bytes are the header
and the three contents, one behind the other; nothing in it is a reader.

Main statements: a header is read exactly where one stands
(`Header.read?_eq_some_iff`), and so is a record (`readFront_eq_ok_iff`).  Where
none does, `Cut` says why, and `readFront_eq_error_iff` that reading says the
same.
-/
import NfcTag.Proofs.Bytes.Holds
import NfcTag.Record.Parse

namespace NfcTag.Record

set_option autoImplicit false

/-! ## Headers -/

theorem Flags.toByte_ofByte (byte : UInt8) : (ofByte byte).toByte = byte := by
  have bit (set : Bool) (weight : Nat) : (if set then weight else 0) = set.toNat * weight := by
    cases set <;> simp
  have digit (weight : Nat) : (decide (byte.toNat / weight % 2 = 1)).toNat =
      byte.toNat / weight % 2 := by
    rcases Nat.mod_two_eq_zero_or_one (byte.toNat / weight) with h | h <;> simp [h]
  have half (weight : Nat) : byte.toNat / (weight * 2) = byte.toNat / weight / 2 :=
    (Nat.div_div_eq_div_mul byte.toNat weight 2).symm
  have small := byte.toNat_lt
  apply UInt8.toNat_inj.mp
  -- One layer at a time: opening a weight inside a decision would leave the instance behind.
  simp only [toByte, UInt8.toNat_ofNat']
  simp only [bit]
  simp only [ofByte, digit, Tnf.code_ofCode]
  simp only [messageBeginBit, messageEndBit, chunkedBit, shortRecordBit, idLengthBit]
  -- Side by side the five quotients are slow for omega; as repeated halves they are not.
  rw [half 0x40, half 0x20, half 0x10, half 0x08]
  omega

namespace Header

/-- Every length fits its field. -/
structure Fits (header : Header) : Prop where
  type : header.typeLength < BigEndian.modulus 1
  payload : header.payloadLength < BigEndian.modulus header.flags.payloadLengthSize
  id : header.idLength < BigEndian.modulus header.flags.idLengthSize

theorem encode_append (header : Header) (rest : Bytes) :
    header.encode ++ rest =
      header.flags.toByte :: UInt8.ofNat header.typeLength ::
        (BigEndian.encode header.flags.payloadLengthSize header.payloadLength ++
          (BigEndian.encode header.flags.idLengthSize header.idLength ++ rest)) := by
  simp only [encode, BigEndian.encode, List.nil_append, List.cons_append, List.append_assoc]

theorem read?_encode_append {header : Header} (fits : header.Fits) (rest : Bytes) :
    read? (header.encode ++ rest) = some header := by
  have type : (UInt8.ofNat header.typeLength).toNat = header.typeLength := by
    rw [UInt8.toNat_ofNat']
    exact Nat.mod_eq_of_lt fits.type
  have field (width n : Nat) (rest : Bytes) :
      Bytes.split? width (BigEndian.encode width n ++ rest) = some (BigEndian.encode width n, rest) :=
    Bytes.split?_eq_some_iff.mpr ⟨rfl, BigEndian.length_encode width n⟩
  simp only [encode_append, read?, Flags.ofByte_toByte, field, type, bind, Option.bind_some,
    BigEndian.decode_encode, Nat.mod_eq_of_lt fits.payload, Nat.mod_eq_of_lt fits.id]

/-- The fields that a header was read from are the ones that it writes. -/
theorem eq_encode_append_of_read? {bytes : Bytes} {header : Header}
    (found : read? bytes = some header) : header.Fits ∧ header.encode <+: bytes := by
  match bytes with
  | flagsByte :: typeLength :: fields =>
      simp only [read?, bind, Option.bind_eq_some_iff, Prod.exists, Option.some.injEq] at found
      obtain ⟨payloadLength, afterPayload, payload, idLength, rest, id, rfl⟩ := found
      obtain ⟨rfl, payloadWidth⟩ := Bytes.split?_eq_some_iff.mp payload
      obtain ⟨rfl, idWidth⟩ := Bytes.split?_eq_some_iff.mp id
      refine ⟨⟨typeLength.toNat_lt, ?_, ?_⟩, rest, ?_⟩
      · have bound := BigEndian.decode_lt payloadLength
        rwa [payloadWidth] at bound
      · have bound := BigEndian.decode_lt idLength
        rwa [idWidth] at bound
      · have payloadField := BigEndian.encode_decode payloadLength
        have idField := BigEndian.encode_decode idLength
        rw [payloadWidth] at payloadField
        rw [idWidth] at idField
        rw [encode_append]
        simp only [Flags.toByte_ofByte, UInt8.ofNat_toNat, payloadField, idField]
  | [] => cases found
  | [_] => cases found

/-- A header is read exactly where one stands whose lengths fit their fields. -/
theorem read?_eq_some_iff {bytes : Bytes} {header : Header} :
    read? bytes = some header ↔ header.Fits ∧ header.encode <+: bytes := by
  constructor
  · exact eq_encode_append_of_read?
  · rintro ⟨fits, rest, rfl⟩
    exact read?_encode_append fits rest

end Header

/-! ## Records -/

/-- A whole record as it stands in bytes. -/
structure Layout where
  flags : Flags
  type : Bytes
  id : Bytes
  payload : Bytes
  fits : Header.Fits ⟨flags, type.length, payload.length, id.length⟩

namespace Layout

/-- The header that the flags and the contents ask for. -/
def header (layout : Layout) : Header :=
  ⟨layout.flags, layout.type.length, layout.payload.length, layout.id.length⟩

/-- The header, the type, the id and the payload, one behind the other. -/
def bytes (layout : Layout) : Bytes :=
  layout.header.encode ++ (layout.type ++ (layout.id ++ layout.payload))

/-- The record and its size, as a reader at its first byte names them. -/
def parsed (layout : Layout) : Parsed := ⟨layout.header.record, layout.header.recordSize⟩

variable (layout : Layout)

theorem length_bytes : layout.bytes.length = layout.parsed.size := by
  simp only [bytes, parsed, Header.recordSize, List.length_append, Header.length_encode, header]
  omega

/-! The spans of the record hold its contents. -/

theorem holds_type (behind : Bytes) :
    layout.parsed.record.type.Holds (layout.bytes ++ behind) layout.type := by
  have span := Span.holds_middle layout.header.encode layout.type
    (layout.id ++ (layout.payload ++ behind))
  rw [Header.length_encode] at span
  simp only [bytes, List.append_assoc] at span ⊢
  exact span

theorem holds_payload (behind : Bytes) :
    layout.parsed.record.payload.Holds (layout.bytes ++ behind) layout.payload := by
  have span := Span.holds_middle (layout.header.encode ++ (layout.type ++ layout.id))
    layout.payload behind
  rw [List.length_append, List.length_append, Header.length_encode, ← Nat.add_assoc] at span
  simp only [bytes, List.append_assoc] at span ⊢
  exact span

theorem id_eq_none_iff : layout.parsed.record.id = none ↔ layout.id = [] := by
  rw [← List.length_eq_zero_iff]
  simp only [parsed, Header.record]
  split <;> simp_all [header]

theorem holds_id {span : Span} (present : layout.parsed.record.id = some span) (behind : Bytes) :
    span.Holds (layout.bytes ++ behind) layout.id := by
  simp only [parsed, Header.record, Option.ite_none_left_eq_some, Option.some.injEq] at present
  obtain ⟨-, rfl⟩ := present
  have span := Span.holds_middle (layout.header.encode ++ layout.type) layout.id
    (layout.payload ++ behind)
  rw [List.length_append, Header.length_encode] at span
  simp only [bytes, List.append_assoc] at span ⊢
  exact span

end Layout

/-- Every span of the record lies inside another one. -/
structure Within (record : Record) (outer : Span) : Prop where
  type : record.type.Within outer
  id : ∀ span, record.id = some span → span.Within outer
  payload : record.payload.Within outer

theorem Within.mono {record : Record} {inner outer : Span} (within : record.Within inner)
    (inside : inner.Within outer) : record.Within outer where
  type := within.type.trans inside
  id span present := (within.id span present).trans inside
  payload := within.payload.trans inside

theorem Within.shift {record : Record} {outer : Span} (within : record.Within outer)
    (amount : Nat) : (record.shift amount).Within (outer.shift amount) where
  type := within.type.shift amount
  id span present := by
    obtain ⟨unshifted, found, rfl⟩ := Option.map_eq_some_iff.mp present
    exact (within.id unshifted found).shift amount
  payload := within.payload.shift amount

/-- Two records of one format, each with the bytes that the other one has in its own
buffer. -/
structure SameBytes (record : Record) (buf : Bytes) (other : Record) (otherBuf : Bytes) :
    Prop where
  tnf : record.tnf = other.tnf
  type : record.type.bytes buf = other.type.bytes otherBuf
  id : record.id.map (·.bytes buf) = other.id.map (·.bytes otherBuf)
  payload : record.payload.bytes buf = other.payload.bytes otherBuf

/-- A record inside a slice has the same bytes in the buffer that the slice was cut from. -/
theorem Within.sameBytes_shift {record : Record} {slice : Span} {buf : Bytes}
    (within : record.Within ⟨0, (slice.bytes buf).length⟩) :
    (record.shift slice.offset).SameBytes buf record (slice.bytes buf) where
  tnf := rfl
  type := within.type.bytes_shift
  id := by
    cases present : record.id with
    | none => simp only [Record.shift, present, Option.map_none]
    | some span =>
        simp only [Record.shift, present, Option.map_some, (within.id span present).bytes_shift]
  payload := within.payload.bytes_shift

theorem Layout.within (layout : Layout) :
    layout.parsed.record.Within ⟨0, layout.parsed.size⟩ := by
  rw [← layout.length_bytes, ← List.append_nil layout.bytes]
  exact ⟨(layout.holds_type []).within, fun _ present => (layout.holds_id present []).within,
    (layout.holds_payload []).within⟩

theorem Layout.read?_bytes_append (layout : Layout) (rest : Bytes) :
    Header.read? (layout.bytes ++ rest) = some layout.header := by
  rw [bytes, List.append_assoc]
  exact Header.read?_encode_append layout.fits _

theorem readFront_bytes_append (layout : Layout) (rest : Bytes) :
    readFront (layout.bytes ++ rest) = .ok layout.parsed := by
  have found := layout.read?_bytes_append rest
  have enough : layout.header.recordSize ≤ (layout.bytes ++ rest).length := by
    rw [List.length_append, layout.length_bytes]
    exact Nat.le_add_right _ _
  simp only [readFront, found, if_pos enough]
  rfl

/-- The record that a header declares is a layout, if the bytes reach so far. -/
theorem Header.exists_layout {header : Header} (fits : header.Fits) {bytes : Bytes}
    (stands : header.encode <+: bytes) (enough : header.recordSize ≤ bytes.length) :
    ∃ layout : Layout, layout.header = header ∧ layout.bytes <+: bytes := by
  obtain ⟨flags, typeLength, payloadLength, idLength⟩ := header
  obtain ⟨contents, rfl⟩ := stands
  simp only [recordSize, List.length_append, length_encode] at enough
  have cut (n : Nat) (bytes : Bytes) (long : n ≤ bytes.length) :
      ∃ front rest, bytes = front ++ rest ∧ front.length = n :=
    ⟨bytes.take n, bytes.drop n, (List.take_append_drop n bytes).symm, List.length_take_of_le long⟩
  obtain ⟨type, contents, rfl, rfl⟩ := cut typeLength contents (by omega)
  simp only [List.length_append] at enough
  obtain ⟨id, contents, rfl, rfl⟩ := cut idLength contents (by omega)
  simp only [List.length_append] at enough
  obtain ⟨payload, rest, rfl, rfl⟩ := cut payloadLength contents (by omega)
  refine ⟨⟨flags, type, id, payload, fits⟩, rfl, rest, ?_⟩
  simp only [Layout.bytes, Layout.header, List.append_assoc]

/-- A record that declares more than there is is refused. -/
theorem readFront_of_short {header : Header} (fits : header.Fits) {bytes : Bytes}
    (stands : header.encode <+: bytes) (short : bytes.length < header.recordSize) :
    readFront bytes = .error (.recordCut header.recordSize bytes.length) := by
  simp only [readFront, Header.read?_eq_some_iff.mpr ⟨fits, stands⟩,
    if_neg (Nat.not_le.mpr short)]

/-- A record is read exactly where one stands, and as what stands there. -/
theorem readFront_eq_ok_iff {bytes : Bytes} {parsed : Parsed} :
    readFront bytes = .ok parsed ↔
      ∃ layout : Layout, layout.bytes <+: bytes ∧ parsed = layout.parsed := by
  constructor
  · intro found
    unfold readFront at found
    split at found
    · cases found
    · rename_i header present
      split at found
      · rename_i enough
        cases found
        obtain ⟨fits, stands⟩ := Header.read?_eq_some_iff.mp present
        obtain ⟨layout, rfl, front⟩ := Header.exists_layout fits stands enough
        exact ⟨layout, front, rfl⟩
      · cases found
  · rintro ⟨layout, ⟨rest, rfl⟩, rfl⟩
    exact readFront_bytes_append layout rest

/-! ## Records that are cut -/

/-- No whole record stands at the front of `bytes`, and `fault` says why: they
end inside the header, or before the end that a header declares. -/
structure Cut (bytes : Bytes) (fault : Fault) : Prop where
  incomplete : ∀ layout : Layout, ¬ layout.bytes <+: bytes
  cause : (∀ header : Header, header.Fits → ¬ header.encode <+: bytes) ∧ fault = .headerCut ∨
    ∃ header : Header, header.Fits ∧ header.encode <+: bytes ∧
      fault = .recordCut header.recordSize bytes.length

theorem Cut.status {bytes : Bytes} {fault : Fault} (cut : Cut bytes fault) :
    fault.status? = some .truncated := by
  obtain ⟨-, rfl⟩ | ⟨_, -, -, rfl⟩ := cut.cause <;> rfl

theorem readFront_eq_error_iff {bytes : Bytes} {fault : Fault} :
    readFront bytes = .error fault ↔ Cut bytes fault := by
  constructor
  · intro refused
    refine ⟨fun layout front => ?_, ?_⟩
    · rw [readFront_eq_ok_iff.mpr ⟨layout, front, rfl⟩] at refused
      cases refused
    · unfold readFront at refused
      split at refused
      · rename_i absent
        cases refused
        refine .inl ⟨fun header fits stands => ?_, rfl⟩
        rw [Header.read?_eq_some_iff.mpr ⟨fits, stands⟩] at absent
        cases absent
      · rename_i header present
        obtain ⟨fits, stands⟩ := Header.read?_eq_some_iff.mp present
        split at refused
        · cases refused
        · cases refused
          exact .inr ⟨header, fits, stands, rfl⟩
  · rintro ⟨incomplete, ⟨absent, rfl⟩ | ⟨header, fits, stands, rfl⟩⟩
    · cases present : Header.read? bytes with
      | none => simp only [readFront, present]
      | some header =>
          obtain ⟨fits, stands⟩ := Header.read?_eq_some_iff.mp present
          exact absurd stands (absent header fits)
    · refine readFront_of_short fits stands (Nat.lt_of_not_le fun enough => ?_)
      obtain ⟨layout, -, front⟩ := Header.exists_layout fits stands enough
      exact incomplete layout front

/-- Either a whole record stands at the front of `bytes`, or it is cut. -/
theorem exists_layout_or_cut (bytes : Bytes) :
    (∃ (layout : Layout) (rest : Bytes), bytes = layout.bytes ++ rest) ∨
      ∃ fault, Cut bytes fault := by
  cases read : readFront bytes with
  | ok parsed =>
      obtain ⟨layout, ⟨rest, rfl⟩, -⟩ := readFront_eq_ok_iff.mp read
      exact .inl ⟨layout, rest, rfl⟩
  | error fault => exact .inr ⟨fault, readFront_eq_error_iff.mp read⟩

/-- No record starts another one: the front of a record is cut, if it is not all of it. -/
theorem Layout.exists_cut (layout : Layout) {front rest : Bytes}
    (starts : front <+: layout.bytes ++ rest) (short : front.length < layout.bytes.length) :
    ∃ fault, Cut front fault := by
  obtain ⟨other, more, rfl⟩ | cut := exists_layout_or_cut front
  · have same : readFront (layout.bytes ++ rest) = .ok other.parsed :=
      readFront_eq_ok_iff.mpr ⟨other, (List.prefix_append _ _).trans starts, rfl⟩
    rw [readFront_bytes_append, Except.ok.injEq] at same
    rw [List.length_append, other.length_bytes, ← same, ← layout.length_bytes] at short
    omega
  · exact cut

/-! ## Records further behind -/

theorem Parsed.shift_zero (parsed : Parsed) : parsed.shift 0 = parsed := by
  obtain ⟨⟨tnf, type, id, payload⟩, size⟩ := parsed
  cases id <;> rfl

theorem parse_bytes_append (layout : Layout) (rest : Bytes) :
    parse (layout.bytes ++ rest) 0 = .ok layout.parsed := by
  rw [parse, List.drop_zero, readFront_bytes_append, Except.map, Parsed.shift_zero]

theorem parse_append (front bytes : Bytes) :
    parse (front ++ bytes) front.length = (readFront bytes).map (·.shift front.length) := by
  rw [parse, List.drop_left]

end NfcTag.Record
