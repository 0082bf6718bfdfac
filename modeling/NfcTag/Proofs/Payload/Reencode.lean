/-
# NfcTag.Proofs.Payload.Reencode -- payloads decoded and encoded again

Every byte string of a payload's length is a row.  Handed back, the row is written
as the same bytes, but for those that a field never writes and for NaNs, which the
platform chooses: slot by slot the bytes come back respelt (`Schema.Respelt`).  A row
that was read is in normal form (`Schema.normalize_of_decode`), so it is read from the
new bytes as it was read from the old ones.

Main statement: `decoding_is_exact`.
-/
import NfcTag.Proofs.Field.Bytes
import NfcTag.Proofs.Payload
import NfcTag.Proofs.Schema.Order

namespace NfcTag

set_option autoImplicit false

namespace Schema

variable {schema : Schema} {nan : NanChoice} {before after buf : Bytes} {kept : Row schema.wire}

/-- The bytes `after` are what the fields write for what they read from the bytes
`before`. -/
structure Respelt (schema : Schema) (nan : NanChoice) (before after : Bytes) : Prop where
  length_eq : after.length = before.length
  slot_eq : ∀ column place, (column, place) ∈ schema.slots →
    Span.bytes ⟨place, column.field.size⟩ after =
      column.field.respell nan place (Span.bytes ⟨place, column.field.size⟩ before)
  /-- Whatever the platform chooses, a NaN comes back as a NaN. -/
  single_isNan : ∀ key place, (⟨key, .f32⟩, place) ∈ schema.slots →
    Interchange.single.IsNan (BigEndian.decode (Span.bytes ⟨place, 4⟩ before)) →
      Interchange.single.IsNan (BigEndian.decode (Span.bytes ⟨place, 4⟩ after))
  double_isNan : ∀ key place, (⟨key, .f64⟩, place) ∈ schema.slots →
    Interchange.double.IsNan (BigEndian.decode (Span.bytes ⟨place, 8⟩ before)) →
      Interchange.double.IsNan (BigEndian.decode (Span.bytes ⟨place, 8⟩ after))
  /-- There are no bytes besides those of the fields. -/
  covered : ∀ i < before.length, ∃ column place,
    (column, place) ∈ schema.slots ∧ place ≤ i ∧ i < place + column.field.size

/-- Where all fields are exact, no byte changes. -/
theorem Respelt.eq_of_isExact (respelt : schema.Respelt nan before after)
    (exact : ∀ column ∈ schema, column.field.IsExact) : after = before := by
  apply List.ext_getElem?
  intro i
  by_cases inside : i < before.length
  · obtain ⟨column, place, slot, behind, ahead⟩ := respelt.covered i inside
    have same := respelt.slot_eq column place slot
    rw [Field.respell_of_isExact (exact column (mem_of_slot slot))] at same
    have byte := congrArg (·[i - place]?) same
    have among : i - place < column.field.size := by omega
    have back : place + (i - place) = i := by omega
    simpa only [Span.getElem?_bytes, among, back] using byte
  · have width := respelt.length_eq
    rw [List.getElem?_eq_none (by omega), List.getElem?_eq_none (by omega)]

theorem cells_of_decode (read : schema.decode buf = .ok kept) :
    schema.size ≤ buf.length ∧ kept.cells = Cell.decodeAll schema.wire buf := by
  rw [decode] at read
  split at read
  · cases read
  · rename_i enough
    cases read
    exact ⟨Nat.le_of_not_lt enough, rfl⟩

/-- In its slot, a value that was read is written as its own bytes, respelt. -/
theorem bytes_slot_encodeAs (nan : NanChoice) (distinct : schema.Distinct)
    (whole : buf.length = schema.size) (read : schema.decode buf = .ok kept) {row : Row schema}
    (same : row.SameValues kept) {column : Column} {place : Nat}
    (slot : (column, place) ∈ schema.slots) :
    Span.bytes ⟨place, column.field.size⟩ (row.encodeAs nan) =
      column.field.respell nan place (Span.bytes ⟨place, column.field.size⟩ buf) := by
  obtain ⟨value, found, holds⟩ := row.find?_slotAs nan distinct slot
  rw [same, decode_slot distinct read slot] at found
  cases found
  have inside := slot_le_size slot
  have enough : column.field.size ≤ (buf.drop place).length := by
    rw [List.length_drop]
    omega
  rw [holds.bytes_eq, Field.encodeAs_decode_front nan place _ enough]
  rfl

/-- A row that was read is written as the bytes that it was read from, respelt. -/
theorem respelt_encodeAs (nan : NanChoice) (distinct : schema.Distinct)
    (whole : buf.length = schema.size) (read : schema.decode buf = .ok kept) {row : Row schema}
    (same : row.SameValues kept) : schema.Respelt nan buf (row.encodeAs nan) where
  length_eq := (row.length_encodeAs nan).trans whole.symm
  slot_eq _ _ slot := bytes_slot_encodeAs nan distinct whole read same slot
  single_isNan key place slot isNan := by
    have bytes : Span.bytes ⟨place, 4⟩ (row.encodeAs nan) = Field.f32.respell nan place _ :=
      bytes_slot_encodeAs nan distinct whole read same slot
    rw [bytes]
    exact Field.isNan_respell_single isNan
  double_isNan key place slot isNan := by
    have bytes : Span.bytes ⟨place, 8⟩ (row.encodeAs nan) = Field.f64.respell nan place _ :=
      bytes_slot_encodeAs nan distinct whole read same slot
    rw [bytes]
    exact Field.isNan_respell_double isNan
  covered i inside := exists_slot (by rwa [whole] at inside)

end Schema

theorem Cell.map_normalize_decodeAll {columns : List Column} {bytes : Bytes}
    (enough : Schema.extent columns ≤ bytes.length) :
    (decodeAll columns bytes).map normalize = decodeAll columns bytes := by
  induction columns generalizing bytes with
  | nil => rfl
  | cons column columns ih =>
      have total : column.field.size + Schema.extent columns ≤ bytes.length := enough
      have rest : Schema.extent columns ≤ (bytes.drop column.field.size).length := by
        rw [List.length_drop]
        omega
      have first := column.field.normalize_decode (show column.field.size ≤ bytes.length by omega)
      rw [decodeAll, List.map_cons, ih rest, normalize, decode, first]

/-- A row that was read is in normal form. -/
theorem Schema.normalize_of_decode {schema : Schema} {buf : Bytes} {kept : Row schema.wire}
    (read : schema.decode buf = .ok kept) : kept.normalize = kept := by
  obtain ⟨enough, cells⟩ := cells_of_decode read
  rw [Row.mk.injEq]
  show kept.cells.map Cell.normalize = kept.cells
  rw [cells, Cell.map_normalize_decodeAll enough]

namespace Payload

/-- What the bytes `buf` are to a payload. -/
structure Decodes (payload : Payload) (buf : Bytes) : Prop where
  /-- Only the wrong length is refused. -/
  refused_iff : ∀ report, (payload.decode buf).mapError Fault.report = .error report ↔
    buf.length ≠ payload.size ∧
      report = .tag Status.wrongLength.code
        s!"{payload.name} payload must be {payload.size} bytes, got {buf.length}"
  /-- A row that was decoded can be handed back; whichever NaNs the platform stores, it is
  written as the same bytes respelt, and they are decoded to the same row. -/
  encode_eq : buf.length = payload.size → ∃ kept, payload.decode buf = .ok kept ∧
    (∃ row : Row payload.schema, row.SameValues kept) ∧
    ∀ nan, ∀ row : Row payload.schema, row.SameValues kept →
      payload.schema.Respelt nan buf (payload.encodeAs nan row) ∧
        payload.decode (payload.encodeAs nan row) = .ok kept
  /-- Without truth values and floating point, no other bytes are the same row. -/
  injective : (∀ column ∈ payload.schema, column.field.IsExact) → ∀ other kept,
    payload.decode buf = .ok kept → payload.decode other = .ok kept → other = buf

variable {payload : Payload} {buf : Bytes} {kept : Row payload.schema.wire}

theorem length_of_decode (decoded : payload.decode buf = .ok kept) :
    buf.length = payload.size ∧ payload.schema.decode buf = .ok kept := by
  rw [decode] at decoded
  split at decoded
  · exact ⟨‹_›, decoded⟩
  · cases decoded

theorem decode_eq_error_iff {fault : Fault} :
    payload.decode buf = .error fault ↔
      buf.length ≠ payload.size ∧
        fault = .payloadLength payload.name payload.size buf.length := by
  constructor
  · intro refused
    have wrong : buf.length ≠ payload.size := by
      intro right
      rw [decode_of_length right] at refused
      cases refused
    rw [decode_of_length_ne wrong] at refused
    cases refused
    exact ⟨wrong, rfl⟩
  · rintro ⟨wrong, rfl⟩
    exact decode_of_length_ne wrong

theorem decode_encodeAs_of_sameValues (nan : NanChoice) (distinct : payload.schema.Distinct)
    (decoded : payload.decode buf = .ok kept) {row : Row payload.schema}
    (same : row.SameValues kept) : payload.decode (payload.encodeAs nan row) = .ok kept := by
  have normal := Schema.normalize_of_decode (length_of_decode decoded).2
  rw [decode_encodeAs_row, Except.ok.injEq]
  apply Row.eq_of_sameValues distinct.wire
  intro key
  calc row.normalize.wire.find? key = (row.find? key).map Cell.normalize := by
        rw [Row.find?_wire, Row.find?_normalize]
    _ = (kept.find? key).map Cell.normalize := by rw [same]
    _ = kept.normalize.find? key := (kept.find?_normalize key).symm
    _ = kept.find? key := by rw [normal]

/-- **A payload's bytes are decoded exactly**: those of its length and no others, to
a row that is written as them again.  Only truth values lose something of their bytes,
and NaNs are stored as the platform chooses. -/
theorem decoding_is_exact (payload : Payload) (distinct : payload.schema.Distinct) (buf : Bytes) :
    payload.Decodes buf where
  refused_iff _ := mapError_report_eq_error_iff fun _ => decode_eq_error_iff
  encode_eq right := by
    have decoded := decode_of_length right
    refine ⟨_, decoded, Row.exists_sameValues distinct _, fun nan row same => ⟨?_, ?_⟩⟩
    · exact Schema.respelt_encodeAs nan distinct right (length_of_decode decoded).2 same
    · exact decode_encodeAs_of_sameValues nan distinct decoded same
  injective exact other kept decoded otherDecoded := by
    obtain ⟨right, read⟩ := length_of_decode decoded
    obtain ⟨otherRight, otherRead⟩ := length_of_decode otherDecoded
    obtain ⟨row, same⟩ := Row.exists_sameValues distinct kept
    have back := Schema.respelt_encodeAs .canonical distinct right read same
    have otherBack := Schema.respelt_encodeAs .canonical distinct otherRight otherRead same
    exact (otherBack.eq_of_isExact exact).symm.trans (back.eq_of_isExact exact)

/-- A NaN with a sign and a payload comes back as some NaN, and a truth value of seven as
one. -/
theorem decoding_is_exact_of_heater :
    let payload : Payload := ⟨"heater", [⟨"b", .bool⟩, ⟨"2", .f32⟩, ⟨"10", .u16⟩]⟩
    let buf : Bytes := [0xff, 0xc0, 0x00, 0x01, 0x12, 0x34, 0x07]
    payload.schema.Distinct ∧ ∃ kept, payload.decode buf = .ok kept ∧
      ∃ row : Row payload.schema, row.SameValues kept ∧ ∀ nan,
        Interchange.single.IsNan
          (BigEndian.decode (Span.bytes ⟨0, 4⟩ (payload.encodeAs nan row))) ∧
        Span.bytes ⟨4, 2⟩ (payload.encodeAs nan row) = [0x12, 0x34] ∧
        Span.bytes ⟨6, 1⟩ (payload.encodeAs nan row) = [0x01] := by
  intro payload buf
  have distinct : payload.schema.Distinct := by decide
  have ordered : payload.schema.InWireOrder ([⟨"2", .f32⟩, ⟨"10", .u16⟩] ++ [⟨"b", .bool⟩]) := by
    refine .parts (by decide) ⟨[2, 10], by decide⟩ (fun column member => ?_) (by decide)
    rw [List.mem_singleton.mp member]
    exact isName_of_mem 'b' (by decide) (by decide)
  have wire : payload.schema.wire = [⟨"2", .f32⟩, ⟨"10", .u16⟩, ⟨"b", .bool⟩] :=
    (ordered.eq_wire distinct).symm
  have slots : payload.schema.slots = [(⟨"2", .f32⟩, 0), (⟨"10", .u16⟩, 4), (⟨"b", .bool⟩, 6)] := by
    rw [Schema.slots, wire]
    rfl
  have whole : buf.length = payload.size := by
    rw [size, Schema.size, wire]
    rfl
  obtain ⟨kept, decoded, ⟨row, same⟩, written⟩ :=
    (decoding_is_exact payload distinct buf).encode_eq whole
  refine ⟨distinct, kept, decoded, row, same, fun nan => ?_⟩
  obtain ⟨-, bytes, isNan, -, -⟩ := (written nan row same).1
  rw [slots] at bytes isNan
  refine ⟨?_, ?_, ?_⟩
  · exact isNan "2" 0 (by decide) (by decide)
  · exact bytes ⟨"10", .u16⟩ 4 (by decide)
  · exact bytes ⟨"b", .bool⟩ 6 (by decide)

/-- A platform whose NaNs keep their patterns writes these bytes again as they are, so a
NaN need not come back as the canonical one. -/
theorem kept_nan_is_not_canonical :
    let payload : Payload := ⟨"reading", [⟨"x", .f64⟩]⟩
    let buf : Bytes := [0xff, 0xf8, 0x00, 0x00, 0x00, 0x00, 0x00, 0x01]
    let nan := NanChoice.keeping fun _ => 0xfff8000000000001
    payload.schema.Distinct ∧ ∃ kept, payload.decode buf = .ok kept ∧
      ∃ row : Row payload.schema, row.SameValues kept ∧ payload.encodeAs nan row = buf ∧
        payload.encodeAs nan row ≠ [0x7f, 0xf8, 0x00, 0x00, 0x00, 0x00, 0x00, 0x00] := by
  intro payload buf nan
  have distinct : payload.schema.Distinct := by decide
  have wire : payload.schema.wire = [⟨"x", .f64⟩] :=
    List.perm_singleton.mp (perm_wireOrder Column.key payload.schema)
  have whole : buf.length = payload.size := by
    rw [size, Schema.size, wire]
    rfl
  have decoded := decode_of_length whole
  obtain ⟨row, same⟩ := Row.exists_sameValues distinct _
  have respelt :=
    Schema.respelt_encodeAs nan distinct whole (length_of_decode decoded).2 same
  have slot : (⟨"x", .f64⟩, 0) ∈ payload.schema.slots := by
    rw [Schema.slots, wire]
    exact List.mem_cons_self
  have written : payload.encodeAs nan row = buf := by
    have width : (payload.encodeAs nan row).length = 8 := respelt.length_eq
    have bytes : Span.bytes ⟨0, 8⟩ (payload.encodeAs nan row) =
        Field.f64.respell nan 0 buf := respelt.slot_eq _ _ slot
    rw [Span.bytes, List.drop_zero, List.take_of_length_le (Nat.le_of_eq width)] at bytes
    exact bytes.trans (by decide +kernel)
  exact ⟨distinct, _, decoded, row, same, written, by rw [written]; decide⟩

end Payload

end NfcTag
