/-
# NfcTag.Proofs.Record.RoundTrip -- reading back a written record

Contents whose lengths fit a header are written as a `Layout`
(`encode_eq_layout`), and a layout is read wherever it stands.  `Shows` compares
a record found in a buffer with contents: the format is what three bits keep of
a number, the spans hold the bytes, and an empty id counts as none.

Main statement: `parse_encode_in_context`, reading back between any other bytes.
-/
import NfcTag.Proofs.Record.Layout
import NfcTag.Record.Encode

namespace NfcTag

set_option autoImplicit false

/-- The format that is kept of a number: the low three bits of its 32. -/
theorem Tnf.code_ofNumber (v : Binary64) :
    ((Tnf.ofNumber v).code : Int) = v.truncate % 0x100000000 % 8 := by
  rw [Tnf.ofNumber, Tnf.code_ofCode]
  omega

namespace Record

/-! ## Contents and the layout they are written as -/

/-- The contents of which every length has a field. -/
structure Contents.Fits (contents : Contents) : Prop where
  type : contents.type.length ≤ maxByteLength
  id : ∀ id, contents.id = some id → id.length ≤ maxByteLength
  payload : contents.payload.length < 0x100000000

theorem Contents.Fits.length_id {contents : Contents} (fits : contents.Fits) :
    (contents.id.getD []).length ≤ maxByteLength := by
  cases given : contents.id with
  | none => exact Nat.zero_le _
  | some id => exact fits.id id given

theorem Contents.Fits.header {contents : Contents} (fits : contents.Fits) (position : Position) :
    Header.Fits ⟨contents.flags position, contents.type.length, contents.payload.length,
      (contents.id.getD []).length⟩ where
  type := Nat.lt_succ_of_le fits.type
  payload := by
    have total := fits.payload
    simp only [flags, Flags.payloadLengthSize, decide_eq_true_eq]
    split
    · exact Nat.lt_succ_of_le ‹_›
    · exact total
  id := by
    have short := fits.length_id
    cases given : contents.id with
    | none =>
        simp only [flags, Flags.idLengthSize, given]
        exact BigEndian.modulus_pos 0
    | some id =>
        rw [given] at short
        simp only [flags, Flags.idLengthSize, given]
        exact Nat.lt_succ_of_le short

/-- The record that contents are written as. -/
def Contents.layout (contents : Contents) (position : Position) (fits : contents.Fits) :
    Layout where
  flags := contents.flags position
  type := contents.type
  id := contents.id.getD []
  payload := contents.payload
  fits := fits.header position

theorem encode_eq_layout {contents : Contents} (fits : contents.Fits) (position : Position) :
    encode contents position = .ok (contents.layout position fits).bytes := by
  have same : contents.header position = (contents.layout position fits).header := by
    simp only [Contents.header, Layout.header, Contents.layout, Header.mk.injEq, true_and]
    cases contents.id <;> rfl
  rw [encode, if_neg (Nat.not_lt.mpr fits.type), if_neg (Nat.not_lt.mpr fits.length_id), same]
  simp only [Layout.bytes, Contents.layout, List.append_assoc]

/-! The lengths of a record in a buffer are such lengths. -/

theorem Layout.type_le (layout : Layout) : layout.type.length ≤ maxByteLength :=
  Nat.le_of_lt_succ layout.fits.type

theorem Layout.id_le (layout : Layout) : layout.id.length ≤ maxByteLength := by
  apply Nat.le_of_lt_succ
  apply Nat.lt_of_lt_of_le layout.fits.id
  simp only [Flags.idLengthSize]
  split <;> decide

theorem Layout.payload_lt (layout : Layout) : layout.payload.length < 0x100000000 := by
  apply Nat.lt_of_lt_of_le layout.fits.payload
  simp only [Flags.payloadLengthSize]
  split <;> decide

/-! ## What a reader sees of contents -/

/-- The record found in `buf` is one with these contents. -/
structure Shows (record : Record) (buf : Bytes) (contents : Contents) : Prop where
  tnf : (record.tnf.code : Int) = contents.tnf.truncate % 0x100000000 % 8
  type : record.type.Holds buf contents.type
  payload : record.payload.Holds buf contents.payload
  id_eq_none_iff : record.id = none ↔ contents.id = none ∨ contents.id = some []
  id : ∀ span, record.id = some span → ∃ id, contents.id = some id ∧ span.Holds buf id

theorem shows_layout {contents : Contents} (fits : contents.Fits) (position : Position)
    (behind : Bytes) :
    (contents.layout position fits).parsed.record.Shows
      ((contents.layout position fits).bytes ++ behind) contents where
  tnf := Tnf.code_ofNumber contents.tnf
  type := Layout.holds_type _ behind
  payload := Layout.holds_payload _ behind
  id_eq_none_iff := by
    rw [Layout.id_eq_none_iff]
    cases given : contents.id <;> simp [Contents.layout, given]
  id := by
    intro span present
    have held := Layout.holds_id _ present behind
    cases given : contents.id with
    | none =>
        have absent := (Layout.id_eq_none_iff (contents.layout position fits)).mpr
          (by simp only [Contents.layout, given, Option.getD_none])
        rw [absent] at present
        cases present
    | some id =>
        have same : (contents.layout position fits).id = id := by
          simp only [Contents.layout, given, Option.getD_some]
        rw [same] at held
        exact ⟨id, rfl, held⟩

/-- A record that a slice shows is shown by the whole buffer, from further behind. -/
theorem Shows.of_slice {record : Record} {slice : Span} {buf : Bytes} {contents : Contents}
    (sliced : slice.stop ≤ buf.length) (seen : record.Shows (slice.bytes buf) contents) :
    (record.shift slice.offset).Shows buf contents where
  tnf := seen.tnf
  type := seen.type.of_slice sliced
  payload := seen.payload.of_slice sliced
  id_eq_none_iff := by rw [← seen.id_eq_none_iff, Record.shift, Option.map_eq_none_iff]
  id := by
    intro span present
    obtain ⟨unshifted, found, rfl⟩ := Option.map_eq_some_iff.mp present
    obtain ⟨id, given, held⟩ := seen.id unshifted found
    exact ⟨id, given, held.of_slice sliced⟩

theorem Shows.shift {record : Record} {buf : Bytes} {contents : Contents}
    (seen : record.Shows buf contents) (front behind : Bytes) :
    (record.shift front.length).Shows (front ++ (buf ++ behind)) contents := by
  have slice := Span.holds_middle front buf behind
  exact of_slice slice.inside (by rwa [slice.bytes_eq])

/-! ## The round trip -/

/-- **A written record is read back between any other bytes**, as its contents
and its whole length. -/
theorem parse_encode_in_context {contents : Contents} (fits : contents.Fits) (position : Position)
    (front behind : Bytes) :
    ∃ bytes record, encode contents position = .ok bytes ∧
      parse (front ++ bytes ++ behind) front.length = .ok ⟨record, bytes.length⟩ ∧
      record.Shows (front ++ bytes ++ behind) contents := by
  let layout := contents.layout position fits
  have seen : (layout.parsed.record.shift front.length).Shows
      (front ++ (layout.bytes ++ behind)) contents := by
    have here := shows_layout fits position []
    rw [List.append_nil] at here
    exact here.shift front behind
  refine ⟨layout.bytes, layout.parsed.record.shift front.length,
    encode_eq_layout fits position, ?_, ?_⟩
  · rw [List.append_assoc, parse_append, readFront_bytes_append, layout.length_bytes]
    rfl
  · rwa [List.append_assoc]

/-- The shortest payload that takes the long form, an id that is empty, and a
negative format. -/
theorem parse_encode_in_context_long :
    let contents : Contents := ⟨Binary64.ofInt (-5), [0x68, 0x3a], some [], List.replicate 256 0x2a⟩
    contents.Fits ∧
      ∃ bytes record, encode contents ⟨true, false⟩ = .ok bytes ∧
        parse ([0x00, 0xff] ++ bytes ++ [0xfe]) 2 = .ok ⟨record, bytes.length⟩ ∧
        record.Shows ([0x00, 0xff] ++ bytes ++ [0xfe]) contents := by
  intro contents
  have fits : contents.Fits :=
    { type := by decide
      id := fun id given => by cases given; decide
      payload := by rw [List.length_replicate]; decide }
  exact ⟨fits, parse_encode_in_context fits ⟨true, false⟩ [0x00, 0xff] [0xfe]⟩

end Record

end NfcTag
