/-
# NfcTag.Proofs.Message.Unambiguous -- what the bytes of a message tell

Reading a message back does not tell all that went into it: a record with an
empty id is read like one without.  The bytes do tell it, by the flag for the id
length.  A layout is the only one at the front of its bytes, whatever follows
(`Layout.append_inj`), so layouts back to back are known one by one
(`eq_of_flatMap_bytes`), and with them the contents that were written
(`layouts_eq_iff`).

Main statement: `bytes_determine_records`.
-/
import NfcTag.Proofs.Bytes.Rows
import NfcTag.Proofs.Message.Layouts

namespace NfcTag

set_option autoImplicit false

open Record (Contents Layout Position)

namespace Record

/-! ## Layouts -/

theorem Layout.bytes_ne_nil (layout : Layout) : layout.bytes ≠ [] := by
  have positive : 0 < layout.bytes.length := by
    rw [layout.length_bytes]
    exact layout.header.recordSize_pos
  exact List.ne_nil_of_length_pos positive

/-- Two layouts that begin the same bytes are one, and the same follows them. -/
theorem Layout.append_inj {layout other : Layout} {rest otherRest : Bytes}
    (same : layout.bytes ++ rest = other.bytes ++ otherRest) :
    layout = other ∧ rest = otherRest := by
  have headers : layout.header = other.header := by
    have read := layout.read?_bytes_append rest
    rw [same, other.read?_bytes_append] at read
    exact (Option.some.inj read).symm
  -- The header gives all lengths, so the contents are cut at the same places.
  simp only [bytes, headers, List.append_assoc] at same
  have contents := List.append_cancel_left same
  simp only [header, Header.mk.injEq] at headers
  obtain ⟨flags, typeLength, payloadLength, idLength⟩ := headers
  obtain ⟨type, contents⟩ := List.append_inj contents typeLength
  obtain ⟨id, contents⟩ := List.append_inj contents idLength
  obtain ⟨payload, rests⟩ := List.append_inj contents payloadLength
  refine ⟨?_, rests⟩
  cases layout
  cases other
  simp only [Layout.mk.injEq]
  exact ⟨flags, type, id, payload⟩

theorem eq_of_flatMap_bytes {layouts others : List Layout}
    (same : layouts.flatMap Layout.bytes = others.flatMap Layout.bytes) : layouts = others := by
  have equal : List.Forall₂ (· = ·) layouts others :=
    Bytes.forall₂_of_flatMap_eq Layout.bytes_ne_nil
      (fun _ _ _ _ (_ : True) (_ : True) same => Layout.append_inj same)
      (fun _ _ => trivial) (fun _ _ => trivial) same
  rwa [List.forall₂_eq_eq_eq] at equal

/-! ## Contents -/

/-- The contents agree in all that is written of them: the low three bits of the
format's 32, the type, the payload, and the id, of which an empty one is not none. -/
structure Contents.Agrees (contents other : Contents) : Prop where
  tnf : contents.tnf.truncate % 0x100000000 % 8 = other.tnf.truncate % 0x100000000 % 8
  type : contents.type = other.type
  id : contents.id = other.id
  payload : contents.payload = other.payload

theorem ofNumber_eq_iff {v w : Binary64} :
    Tnf.ofNumber v = Tnf.ofNumber w ↔
      v.truncate % 0x100000000 % 8 = w.truncate % 0x100000000 % 8 := by
  rw [← Tnf.code_ofNumber, ← Tnf.code_ofNumber, Int.natCast_inj]
  constructor
  · intro same
    rw [same]
  · intro same
    rw [← Tnf.ofCode_code (Tnf.ofNumber v), same, Tnf.ofCode_code]

/-- Contents are written as one layout exactly if they stand at the same position and
agree. -/
theorem Contents.layout_eq_iff {contents other : Contents} {position otherPosition : Position}
    {fits : contents.Fits} {otherFits : other.Fits} :
    contents.layout position fits = other.layout otherPosition otherFits ↔
      position = otherPosition ∧ contents.Agrees other := by
  simp only [layout, Layout.mk.injEq]
  constructor
  · rintro ⟨flags, type, id, payload⟩
    simp only [Contents.flags, Flags.mk.injEq] at flags
    obtain ⟨messageBegin, messageEnd, -, -, idLength, tnf⟩ := flags
    refine ⟨?_, ofNumber_eq_iff.mp tnf, type, ?_, payload⟩
    · cases position
      cases otherPosition
      simp only [Position.mk.injEq]
      exact ⟨messageBegin, messageEnd⟩
    · -- The flag tells whether there is an id, and the bytes tell which.
      cases given : contents.id <;> cases otherGiven : other.id <;> simp_all
  · rintro ⟨rfl, agrees⟩
    simp only [Contents.flags, ofNumber_eq_iff.mpr agrees.tnf, agrees.type, agrees.id,
      agrees.payload, and_self]

end Record

namespace Message

theorem layouts_eq_iff {records others : List Contents} {isFirst : Bool}
    {fits : ∀ contents ∈ records, contents.Fits} {otherFits : ∀ other ∈ others, other.Fits} :
    layouts isFirst records fits = layouts isFirst others otherFits ↔
      List.Forall₂ Contents.Agrees records others := by
  induction records generalizing isFirst others with
  | nil => cases others <;> simp [layouts]
  | cons contents records ih =>
      cases others with
      | nil => simp [layouts]
      | cons other others =>
          rw [layouts, layouts, List.cons.injEq, Contents.layout_eq_iff, ih, List.forall₂_cons]
          constructor
          · rintro ⟨⟨-, agrees⟩, rest⟩
            exact ⟨agrees, rest⟩
          · rintro ⟨agrees, rest⟩
            -- As many records follow in both, so both are the last one or neither is.
            have ends : records.isEmpty = others.isEmpty := by
              cases rest <;> rfl
            exact ⟨⟨by rw [ends], agrees⟩, rest⟩

/-- **Two messages have the same bytes exactly if they agree record by record**, and
no record begins the bytes of another one. -/
theorem bytes_determine_records :
    (∀ (records others : List Contents) (bytes otherBytes : Bytes),
      encode records = .ok bytes → encode others = .ok otherBytes →
      (∀ contents ∈ records, contents.payload.length < 0x100000000) →
      (∀ other ∈ others, other.payload.length < 0x100000000) →
      (bytes = otherBytes ↔ List.Forall₂ Contents.Agrees records others)) ∧
    ∀ (contents other : Contents) (position otherPosition : Position) (bytes otherBytes : Bytes),
      Record.encode contents position = .ok bytes →
      Record.encode other otherPosition = .ok otherBytes →
      contents.payload.length < 0x100000000 → other.payload.length < 0x100000000 →
      bytes <+: otherBytes → bytes = otherBytes := by
  constructor
  · intro records others bytes otherBytes written otherWritten small otherSmall
    obtain ⟨nonempty, fits⟩ := fits_of_encode written small
    obtain ⟨otherNonempty, otherFits⟩ := fits_of_encode otherWritten otherSmall
    obtain rfl := Except.ok.inj (written.symm.trans (encode_eq_flatMap nonempty fits))
    obtain rfl :=
      Except.ok.inj (otherWritten.symm.trans (encode_eq_flatMap otherNonempty otherFits))
    have agree_iff : layouts true records fits = layouts true others otherFits ↔
        List.Forall₂ Contents.Agrees records others := layouts_eq_iff
    rw [← agree_iff]
    exact ⟨Record.eq_of_flatMap_bytes, fun same => by rw [same]⟩
  · rintro contents other position otherPosition bytes otherBytes written otherWritten small
      otherSmall ⟨rest, longer⟩
    have fits := Record.fits_of_encode written small
    have otherFits := Record.fits_of_encode otherWritten otherSmall
    obtain rfl := Except.ok.inj (written.symm.trans (Record.encode_eq_layout fits position))
    obtain rfl :=
      Except.ok.inj (otherWritten.symm.trans (Record.encode_eq_layout otherFits otherPosition))
    rw [← List.append_nil (other.layout otherPosition otherFits).bytes] at longer
    rw [(Layout.append_inj longer).1]

/-- An empty id is not none, although readers see none in both. -/
theorem bytes_determine_records_empty_id :
    let bare : Contents := ⟨Binary64.ofInt 11, [0x61], none, []⟩
    let named : Contents := ⟨Binary64.ofInt (-5), [0x61], some [], []⟩
    encode [bare] = .ok [0xd3, 0x01, 0x00, 0x61] ∧
      encode [named] = .ok [0xdb, 0x01, 0x00, 0x00, 0x61] ∧
      ¬ List.Forall₂ Contents.Agrees [bare] [named] := by
  intro bare named
  have written : encode [bare] = .ok [0xd3, 0x01, 0x00, 0x61] := by decide +kernel
  have otherWritten : encode [named] = .ok [0xdb, 0x01, 0x00, 0x00, 0x61] := by decide +kernel
  have determined := bytes_determine_records.1 _ _ _ _ written otherWritten
    (by decide +kernel) (by decide +kernel)
  refine ⟨written, otherWritten, fun agree => ?_⟩
  have same := determined.mpr agree
  exact absurd same (by decide)

end Message

end NfcTag
