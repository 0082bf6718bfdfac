/-
# NfcTag.Proofs.Tlv.Reencode -- writing a block that was found

A block may stand in memory with three bytes for a length that fits one.  Written again
its length takes as few bytes as it can, so such a block gets two bytes shorter, and any
other one is written as the bytes that it was read from.  A value that lies in the memory
is never too long for that: what a length field can declare is what can be written
(`HeaderAt.length_le`).

Main statement: `reencoding_never_grows`, for every block that a look-up answers and
whose value lies in the memory.
-/
import NfcTag.Proofs.Tlv.Filled
import NfcTag.Proofs.Tlv.Items

namespace NfcTag.Tlv

set_option autoImplicit false

variable {memory : Bytes} {place : Nat} {location : Location}

/-! ## Blocks as they stand -/

/-- The block whose header stands at `place`, from its type to the end of its value. -/
def Location.block (location : Location) (place : Nat) : Span :=
  ⟨place, location.span.stop - place⟩

/-- The length field behind the type at `place` has three bytes. -/
def LongFormAt (memory : Bytes) (place : Nat) : Prop := memory[place + 1]? = some longForm

/-- The length takes three bytes although it fits one. -/
def LongByChoice (memory : Bytes) (place length : Nat) : Prop :=
  LongFormAt memory place ∧ length < 255

instance (memory : Bytes) (place : Nat) : Decidable (LongFormAt memory place) :=
  inferInstanceAs (Decidable (_ = _))

instance (memory : Bytes) (place length : Nat) : Decidable (LongByChoice memory place length) :=
  inferInstanceAs (Decidable (_ ∧ _))

/-- The bytes of a length field that declares `length`, in one form or the other. -/
inductive FieldOf (memory : Bytes) (place length : Nat) : Bytes → Prop where
  | short (form : ¬ LongFormAt memory place) (brief : length < 255) :
      FieldOf memory place length (BigEndian.encode 1 length)
  | long (form : LongFormAt memory place) :
      FieldOf memory place length (longForm :: BigEndian.encode 2 length)

/-- A header and the value that it declares are the bytes of the block. -/
theorem HeaderAt.exists_field (header : HeaderAt memory place location) :
    ∃ field, FieldOf memory place location.length field ∧
      (location.block place).bytes memory =
        location.type :: (field ++ location.span.bytes memory) := by
  cases header with
  | @short type length first block second brief =>
      have form : ¬ LongFormAt memory place := by
        rw [LongFormAt, second, Option.some.injEq]
        exact brief
      have small : length.toNat < 255 := by
        have byte := length.toNat_lt
        have other : length.toNat ≠ longForm.toNat := mt UInt8.toNat_inj.mp brief
        simp only [longForm, UInt8.reduceToNat] at other
        omega
      have field : BigEndian.encode 1 length.toNat = [length] := by
        rw [← BigEndian.decode_singleton length]
        exact BigEndian.encode_decode [length]
      refine ⟨BigEndian.encode 1 length.toNat, .short form small, ?_⟩
      have width : place + 2 + length.toNat - place = length.toNat + 2 := by omega
      simp only [Location.block, Location.span, Span.stop, Span.bytes, width, field]
      rw [drop_eq_cons first, drop_eq_cons second]
      rfl
  | @long type high low first block second third fourth unreserved =>
      have field : BigEndian.encode 2 (high.toNat * 256 + low.toNat) = [high, low] := by
        rw [← BigEndian.decode_pair]
        exact BigEndian.encode_decode [high, low]
      refine ⟨longForm :: BigEndian.encode 2 (high.toNat * 256 + low.toNat), .long second, ?_⟩
      have width : place + 4 + (high.toNat * 256 + low.toNat) - place =
          high.toNat * 256 + low.toNat + 4 := by omega
      simp only [Location.block, Location.span, Span.stop, Span.bytes, width, field]
      rw [drop_eq_cons first, drop_eq_cons second, drop_eq_cons third, drop_eq_cons fourth]
      rfl

/-! ## Writing them again -/

/-- What is found, as a block to write. -/
def Location.entry (location : Location) (memory : Bytes) : Entry where
  type := Binary64.ofInt location.type.toNat
  value := location.span.bytes memory

theorem Location.toByte_entry (location : Location) (memory : Bytes) :
    (location.entry memory).type.toByte = location.type := by
  rw [entry, Binary64.toByte_ofInt]

theorem length_value (inside : location.span.stop ≤ memory.length) :
    (location.entry memory).value.length = location.length := by
  have clamped := location.span.length_bytes memory
  simp only [Location.span, Span.stop] at clamped inside
  simp only [Location.entry, Location.span, clamped]
  omega

theorem bytes_entry (inside : location.span.stop ≤ memory.length) :
    (location.entry memory).bytes =
      location.type :: (encodeLength location.length ++ location.span.bytes memory) := by
  rw [Entry.bytes, length_value inside, location.toByte_entry]
  rfl

theorem FieldOf.length_eq {length : Nat} {field : Bytes}
    (declares : FieldOf memory place length field) :
    field.length = (encodeLength length).length +
      if LongByChoice memory place length then 2 else 0 := by
  rw [length_encodeLength]
  cases declares with
  | short form brief => simp [LongByChoice, form, brief]
  | long form => by_cases brief : length < 255 <;> simp [LongByChoice, form, brief]

theorem FieldOf.eq_iff {length : Nat} {field : Bytes}
    (declares : FieldOf memory place length field) :
    encodeLength length = field ↔ ¬ LongByChoice memory place length := by
  constructor
  · rintro rfl wasteful
    have longer := declares.length_eq
    rw [if_pos wasteful] at longer
    omega
  · intro needed
    cases declares with
    | short form brief => exact if_pos brief
    | long form => exact if_neg fun brief => needed ⟨form, brief⟩

/-- What comes of writing a block again that was found for `type`. -/
structure Reencoded (memory : Bytes) (type : Binary64) (place : Nat) (location : Location)
    (again : Bytes) : Prop where
  written : fillBlock (location.entry memory) = .ok again
  /-- The value is found in the new bytes, and nothing stands behind it. -/
  found : ∃ moved, find? again type = some moved ∧ moved.type = location.type ∧
    moved.span.Holds again (location.span.bytes memory) ∧ moved.span.stop = again.length
  /-- They are the old ones if these have the short form, or need the long one. -/
  eq_iff : again = (location.block place).bytes memory ↔
    ¬ LongFormAt memory place ∨ 255 ≤ location.length
  /-- Any other block gets shorter. -/
  size_eq : ((location.block place).bytes memory).length =
    again.length + if LongByChoice memory place location.length then 2 else 0

theorem HeaderAt.reencoded (header : HeaderAt memory place location) {type : Binary64}
    (named : Names type location.type) (inside : location.span.stop ≤ memory.length) :
    Reencoded memory type place location (location.entry memory).bytes := by
  obtain ⟨field, declares, stands⟩ := header.exists_field
  have fits : (location.entry memory).Fits := by
    rw [Entry.Fits, length_value inside]
    exact header.length_le
  have stored := location.toByte_entry memory
  have ordinary : (location.entry memory).Ordinary := by
    rw [Entry.Ordinary, stored]
    exact header.block
  constructor
  case written => rw [fillBlock_of_fits fits]
  case found =>
    have first :=
      @findByte?_items_append [] (location.entry memory) (by simp) (by simp) fits ordinary []
    have value := (location.entry memory).holds_value [] []
    have stop := (location.entry memory).length_bytes
    simp only [List.flatMap_nil, List.nil_append, List.append_nil, List.length_nil,
      Nat.zero_add, stored] at first value
    rw [← find?_of_names named] at first
    exact ⟨_, first, rfl, value, stop.symm⟩
  case eq_iff =>
    rw [bytes_entry inside, stands, List.cons_inj_right, List.append_left_inj, declares.eq_iff,
      LongByChoice, not_and_or, Nat.not_lt]
  case size_eq =>
    rw [bytes_entry inside, stands, List.length_cons, List.length_cons, List.length_append,
      List.length_append, declares.length_eq]
    omega

/-- **A block that was found can be written again**, to a block of the same value that
takes as many bytes or two fewer. -/
theorem reencoding_never_grows {type : Binary64} (found : find? memory type = some location)
    (inside : location.span.stop ≤ memory.length) :
    ∃ place again, Reaches memory type 0 place ∧ HeaderAt memory place location ∧
      Reencoded memory type place location again := by
  obtain ⟨place, reached, header, named⟩ := find?_eq_some_iff.mp found
  exact ⟨place, _, reached, header, header.reencoded named inside⟩

/-- Behind padding and another block, three bytes for a length of two. -/
theorem reencoding_never_grows_wasteful :
    let memory : Bytes :=
      [0x00, 0x01, 0x01, 0xaa, 0x03, 0xff, 0x00, 0x02, 0xd1, 0x00, 0xfe]
    let type := Binary64.ofInt ndefMessage.toNat
    let location : Location := ⟨ndefMessage, 8, 2⟩
    find? memory type = some location ∧ location.span.stop ≤ memory.length ∧
      ∃ place again, Reaches memory type 0 place ∧ HeaderAt memory place location ∧
        Reencoded memory type place location again := by
  intro memory type location
  have found : find? memory type = some location := by
    rw [find?_of_names (names_ofInt ndefMessage)]
    decide
  have inside : location.span.stop ≤ memory.length := by decide
  exact ⟨found, inside, reencoding_never_grows found inside⟩

end NfcTag.Tlv
