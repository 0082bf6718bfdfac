/-
# NfcTag.Proofs.Tlv.Written -- blocks as they are written

Blocks whose values fit are written back to back (`encodeArea_eq_flatMap`).  A
scan reads the length field that was written and steps to the byte behind the
block, whatever bytes its value has (`blocksFrom_bytes_append`).
-/
import NfcTag.Proofs.Bytes.Holds
import NfcTag.Tlv.Scan

namespace NfcTag.Tlv

set_option autoImplicit false

/-! ## The bytes of blocks -/

/-- The length takes one byte or three. -/
theorem length_encodeLength (length : Nat) :
    (encodeLength length).length = if length < 255 then 1 else 3 := by
  rw [encodeLength]
  split <;> rename_i short <;> simp only [List.length_cons, BigEndian.length_encode]
  · exact (if_pos short).symm
  · exact (if_neg short).symm

namespace Entry

/-- The value is not too long for a length field. -/
def Fits (entry : Entry) : Prop := entry.value.length ≤ maxLength

/-- The type is not one of the two that are lone bytes. -/
def Ordinary (entry : Entry) : Prop :=
  entry.type.toByte ≠ null ∧ entry.type.toByte ≠ terminator

instance (entry : Entry) : Decidable entry.Fits := inferInstanceAs (Decidable (_ ≤ _))

instance (entry : Entry) : Decidable entry.Ordinary := inferInstanceAs (Decidable (_ ∧ _))

/-- The type, the length field and the value, one behind the other. -/
def bytes (entry : Entry) : Bytes :=
  entry.type.toByte :: (encodeLength entry.value.length ++ entry.value)

/-- How far the value is from the first byte. -/
def headerSize (entry : Entry) : Nat := 1 + (encodeLength entry.value.length).length

theorem length_bytes (entry : Entry) :
    entry.bytes.length = entry.headerSize + entry.value.length := by
  simp only [bytes, headerSize, List.length_cons, List.length_append]
  omega

theorem headerSize_eq (entry : Entry) :
    entry.headerSize = if entry.value.length < 255 then 2 else 4 := by
  rw [headerSize, length_encodeLength]
  split <;> rfl

theorem holds_value (entry : Entry) (front behind : Bytes) :
    Span.Holds ⟨front.length + entry.headerSize, entry.value.length⟩
      (front ++ (entry.bytes ++ behind)) entry.value := by
  have span := Span.holds_middle
    (front ++ entry.type.toByte :: encodeLength entry.value.length) entry.value behind
  rw [List.length_append, List.length_cons, Nat.add_comm _ 1] at span
  simp only [bytes, List.append_assoc, List.cons_append] at span ⊢
  exact span

end Entry

theorem encode_eq_bytes {entry : Entry} (fits : entry.Fits) : encode entry = .ok entry.bytes := by
  rw [encode, if_neg (Nat.not_lt.mpr fits)]
  rfl

theorem encodeAll_eq_flatMap {entries : List Entry} (fits : ∀ entry ∈ entries, entry.Fits) :
    encodeAll entries = .ok (entries.flatMap Entry.bytes) := by
  induction entries with
  | nil => rfl
  | cons entry entries ih =>
      rw [encodeAll, encode_eq_bytes (fits entry List.mem_cons_self),
        ih fun entry member => fits entry (List.mem_cons_of_mem _ member)]
      rfl

/-- Blocks that fit are never refused, and lie back to back in front of the terminator. -/
theorem encodeArea_eq_flatMap {entries : List Entry} (fits : ∀ entry ∈ entries, entry.Fits) :
    encodeArea entries = .ok (entries.flatMap Entry.bytes ++ [terminator]) := by
  rw [encodeArea, encodeAll_eq_flatMap fits]
  rfl

/-! ## Stepping over them -/

theorem lengthField?_encodeLength_append {length : Nat} (fits : length ≤ maxLength)
    (rest : Bytes) :
    lengthField? (encodeLength length ++ rest) =
      some ⟨(encodeLength length).length, length⟩ := by
  have bound : length < 0xffff := Nat.lt_succ_of_le fits
  by_cases short : length < longForm.toNat
  · have byte : (UInt8.ofNat length).toNat = length := by
      rw [UInt8.toNat_ofNat']
      exact Nat.mod_eq_of_lt (Nat.lt_trans short (by decide))
    have ordinary : UInt8.ofNat length ≠ longForm := by
      intro same
      rw [← same, byte] at short
      exact Nat.lt_irrefl _ short
    simp only [encodeLength, if_pos short, BigEndian.encode, List.nil_append, List.cons_append,
      lengthField?_short ordinary, byte, List.length_singleton]
  · have word : BigEndian.decode (BigEndian.encode 2 length) = length := by
      rw [BigEndian.decode_encode]
      exact Nat.mod_eq_of_lt (Nat.lt_succ_of_lt bound)
    simp only [BigEndian.encode, List.nil_append, List.cons_append, BigEndian.decode_pair] at word
    simp only [encodeLength, if_neg short, BigEndian.encode, List.nil_append, List.cons_append,
      lengthField?_long, word, reservedLength, if_neg (Nat.ne_of_lt bound), List.length_cons,
      List.length_nil]

theorem blocksFrom_bytes_append {entry : Entry} (fits : entry.Fits) (ordinary : entry.Ordinary)
    (offset : Nat) (rest : Bytes) :
    blocksFrom 0 offset (entry.bytes ++ rest) =
      ⟨entry.type.toByte, offset + entry.headerSize, entry.value.length⟩ ::
        blocksFrom 0 (offset + entry.bytes.length) rest := by
  have field := lengthField?_encodeLength_append fits (entry.value ++ rest)
  have behind : (encodeLength entry.value.length ++ (entry.value ++ rest)).drop
      ((encodeLength entry.value.length).length + entry.value.length) = rest := by
    rw [← List.append_assoc, ← List.length_append, List.drop_left]
  rw [entry.length_bytes, Entry.headerSize]
  simp only [Entry.bytes, List.cons_append, List.append_assoc, blocksFrom, if_neg ordinary.1,
    if_neg ordinary.2, field, Nat.add_assoc]
  -- What the scan skips behind the type byte is the length field and the value.
  rw [blocksFrom_eq_drop, behind, Nat.add_assoc]

end NfcTag.Tlv
