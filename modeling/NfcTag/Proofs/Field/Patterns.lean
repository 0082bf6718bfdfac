/-
# NfcTag.Proofs.Field.Patterns -- floating-point patterns survive reading and writing

A pattern is read as the double that stands for the same number, widened if it is that
of a single, and the double is written as the pattern it was read from.  Only NaNs are
not kept: all of a format are read alike and written as one.  On the bytes of a buffer,
a field that is loaded and stored again leaves everything as it was or puts that one NaN
for another, and rounds nothing twice (`put_get_put`, which holds of every field).

Main statement: `patterns_survive`.
-/
import NfcTag.Proofs.Field.Bytewise
import NfcTag.Proofs.Field.NormalForms
import NfcTag.Proofs.Number.Value

namespace NfcTag

set_option autoImplicit false

/-! ## Patterns -/

namespace Binary64

/-- Patterns of a format are read as doubles and written again, `nan` for every NaN. -/
structure KeepsPatterns {α : Type} (F : Interchange) (nan : Nat) (ofNat : Nat → α)
    (read : α → Binary64) (write : Binary64 → α) : Prop where
  /-- Nothing is lost of what the pattern stands for, signs of zeros and infinities included. -/
  datum_eq : ∀ pattern, pattern < 2 * F.signBit →
    (read (ofNat pattern)).datum = F.decode pattern
  value?_eq : ∀ pattern, pattern < 2 * F.signBit →
    (read (ofNat pattern)).value? = F.value? pattern
  write_read : ∀ pattern, pattern < 2 * F.signBit →
    write (read (ofNat pattern)) = ofNat (if F.IsNan pattern then nan else pattern)
  injective : ∀ one other, one < 2 * F.signBit → other < 2 * F.signBit →
    ¬ F.IsNan one → ¬ F.IsNan other →
      read (ofNat one) = read (ofNat other) → one = other

variable {α : Type} {F : Interchange} {nan : Nat} {ofNat : Nat → α} {read : α → Binary64}
  {write : Binary64 → α}

/-- What is written as it was read tells patterns apart. -/
theorem keepsPatterns_of_write_read (counted : F.Counted)
    (datum_eq : ∀ pattern, pattern < 2 * F.signBit →
      (read (ofNat pattern)).datum = F.decode pattern)
    (write_read : ∀ pattern, pattern < 2 * F.signBit →
      write (read (ofNat pattern)) = ofNat (if F.IsNan pattern then nan else pattern))
    (ofNat_injective : ∀ one other, one < 2 * F.signBit → other < 2 * F.signBit →
      ofNat one = ofNat other → one = other) :
    KeepsPatterns F nan ofNat read write where
  datum_eq := datum_eq
  value?_eq pattern word := by
    rw [Binary64.value?_eq, datum_eq pattern word, Interchange.value?_eq counted]
  write_read := write_read
  injective one other oneWord otherWord oneNumber otherNumber same := by
    have written := write_read one oneWord
    rw [same, write_read other otherWord, if_neg oneNumber, if_neg otherNumber] at written
    exact ofNat_injective one other oneWord otherWord written.symm

theorem keepsPatterns_single :
    KeepsPatterns .single 0x7fc00000 (fun pattern => ofInt pattern) ofSinglePattern
      singlePattern := by
  have words : 2 * Interchange.single.signBit = 0x100000000 := by decide
  have stored (pattern : Nat) (word : pattern < 0x100000000) :
      (UInt32.ofNat pattern).toNat = pattern := UInt32.toNat_ofNat_of_lt' word
  have widened (pattern : Nat) (word : pattern < 0x100000000) :
      ofSinglePattern (ofInt pattern) = ofSingle (UInt32.ofNat pattern) :=
    ofSinglePattern_ofInt (by omega)
  apply keepsPatterns_of_write_read Interchange.counted_single <;> rw [words]
  · intro pattern word
    rw [widened pattern word, datum_ofSingle, stored pattern word]
  · intro pattern word
    rw [widened pattern word, singlePattern, toSingle_ofSingle, stored pattern word]
    split
    · rfl
    · rw [stored pattern word]
  · intro one other oneWord otherWord same
    have read := toNat?_ofInt (n := one) (by omega)
    rw [same, toNat?_ofInt (by omega)] at read
    exact (Option.some.inj read).symm

theorem datum_ofBits (bits : UInt64) :
    (ofBits bits).datum = Interchange.double.decode bits.toNat := by
  rw [datum, bits_ofBits]
  split
  · rename_i isNan
    rw [Interchange.decode, if_pos (show Interchange.double.IsNan nan.bits.toNat by decide),
      Interchange.decode, if_pos isNan]
  · rfl

theorem keepsPatterns_double :
    KeepsPatterns .double 0x7ff8000000000000 (fun pattern => (pattern : Int)) ofDoublePattern
      doublePattern := by
  have words : 2 * Interchange.double.signBit = 0x10000000000000000 := by decide
  have stored (pattern : Nat) (word : pattern < 0x10000000000000000) :
      (UInt64.ofNat pattern).toNat = pattern := UInt64.toNat_ofNat_of_lt' word
  apply keepsPatterns_of_write_read Interchange.counted_double <;> rw [words]
  · intro pattern word
    rw [ofDoublePattern_natCast, datum_ofBits, stored pattern word]
  · intro pattern word
    rw [ofDoublePattern_natCast, doublePattern, bits_ofBits, stored pattern word]
    split
    · rfl
    · rw [stored pattern word]
  · intro one other _ _ same
    exact Int.ofNat_inj.mp same

end Binary64

/-! ## Fields -/

namespace Field

variable {field : Field} {value : field.Value} {buf after : Bytes} {offset : Binary64}

/-- A value that was stored is loaded in normal form and stored again as the same bytes,
into the buffer as it is now and as it was before. -/
theorem put_get_put (stored : field.put value buf offset = .ok after) :
    field.get after offset = .ok (field.normalize value) ∧
      field.put (field.normalize value) after offset = .ok after ∧
        field.put (field.normalize value) buf offset = .ok after := by
  rw [put_eq_write, write] at stored
  cases found : field.place? buf offset with
  | none =>
      rw [found] at stored
      cases stored
  | some place =>
      obtain ⟨named, fits⟩ := place?_eq_some_iff.mp found
      rw [found] at stored
      obtain rfl := Except.ok.inj stored
      have room : place + (field.encode value).length ≤ buf.length := by rwa [length_encode]
      have kept := Bytes.length_overwrite room
      have again : (buf.overwrite place (field.encode value)).overwrite place
          (field.encode value) = buf.overwrite place (field.encode value) := by
        have lies := Bytes.overwrite_bytes (Nat.le_trans room (Nat.le_of_eq kept.symm))
        rwa [Span.bytes, Bytes.take_drop_overwrite room] at lies
      refine ⟨?_, ?_, ?_⟩
      · rw [get_eq_read, read_overwrite value named fits]
      · rw [put_eq_write, write_of_place _ named (by rwa [kept]), encode_normalize, again]
      · rw [put_eq_write, write_of_place _ named fits, encode_normalize]

/-- Bytes are loaded as the pattern that they hold, and stored again as they were or, if
they hold a NaN, as the bytes of `nan`. -/
structure Restores (field : Field) (F : Interchange) (nan : Bytes) (read : Nat → field.Value) :
    Prop where
  get_eq : ∀ buf offset place, offset.toNat? = some place → place + field.size ≤ buf.length →
    field.get buf offset = .ok (read (BigEndian.decode (Span.bytes ⟨place, field.size⟩ buf)))
  put_get : ∀ buf offset place value, offset.toNat? = some place →
    field.get buf offset = .ok value →
      field.put value buf offset = .ok
        (if F.IsNan (BigEndian.decode (Span.bytes ⟨place, field.size⟩ buf)) then
          buf.overwrite place nan else buf)
  put_get_put : ∀ value buf offset after, field.put value buf offset = .ok after →
    ∃ kept, field.get after offset = .ok kept ∧ field.put kept after offset = .ok after ∧
      field.put kept buf offset = .ok after

theorem restores_of_canonical {F : Interchange} {nan : Bytes} {read : Nat → field.Value}
    (decode_eq : ∀ bytes, field.decode bytes = read (BigEndian.decode (bytes.take field.size)))
    (canonical : ∀ bytes, field.canonical bytes =
      if F.IsNan (BigEndian.decode bytes) then nan else bytes) :
    field.Restores F nan read where
  get_eq buf offset place named fits := by
    rw [get_eq_read, read_of_place named fits, decode_eq, Span.bytes]
  put_get buf offset place value named loaded := by
    obtain ⟨other, otherNamed, fits, stored⟩ := put_of_get loaded
    obtain rfl : place = other := Option.some.inj (named.symm.trans otherNamed)
    rw [stored, canonical]
    split
    · rfl
    · rw [Bytes.overwrite_bytes fits]
  put_get_put _ _ _ _ stored := ⟨_, Field.put_get_put stored⟩

theorem restores_single :
    f32.Restores .single [0x7f, 0xc0, 0x00, 0x00]
      fun pattern => Binary64.ofSinglePattern (Binary64.ofInt pattern) := by
  apply restores_of_canonical
  · intro bytes
    have small : BigEndian.decode (bytes.take 4) < BigEndian.modulus 4 :=
      decode_bytes_lt bytes 0 (Nat.le_refl 4)
    have bound : BigEndian.modulus 4 = 0x100000000 := by decide
    have read := Binary64.ofSinglePattern_ofInt (n := BigEndian.decode (bytes.take 4)) (by omega)
    exact read.symm
  · exact fun _ => rfl

theorem restores_double :
    f64.Restores .double [0x7f, 0xf8, 0x00, 0x00, 0x00, 0x00, 0x00, 0x00]
      fun pattern => Binary64.ofDoublePattern pattern := by
  apply restores_of_canonical
  · intro bytes
    exact (Binary64.ofDoublePattern_natCast _).symm
  · exact fun _ => rfl

/-- **Floating-point fields keep every pattern** but those of NaNs, for which they write
one. -/
theorem patterns_survive :
    Binary64.KeepsPatterns .single 0x7fc00000 (fun pattern => Binary64.ofInt pattern)
        Binary64.ofSinglePattern Binary64.singlePattern ∧
      Binary64.KeepsPatterns .double 0x7ff8000000000000 (fun pattern => (pattern : Int))
        Binary64.ofDoublePattern Binary64.doublePattern ∧
      f32.Restores .single [0x7f, 0xc0, 0x00, 0x00]
        (fun pattern => Binary64.ofSinglePattern (Binary64.ofInt pattern)) ∧
      f64.Restores .double [0x7f, 0xf8, 0x00, 0x00, 0x00, 0x00, 0x00, 0x00]
        fun pattern => Binary64.ofDoublePattern pattern :=
  ⟨Binary64.keepsPatterns_single, Binary64.keepsPatterns_double, restores_single,
    restores_double⟩

/-- The least single is a normal number among the doubles. -/
example : (Binary64.ofSinglePattern (Binary64.ofInt 1)).bits = 0x36a0000000000000 := by
  decide +kernel

end Field

end NfcTag
