/-
# NfcTag.Proofs.Field.Singles -- fields of 32 bits store the nearest single

A number that callers hand in has 64 bits.  Wherever a field of 32 bits fits, the four
bytes hold the single that the number is rounded to, and it is that single that is
loaded again.

Main statement: `nearest_single_is_stored`.
-/
import NfcTag.Proofs.Field.Bytewise
import NfcTag.Proofs.Field.NormalForms
import NfcTag.Proofs.Number.Order

namespace NfcTag.Field

set_option autoImplicit false

/-- Wherever the field fits, a value is stored as `bytes` and loaded again as `kept`. -/
structure StoredAs (field : Field) (value : field.Value) (bytes : Bytes) (kept : field.Value) :
    Prop where
  put_eq : ∀ (buf : Bytes) offset place, offset.toNat? = some place →
    place + field.size ≤ buf.length →
    field.put value buf offset = .ok (buf.overwrite place bytes)
  get_eq : ∀ (buf : Bytes) offset place, offset.toNat? = some place →
    place + field.size ≤ buf.length →
    field.get (buf.overwrite place bytes) offset = .ok kept

theorem storedAs_encode (field : Field) (value : field.Value) :
    field.StoredAs value (field.encode value) (field.normalize value) where
  put_eq buf offset place named fits := by rw [put_eq_write, write_of_place value named fits]
  get_eq buf offset place named fits := by rw [get_eq_read, read_overwrite value named fits]

/-- **A field of 32 bits stores the nearest single**: no finite single is nearer to the
number, ties go to the even significand, and the numbers whose size is `2 ^ 128 - 2 ^ 103`
or more become infinite.  The sign bit is kept, and larger numbers are not stored as
smaller ones. -/
theorem nearest_single_is_stored :
    (∀ v : Binary64, f32.StoredAs v (BigEndian.encode 4 v.toSingle.toNat) v.roundToSingle ∧
        v.RoundsTo v.toSingle.toNat v.roundToSingle) ∧
      ∀ v w : Binary64, v ≤ w → v.roundToSingle ≤ w.roundToSingle :=
  ⟨fun v => ⟨f32.storedAs_encode v, v.roundsTo_roundToSingle⟩,
    fun _ _ le => Binary64.roundToSingle_mono le⟩

/-- Half of the least single is a tie and goes to zero; the next double does not. -/
example : (Binary64.ofBits 0x3690000000000000).toSingle = 0 ∧
    (Binary64.ofBits 0x3690000000000001).toSingle = 1 := by decide +kernel

/-- The least number that becomes infinite, and the double before it. -/
example : (Binary64.ofBits 0x47effffff0000000).toSingle = 0x7f800000 ∧
    (Binary64.ofBits 0x47efffffefffffff).toSingle = 0x7f7fffff := by decide +kernel

end NfcTag.Field
