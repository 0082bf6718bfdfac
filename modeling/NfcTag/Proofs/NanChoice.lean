/-
# NfcTag.Proofs.NanChoice -- what does not depend on the NaNs of a platform

Whatever patterns a platform stores for NaNs, a value takes the bytes of its field and is
read back in normal form (`Field.decode_encodeAs`), and all values but NaNs are stored
alike (`Field.encodeAs_of_isNan_eq_false`).  Rows of values follow, cell by cell.  The
platform that always stores the canonical pattern is one case (`Row.encodeAs_canonical`).

Main statement: `Row.decode_encodeAs`.
-/
import NfcTag.NanChoice
import NfcTag.Proofs.Number.Patterns
import NfcTag.Schema.Normal

namespace NfcTag

set_option autoImplicit false

variable {nan : NanChoice} {place : Nat}

/-! ## Values -/

/-- What fits a word is read back from it, whatever follows. -/
theorem Codec.decode_word_append {width n : Nat} (small : n < BigEndian.modulus width)
    (rest : Bytes) : (word width).decode (BigEndian.encode width n ++ rest) = n := by
  have back := (word width).decode_append n rest
  rwa [decode_encode_word, Nat.mod_eq_of_lt small] at back

namespace Field

variable {field : Field} {value : field.Value}

theorem encodeAs_of_isNan_eq_false (number : field.isNan value = false) :
    field.encodeAs nan place value = field.encode value := by
  cases field with
  | f32 => exact if_neg (of_decide_eq_false number)
  | f64 => exact if_neg (of_decide_eq_false number)
  | _ => rfl

theorem encodeAs_canonical (field : Field) (place : Nat) (value : field.Value) :
    field.encodeAs .canonical place value = field.encode value := by
  cases kind : field.isNan value with
  | false => exact encodeAs_of_isNan_eq_false kind
  | true =>
      cases field with
      | f32 =>
          obtain rfl : value = Binary64.nan := of_decide_eq_true kind
          rw [encodeAs, if_pos rfl]
          rfl
      | f64 =>
          obtain rfl : value = Binary64.nan := of_decide_eq_true kind
          rw [encodeAs, if_pos rfl]
          rfl
      | _ => cases kind

@[simp] theorem length_encodeAs (nan : NanChoice) (place : Nat) (field : Field)
    (value : field.Value) : (field.encodeAs nan place value).length = field.size := by
  cases kind : field.isNan value with
  | false => rw [encodeAs_of_isNan_eq_false kind, length_encode]
  | true =>
      cases field with
      | f32 =>
          rw [encodeAs, if_pos (of_decide_eq_true kind), BigEndian.length_encode]
          rfl
      | f64 =>
          rw [encodeAs, if_pos (of_decide_eq_true kind), BigEndian.length_encode]
          rfl
      | _ => cases kind

theorem decode_single_encode {pattern : UInt32} (isNan : Interchange.single.IsNan pattern.toNat)
    (rest : Bytes) : f32.decode (BigEndian.encode 4 pattern.toNat ++ rest) = Binary64.nan := by
  have read : (Codec.word 4).decode (BigEndian.encode 4 pattern.toNat ++ rest) = pattern.toNat :=
    Codec.decode_word_append pattern.toNat_lt rest
  show Binary64.ofSingle (UInt32.ofNat ((Codec.word 4).decode _)) = _
  rw [read, UInt32.ofNat_toNat, Binary64.ofSingle_eq_nan_iff.mpr isNan]

theorem decode_double_encode {pattern : UInt64} (isNan : Interchange.double.IsNan pattern.toNat)
    (rest : Bytes) : f64.decode (BigEndian.encode 8 pattern.toNat ++ rest) = Binary64.nan := by
  have read : (Codec.word 8).decode (BigEndian.encode 8 pattern.toNat ++ rest) = pattern.toNat :=
    Codec.decode_word_append pattern.toNat_lt rest
  show Binary64.ofBits (UInt64.ofNat ((Codec.word 8).decode _)) = _
  rw [read, UInt64.ofNat_toNat, Binary64.ofBits_eq_nan_iff.mpr isNan]

/-- A stored value is read back in normal form, whichever NaN was stored for it. -/
theorem decode_encodeAs (nan : NanChoice) (place : Nat) (field : Field) (value : field.Value)
    (rest : Bytes) :
    field.decode (field.encodeAs nan place value ++ rest) = field.normalize value := by
  cases kind : field.isNan value with
  | false => rw [encodeAs_of_isNan_eq_false kind, decode_encode]
  | true =>
      cases field with
      | f32 =>
          obtain rfl : value = Binary64.nan := of_decide_eq_true kind
          rw [encodeAs, if_pos rfl, decode_single_encode (nan.isNan_single place)]
          exact Binary64.roundToSingle_nan.symm
      | f64 =>
          obtain rfl : value = Binary64.nan := of_decide_eq_true kind
          rw [encodeAs, if_pos rfl, decode_double_encode (nan.isNan_double place)]
          rfl
      | _ => cases kind

/-- The normal form of a NaN is a NaN, and that of nothing else is. -/
theorem isNan_normalize (field : Field) (value : field.Value) :
    field.isNan (field.normalize value) = field.isNan value := by
  cases field with
  | f32 => exact decide_eq_decide.mpr Binary64.roundToSingle_eq_nan_iff
  | f64 => rfl
  | _ => exact Eq.trans (b := false) rfl rfl

end Field

/-! ## Cells -/

namespace Cell

theorem isNan_normalize (cell : Cell) : cell.normalize.isNan = cell.isNan :=
  cell.field.isNan_normalize cell.value

theorem length_encodeFrom (nan : NanChoice) (place : Nat) (cells : List Cell) :
    (encodeFrom nan place cells).length = Schema.extent (cells.map column) := by
  induction cells generalizing place with
  | nil => rfl
  | cons cell cells ih =>
      rw [encodeFrom, List.length_append, ih, Field.length_encodeAs]
      rfl

theorem encodeFrom_append (front back : List Cell) :
    encodeFrom nan place (front ++ back) =
      encodeFrom nan place front ++
        encodeFrom nan (place + Schema.extent (front.map column)) back := by
  induction front generalizing place with
  | nil => rfl
  | cons cell front ih =>
      rw [List.cons_append, encodeFrom, ih, encodeFrom, List.append_assoc, Nat.add_assoc]
      rfl

theorem encodeFrom_canonical (place : Nat) (cells : List Cell) :
    encodeFrom .canonical place cells = cells.flatMap encode := by
  induction cells generalizing place with
  | nil => rfl
  | cons cell cells ih => rw [encodeFrom, ih, Field.encodeAs_canonical, List.flatMap_cons, encode]

theorem decodeAll_encodeFrom (nan : NanChoice) (place : Nat) (cells : List Cell) (rest : Bytes) :
    decodeAll (cells.map column) (encodeFrom nan place cells ++ rest) = cells.map normalize := by
  induction cells generalizing place with
  | nil => rfl
  | cons cell cells ih =>
      rw [encodeFrom, List.map_cons, List.append_assoc, decodeAll, List.map_cons]
      congr 1
      · simp only [decode, column, normalize, Field.decode_encodeAs]
      · have width : (cell.field.encodeAs nan place cell.value).length = cell.column.field.size :=
          cell.field.length_encodeAs nan place cell.value
        rw [List.drop_left' width, ih]

end Cell

/-! ## Rows -/

namespace Row

variable {schema : Schema}

theorem encodeAs_canonical (row : Row schema) : row.encodeAs .canonical = row.encode :=
  Cell.encodeFrom_canonical 0 row.wire.cells

theorem length_encodeAs (nan : NanChoice) (row : Row schema) :
    (row.encodeAs nan).length = schema.size := by
  rw [encodeAs, Cell.length_encodeFrom, row.wire.columns, Schema.size]

/-- **A row is read back in normal form**, whatever follows its bytes and whichever NaNs
are among them. -/
theorem decode_encodeAs (nan : NanChoice) (row : Row schema) (rest : Bytes) :
    schema.decode (row.encodeAs nan ++ rest) = .ok row.normalize.wire := by
  unfold Schema.decode
  rw [if_neg (by rw [List.length_append, row.length_encodeAs]; omega)]
  congr 1
  rw [Row.mk.injEq, cells_wire_normalize,
    ← Cell.decodeAll_encodeFrom nan 0 row.wire.cells rest, row.wire.columns]
  rfl

theorem decode_encode (row : Row schema) (rest : Bytes) :
    schema.decode (row.encode ++ rest) = .ok row.normalize.wire := by
  rw [← row.encodeAs_canonical, row.decode_encodeAs]

end Row

end NfcTag
