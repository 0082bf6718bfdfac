/-
# NfcTag.Proofs.Schema.RoundTrip -- what a schema keeps of a row

The bytes of a row read back as its cells in normal form: none is lost, none is
added, and every key leads to its own value (`Row.Keeps`).  The order of the
bytes plays no part in that, since the wire order is a permutation
(`perm_wireOrder`) that leaves cells of one key as they stand
(`filter_wireOrder`).  Main result: `rows_read_back`, which adds how many
bytes there are and which buffers are too short to hold a row.
-/
import Mathlib.Algebra.GroupWithZero.Nat
import NfcTag.Fault.Report
import NfcTag.Proofs.NanChoice

namespace NfcTag

set_option autoImplicit false

/-! ## Sizes -/

namespace Schema

theorem extent_eq_sum (columns : List Column) :
    extent columns = (columns.map fun column => column.field.size).sum := by
  induction columns with
  | nil => rfl
  | cons column columns ih => rw [List.map_cons, List.sum_cons, ← ih]; rfl

/-- The order of the columns does not matter for their size. -/
theorem size_eq_sum (schema : Schema) :
    schema.size = (schema.map fun column => column.field.size).sum := by
  rw [size, extent_eq_sum]
  exact ((perm_wireOrder Column.key schema).map _).sum_nat

end Schema

/-! ## Values by their keys -/

namespace Row

variable {schema : Schema}

/-- The cell that a row holds under a key. -/
def find? (row : Row schema) (key : String) : Option Cell :=
  row.cells.find? (·.key = key)

theorem find?_wire (row : Row schema) (key : String) : row.wire.find? key = row.find? key := by
  have kept := filter_wireOrder Cell.key key row.cells
  rw [find?, find?, ← List.head?_filter, ← List.head?_filter]
  exact congrArg List.head? kept

theorem find?_normalize (row : Row schema) (key : String) :
    row.normalize.find? key = (row.find? key).map Cell.normalize := by
  rw [find?, normalize, List.find?_map]
  rfl

/-- What is kept of a row: its cells in normal form, each under its own key. -/
structure Keeps (row : Row schema) (kept : Row schema.wire) : Prop where
  columns : (kept.cells.map Cell.column).Perm schema
  cells : kept.cells.Perm (row.cells.map Cell.normalize)
  value : ∀ key, kept.find? key = (row.find? key).map Cell.normalize
  /-- A NaN comes back as NaN, and nothing else does. -/
  isNan_eq : ∀ key, (kept.find? key).map Cell.isNan = (row.find? key).map Cell.isNan

theorem keeps_normalize (row : Row schema) : row.Keeps row.normalize.wire where
  columns := by
    rw [row.normalize.wire.columns]
    exact perm_wireOrder Column.key schema
  cells := perm_wireOrder Cell.key row.normalize.cells
  value key := by rw [find?_wire, find?_normalize]
  isNan_eq key := by
    rw [find?_wire, find?_normalize, Option.map_map]
    exact congrArg (fun test => (row.find? key).map test) (funext Cell.isNan_normalize)

end Row

/-! ## Buffers that are too short -/

namespace Schema

theorem decode_eq_error_iff {schema : Schema} {buf : Bytes} {fault : Fault} :
    schema.decode buf = .error fault ↔
      buf.length < schema.size ∧ fault = .bufferTooSmall schema.size buf.length := by
  unfold decode
  split
  · rename_i short
    simp [short, eq_comm]
  · rename_i enough
    simp [enough]

theorem report_decode_eq_error_iff {schema : Schema} {buf : Bytes} {report : Report} :
    (schema.decode buf).mapError Fault.report = .error report ↔
      buf.length < schema.size ∧
        report = .range
          s!"Buffer too small: expected {schema.size} bytes, got {buf.length}" :=
  mapError_report_eq_error_iff fun _ => decode_eq_error_iff

/-! ## Both directions -/

/-- What a schema does with its rows, in both directions. -/
structure ReadsBack (schema : Schema) : Prop where
  size_eq : schema.size = (schema.map fun column => column.field.size).sum
  length_eq : ∀ row : Row schema, row.encode.length = schema.size
  /-- From the front of any buffer that begins with a row's bytes, every cell comes back
  in normal form under its own key. -/
  read_back : ∀ (row : Row schema) (rest : Bytes),
    ∃ kept, schema.decode (row.encode ++ rest) = .ok kept ∧ row.Keeps kept
  /-- It does not matter which NaNs the platform stores. -/
  read_encodeAs : ∀ nan (row : Row schema) (rest : Bytes),
    (row.encodeAs nan).length = schema.size ∧
      schema.decode (row.encodeAs nan ++ rest) = schema.decode (row.encode ++ rest)
  /-- Only a buffer that is shorter than the schema is refused. -/
  refused_iff : ∀ (buf : Bytes) (report : Report),
    (schema.decode buf).mapError Fault.report = .error report ↔
      buf.length < schema.size ∧
        report = .range s!"Buffer too small: expected {schema.size} bytes, got {buf.length}"

/-- **Rows are read back as they were written**, each value in normal form. -/
theorem rows_read_back (schema : Schema) : schema.ReadsBack where
  size_eq := schema.size_eq_sum
  length_eq row := row.length_encode
  read_back row rest := ⟨row.normalize.wire, row.decode_encode rest, row.keeps_normalize⟩
  read_encodeAs nan row rest :=
    ⟨row.length_encodeAs nan, by rw [row.decode_encodeAs, row.decode_encode]⟩
  refused_iff _ _ := report_decode_eq_error_iff

end Schema

end NfcTag
