/-
# NfcTag.Schema.Normal -- the row that a schema keeps

A row is normalised cell by cell, which changes neither its columns nor their order
(`Row.cells_wire_normalize`).
-/
import NfcTag.Field.Normal
import NfcTag.Schema

namespace NfcTag

set_option autoImplicit false

def Cell.normalize (cell : Cell) : Cell :=
  ⟨cell.key, cell.field, cell.field.normalize cell.value⟩

namespace Row

variable {schema : Schema}

def normalize (row : Row schema) : Row schema where
  cells := row.cells.map Cell.normalize
  columns := by
    rw [List.map_map]
    exact row.columns

theorem cells_wire_normalize (row : Row schema) :
    row.normalize.wire.cells = row.wire.cells.map Cell.normalize :=
  (map_wireOrder Cell.normalize Cell.key row.cells).symm

end Row

end NfcTag
