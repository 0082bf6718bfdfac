/-
# NfcTag.Schema -- keyed fields laid out back to back

A schema is a list of columns, each a key and a kind of field.  A row of it
pairs every column with a value.  Bytes follow the wire order of the keys, not
the order of declaration: `Row.encode` sorts the cells before it lays them down,
and `Schema.decode` answers a row in wire order.  A buffer may be longer than
its schema; a shorter one is refused.
-/
import NfcTag.Fault
import NfcTag.Field
import NfcTag.Schema.WireOrder

namespace NfcTag

set_option autoImplicit false

/-- A key and the kind of field stored under it. -/
structure Column where
  key : String
  field : Field
  deriving Repr, DecidableEq

/-- Columns in the order of their declaration. -/
abbrev Schema := List Column

namespace Schema

/-- The columns in the order of their bytes. -/
def wire (schema : Schema) : Schema := wireOrder Column.key schema

/-- The number of bytes of columns that lie back to back. -/
def extent (columns : List Column) : Nat :=
  columns.foldr (fun column size => column.field.size + size) 0

def size (schema : Schema) : Nat := extent schema.wire

/-- Columns with the places of their first bytes, from `start` on. -/
def slotsFrom (start : Nat) : List Column → List (Column × Nat)
  | [] => []
  | column :: rest => (column, start) :: slotsFrom (start + column.field.size) rest

def slots (schema : Schema) : List (Column × Nat) := slotsFrom 0 schema.wire

end Schema

/-! ## Rows -/

/-- A column with a value of its field. -/
structure Cell where
  key : String
  field : Field
  value : field.Value

namespace Cell

def column (cell : Cell) : Column := ⟨cell.key, cell.field⟩

def encode (cell : Cell) : Bytes := cell.field.encode cell.value

/-- Read the value of a column off the front of a byte string. -/
def decode (column : Column) (bytes : Bytes) : Cell :=
  ⟨column.key, column.field, column.field.decode bytes⟩

/-- Read the values of columns that lie back to back. -/
def decodeAll : List Column → Bytes → List Cell
  | [], _ => []
  | column :: rest, bytes => decode column bytes :: decodeAll rest (bytes.drop column.field.size)

@[simp] theorem map_column_decodeAll (columns : List Column) (bytes : Bytes) :
    (decodeAll columns bytes).map column = columns := by
  induction columns generalizing bytes with
  | nil => rfl
  | cons first rest ih =>
      simp only [decodeAll, List.map_cons, ih, List.cons.injEq, and_true]
      rfl

end Cell

/-- A value for every column of a schema, in its order. -/
structure Row (schema : Schema) where
  cells : List Cell
  columns : cells.map Cell.column = schema

namespace Row

variable {schema : Schema}

/-- The cells in the order of their bytes. -/
def wire (row : Row schema) : Row schema.wire where
  cells := wireOrder Cell.key row.cells
  columns := (map_wireOrder Cell.column Column.key row.cells).trans (by rw [row.columns]; rfl)

def encode (row : Row schema) : Bytes := row.wire.cells.flatMap Cell.encode

end Row

/-- The row at the front of a buffer, in wire order. -/
def Schema.decode (schema : Schema) (buf : Bytes) : Except Fault (Row schema.wire) :=
  if buf.length < schema.size then .error (.bufferTooSmall schema.size buf.length)
  else .ok ⟨Cell.decodeAll schema.wire buf, Cell.map_column_decodeAll schema.wire buf⟩

/-! ## Sizes -/

theorem length_flatMap_encode (cells : List Cell) :
    (cells.flatMap Cell.encode).length =
      Schema.extent (cells.map Cell.column) := by
  induction cells with
  | nil => rfl
  | cons cell cells ih =>
      rw [List.flatMap_cons, List.length_append, ih, Cell.encode, Field.length_encode]
      rfl

/-- Every row of a schema takes the schema's size. -/
theorem Row.length_encode {schema : Schema} (row : Row schema) :
    row.encode.length = schema.size := by
  rw [encode, length_flatMap_encode, row.wire.columns, Schema.size]

end NfcTag
