/-
# NfcTag.Field.Store -- fields at places of a buffer

`write` and `read` take a place that a caller names by a number.  The field has
to fit: the place is a whole number, not negative, and the field ends inside
the buffer.  Otherwise the operation is refused and nothing changes.
-/
import NfcTag.Fault
import NfcTag.Field

namespace NfcTag.Field

set_option autoImplicit false

/-- The place that `offset` names, if the field fits there. -/
def place? (field : Field) (buf : Bytes) (offset : Binary64) : Option Nat :=
  offset.toNat?.filter fun place => place + field.size ≤ buf.length

def outside (field : Field) (buf : Bytes) (offset : Binary64) : Fault :=
  .fieldOutside field.size offset buf.length

/-- Store a value at a place: the buffer afterwards. -/
def write (field : Field) (value : field.Value) (buf : Bytes) (offset : Binary64) :
    Except Fault Bytes :=
  match field.place? buf offset with
  | some place => .ok (buf.overwrite place (field.encode value))
  | none => .error (field.outside buf offset)

/-- The value at a place. -/
def read (field : Field) (buf : Bytes) (offset : Binary64) : Except Fault field.Value :=
  match field.place? buf offset with
  | some place => .ok (field.decode (buf.drop place))
  | none => .error (field.outside buf offset)

theorem place?_eq_some_iff {field : Field} {buf : Bytes} {offset : Binary64} {place : Nat} :
    field.place? buf offset = some place ↔
      offset.toNat? = some place ∧ place + field.size ≤ buf.length := by
  simp [place?, Option.filter_eq_some_iff]

theorem write_of_place {field : Field} {buf : Bytes} {offset : Binary64} {place : Nat}
    (value : field.Value) (named : offset.toNat? = some place)
    (fits : place + field.size ≤ buf.length) :
    field.write value buf offset = .ok (buf.overwrite place (field.encode value)) := by
  rw [write, place?_eq_some_iff.mpr ⟨named, fits⟩]

theorem read_of_place {field : Field} {buf : Bytes} {offset : Binary64} {place : Nat}
    (named : offset.toNat? = some place) (fits : place + field.size ≤ buf.length) :
    field.read buf offset = .ok (field.decode (buf.drop place)) := by
  rw [read, place?_eq_some_iff.mpr ⟨named, fits⟩]

/-- A write that is not refused keeps the buffer's length. -/
theorem length_write {field : Field} {value : field.Value} {buf after : Bytes}
    {offset : Binary64} (stored : field.write value buf offset = .ok after) :
    after.length = buf.length := by
  unfold write at stored
  split at stored
  · rename_i place found
    cases stored
    exact Bytes.length_overwrite (by simpa using (place?_eq_some_iff.mp found).2)
  · cases stored

end NfcTag.Field
