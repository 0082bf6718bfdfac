/-
# NfcTag.Proofs.Schema.Slots -- where the values of a schema stand

A column's slot begins where the columns before it in wire order end
(`mem_slots_iff`).  Slots lie inside the schema's size, and every place inside it is
in one of them (`exists_slot`).  A row's bytes hold each of its values at the slot
of that column (`Row.find?_slot`), and a row that is read has there what the bytes
from the slot on say (`decode_slot`).

With distinct keys a row is what it answers for them, whatever the order of its
cells (`Row.eq_of_sameValues`).
-/
import Mathlib.Data.List.Nodup
import Mathlib.Data.List.Perm.Basic
import NfcTag.Proofs.Bytes.Holds
import NfcTag.Proofs.Schema.RoundTrip

namespace NfcTag

set_option autoImplicit false

namespace Schema

variable {schema : Schema} {column : Column} {place : Nat}

/-! ## Slots -/

theorem extent_append (columns more : List Column) :
    extent (columns ++ more) = extent columns + extent more := by
  rw [extent_eq_sum, extent_eq_sum, extent_eq_sum, List.map_append, List.sum_append]

theorem mem_slotsFrom_iff {start : Nat} {columns : List Column} :
    (column, place) ∈ slotsFrom start columns ↔
      ∃ before after, columns = before ++ column :: after ∧ place = start + extent before := by
  induction columns generalizing start with
  | nil => simp [slotsFrom]
  | cons first rest ih =>
      rw [slotsFrom, List.mem_cons, Prod.mk.injEq, ih]
      constructor
      · rintro (⟨rfl, rfl⟩ | ⟨before, after, rfl, rfl⟩)
        · exact ⟨[], rest, rfl, rfl⟩
        · exact ⟨first :: before, after, rfl, Nat.add_assoc _ _ _⟩
      · rintro ⟨before, after, split, rfl⟩
        cases before with
        | nil =>
            obtain ⟨rfl, rfl⟩ := List.cons.inj split
            exact .inl ⟨rfl, rfl⟩
        | cons other before =>
            obtain ⟨rfl, rfl⟩ := List.cons.inj split
            exact .inr ⟨before, after, rfl, (Nat.add_assoc _ _ _).symm⟩

/-- A slot begins behind the columns that come before it in wire order. -/
theorem mem_slots_iff :
    (column, place) ∈ schema.slots ↔
      ∃ before after, schema.wire = before ++ column :: after ∧
        place = (before.map fun other => other.field.size).sum := by
  rw [slots, mem_slotsFrom_iff]
  simp only [Nat.zero_add, extent_eq_sum]

theorem map_fst_slotsFrom (start : Nat) (columns : List Column) :
    (slotsFrom start columns).map Prod.fst = columns := by
  induction columns generalizing start with
  | nil => rfl
  | cons first rest ih => rw [slotsFrom, List.map_cons, ih]

theorem mem_of_slot (slot : (column, place) ∈ schema.slots) : column ∈ schema := by
  have wired : column ∈ schema.wire := by
    rw [← map_fst_slotsFrom 0 schema.wire]
    exact List.mem_map_of_mem slot
  exact (perm_wireOrder Column.key schema).mem_iff.mp wired

theorem slot_le_size (slot : (column, place) ∈ schema.slots) :
    place + column.field.size ≤ schema.size := by
  obtain ⟨before, after, split, rfl⟩ := mem_slotsFrom_iff.mp slot
  have total : schema.size = extent before + (column.field.size + extent after) := by
    rw [size, split, extent_append]
    rfl
  omega

theorem exists_slotFrom {start i : Nat} {columns : List Column} (behind : start ≤ i)
    (inside : i < start + extent columns) :
    ∃ column place, (column, place) ∈ slotsFrom start columns ∧
      place ≤ i ∧ i < place + column.field.size := by
  induction columns generalizing start with
  | nil =>
      have nothing : extent [] = 0 := rfl
      omega
  | cons first rest ih =>
      have total : extent (first :: rest) = first.field.size + extent rest := rfl
      by_cases here : i < start + first.field.size
      · exact ⟨first, start, List.mem_cons_self, behind, here⟩
      · obtain ⟨column, place, slot, within⟩ :=
          ih (Nat.le_of_not_lt here) (by omega)
        exact ⟨column, place, List.mem_cons_of_mem _ slot, within⟩

/-- The slots leave no place of the schema out. -/
theorem exists_slot {i : Nat} (inside : i < schema.size) :
    ∃ column place, (column, place) ∈ schema.slots ∧ place ≤ i ∧ i < place + column.field.size := by
  apply exists_slotFrom (Nat.zero_le i)
  rwa [Nat.zero_add]

/-! ## Distinct keys -/

/-- No two columns have one key. -/
def Distinct (schema : Schema) : Prop := (schema.map Column.key).Nodup

instance (schema : Schema) : Decidable schema.Distinct :=
  inferInstanceAs (Decidable (List.Nodup _))

theorem Distinct.wire (distinct : schema.Distinct) : schema.wire.Distinct :=
  ((perm_wireOrder Column.key schema).map Column.key).nodup_iff.mpr distinct

/-- A key has one slot. -/
theorem Distinct.slot_unique (distinct : schema.Distinct) {one other : Column × Nat}
    (slot : one ∈ schema.slots) (otherSlot : other ∈ schema.slots)
    (same : one.1.key = other.1.key) : one = other := by
  have keys : (schema.slots.map fun slot => slot.1.key).Nodup := by
    have wired := distinct.wire
    rw [Distinct, ← map_fst_slotsFrom 0 schema.wire, List.map_map] at wired
    exact wired
  exact List.inj_on_of_nodup_map keys slot otherSlot same

end Schema

/-! ## Rows by their keys -/

namespace Row

variable {schema other : Schema}

theorem map_key_cells (row : Row schema) : row.cells.map Cell.key = schema.map Column.key := by
  have keys := congrArg (List.map Column.key) row.columns
  rw [List.map_map] at keys
  exact keys

theorem find?_eq_some_iff (distinct : schema.Distinct) {row : Row schema} {key : String}
    {cell : Cell} : row.find? key = some cell ↔ cell ∈ row.cells ∧ cell.key = key := by
  rw [find?]
  constructor
  · intro found
    exact ⟨List.mem_of_find?_eq_some found, by simpa using List.find?_some found⟩
  · rintro ⟨member, rfl⟩
    have keys : (row.cells.map Cell.key).Nodup := by
      rw [row.map_key_cells]
      exact distinct
    cases found : row.cells.find? (·.key = cell.key) with
    | none =>
        have absent := List.find?_eq_none.mp found cell member
        simp at absent
    | some first =>
        have same : first.key = cell.key := by simpa using List.find?_some found
        rw [List.inj_on_of_nodup_map keys (List.mem_of_find?_eq_some found) member same]

/-- Both rows hold the same value under every key, in whatever order. -/
def SameValues (row : Row schema) (kept : Row other) : Prop :=
  ∀ key, row.find? key = kept.find? key

theorem eq_of_sameValues (distinct : schema.Distinct) {row kept : Row schema}
    (same : row.SameValues kept) : row = kept := by
  have keys : row.cells.map Cell.key = kept.cells.map Cell.key := by
    rw [row.map_key_cells, kept.map_key_cells]
  have cells : row.cells = kept.cells := by
    apply List.ext_getElem
    · simpa using congrArg List.length keys
    · intro i inside keptInside
      have key : row.cells[i].key = kept.cells[i].key := by
        have entry := congrArg (·[i]?) keys
        simpa [inside, keptInside] using entry
      have found := (find?_eq_some_iff distinct).mpr ⟨List.getElem_mem inside, key⟩
      rw [same, (find?_eq_some_iff distinct).mpr ⟨List.getElem_mem keptInside, rfl⟩] at found
      exact (Option.some.inj found).symm
  cases row
  cases kept
  simpa using cells

/-- A row in wire order can be handed back in the order of its schema. -/
theorem exists_sameValues (distinct : schema.Distinct) (kept : Row schema.wire) :
    ∃ row : Row schema, row.SameValues kept := by
  have wired : schema.Perm (kept.cells.map Cell.column) := by
    rw [kept.columns]
    exact (perm_wireOrder Column.key schema).symm
  have sorted := congrFun (congrFun (List.eq_map_comp_perm Cell.column) schema) kept.cells
  obtain ⟨cells, declared, order⟩ := sorted.mpr wired
  refine ⟨⟨cells, declared.symm⟩, fun key => ?_⟩
  apply Option.ext
  intro cell
  rw [find?_eq_some_iff distinct, find?_eq_some_iff distinct.wire, order.mem_iff]

/-! ## Values at their slots -/

variable {column : Column} {place : Nat}

/-- The value of a column stands at the slot of that column, whichever NaNs are stored. -/
theorem holds_slotAs (nan : NanChoice) (row : Row schema) (slot : (column, place) ∈ schema.slots) :
    ∃ value : column.field.Value, ⟨column.key, column.field, value⟩ ∈ row.cells ∧
      Span.Holds ⟨place, column.field.size⟩ (row.encodeAs nan)
        (column.field.encodeAs nan place value) := by
  obtain ⟨before, after, split, rfl⟩ := Schema.mem_slotsFrom_iff.mp slot
  have cells := row.wire.columns.trans split
  obtain ⟨front, rest, parts, rfl, onward⟩ := List.map_eq_append_iff.mp cells
  obtain ⟨⟨key, field, value⟩, behind, rfl, rfl, rfl⟩ := List.map_eq_cons_iff.mp onward
  refine ⟨value, ?_, ?_⟩
  · apply (perm_wireOrder Cell.key row.cells).mem_iff.mp
    show _ ∈ row.wire.cells
    rw [parts]
    exact List.mem_append_right _ List.mem_cons_self
  · have middle := Span.holds_middle (Cell.encodeFrom nan 0 front)
      (field.encodeAs nan (0 + Schema.extent (front.map Cell.column)) value)
      (Cell.encodeFrom nan (0 + Schema.extent (front.map Cell.column) + field.size) behind)
    rw [Cell.length_encodeFrom, field.length_encodeAs] at middle
    rw [encodeAs, parts, Cell.encodeFrom_append, Cell.encodeFrom, Nat.zero_add]
    rwa [Nat.zero_add] at middle

theorem find?_slotAs (nan : NanChoice) (distinct : schema.Distinct) (row : Row schema)
    (slot : (column, place) ∈ schema.slots) :
    ∃ value : column.field.Value, row.find? column.key = some ⟨column.key, column.field, value⟩ ∧
      Span.Holds ⟨place, column.field.size⟩ (row.encodeAs nan)
        (column.field.encodeAs nan place value) := by
  obtain ⟨value, member, holds⟩ := row.holds_slotAs nan slot
  exact ⟨value, (find?_eq_some_iff distinct).mpr ⟨member, rfl⟩, holds⟩

theorem find?_slot (distinct : schema.Distinct) (row : Row schema)
    (slot : (column, place) ∈ schema.slots) :
    ∃ value : column.field.Value, row.find? column.key = some ⟨column.key, column.field, value⟩ ∧
      Span.Holds ⟨place, column.field.size⟩ row.encode (column.field.encode value) := by
  obtain ⟨value, found, holds⟩ := row.find?_slotAs .canonical distinct slot
  rw [encodeAs_canonical, Field.encodeAs_canonical] at holds
  exact ⟨value, found, holds⟩

end Row

theorem Cell.decodeAll_append (columns more : List Column) (bytes : Bytes) :
    decodeAll (columns ++ more) bytes =
      decodeAll columns bytes ++ decodeAll more (bytes.drop (Schema.extent columns)) := by
  induction columns generalizing bytes with
  | nil => rfl
  | cons first rest ih =>
      rw [List.cons_append, decodeAll, decodeAll, ih, List.drop_drop, List.cons_append]
      rfl

/-- A row that is read has under every key the value at the slot of that key. -/
theorem Schema.decode_slot {schema : Schema} (distinct : schema.Distinct) {buf : Bytes}
    {kept : Row schema.wire} (read : schema.decode buf = .ok kept) {column : Column} {place : Nat}
    (slot : (column, place) ∈ schema.slots) :
    kept.find? column.key =
      some ⟨column.key, column.field, column.field.decode (buf.drop place)⟩ := by
  obtain ⟨before, after, split, rfl⟩ := mem_slotsFrom_iff.mp slot
  rw [decode] at read
  split at read
  · cases read
  · cases read
    rw [Row.find?_eq_some_iff distinct.wire, Nat.zero_add]
    refine ⟨?_, rfl⟩
    show _ ∈ Cell.decodeAll schema.wire buf
    rw [split, Cell.decodeAll_append]
    exact List.mem_append_right _ List.mem_cons_self

end NfcTag
