/-
# NfcTag.Proofs.Schema.Order -- the order in which columns are laid out

A key that spells an index is the decimal text of a number up to 4294967294 (`Spells`);
any other key is a name.  Columns under an index come first, ascending, and columns
under a name follow as the schema lists them (`InWireOrder`), which leaves one order
only.  Sizes, rows, reading and payloads all keep to it (`UsesOrder`).  So where the
columns with an index stand in a schema makes no difference to anybody (`SameBytes`).

Main statement: `bytes_follow_wire_order`.

That a numeral is read back (`Nat.toNat?_repr`) comes with Mathlib as a whole, and with no
part of it; hence the import.
-/
import Mathlib
import NfcTag.Payload
import NfcTag.Proofs.Schema.Slots

namespace NfcTag

set_option autoImplicit false

/-! ## Keys -/

/-- The key is the decimal text of the index, which is in range. -/
def Spells (key : String) (index : Nat) : Prop := key = toString index ∧ index ≤ 4294967294

/-- The key spells no index. -/
def IsName (key : String) : Prop := ∀ index, ¬ Spells key index

theorem keyIndex?_eq_some_iff {key : String} {index : Nat} :
    keyIndex? key = some index ↔ Spells key index := by
  rw [keyIndex?, Option.filter_eq_some_iff, Spells, decide_eq_true_eq]
  constructor
  · rintro ⟨-, text, small⟩
    exact ⟨text.symm, Nat.le_of_lt_succ small⟩
  · rintro ⟨rfl, small⟩
    exact ⟨Nat.toNat?_repr index, rfl, Nat.lt_succ_of_le small⟩

theorem keyIndex?_eq_none_iff {key : String} : keyIndex? key = none ↔ IsName key := by
  simp only [Option.eq_none_iff_forall_ne_some, ne_eq, keyIndex?_eq_some_iff, IsName]

/-- A key with a character that is no digit is a name. -/
theorem isName_of_mem {key : String} (char : Char) (among : char ∈ key.toList)
    (foreign : char.isDigit = false) : IsName key := by
  rintro index ⟨rfl, -⟩
  have listed : char ∈ Nat.toDigits 10 index := by
    rwa [← String.toList_ofList (l := Nat.toDigits 10 index)]
  have digit : char.isDigit = true := Nat.isDigit_of_mem_toDigits (by decide) (by decide) listed
  rw [foreign] at digit
  cases digit

/-! ## Sorting -/

namespace WireOrder

variable {α : Type} {index : α → Nat}

theorem pairwise_insert {item : α} {items : List α}
    (sorted : items.Pairwise fun one other => index one ≤ index other) :
    (insert index item items).Pairwise fun one other => index one ≤ index other := by
  induction items with
  | nil => exact List.pairwise_singleton _ _
  | cons next rest ih =>
      obtain ⟨first, others⟩ := List.pairwise_cons.mp sorted
      rw [insert]
      split
      case isTrue small =>
        refine List.pairwise_cons.mpr ⟨fun other member => ?_, sorted⟩
        rcases List.mem_cons.mp member with rfl | later
        · exact small
        · exact Nat.le_trans small (first other later)
      case isFalse large =>
        refine List.pairwise_cons.mpr ⟨fun other member => ?_, ih others⟩
        rcases List.mem_cons.mp ((perm_insert index item rest).mem_iff.mp member) with rfl | later
        · exact Nat.le_of_not_le large
        · exact first other later

theorem pairwise_sort (index : α → Nat) (items : List α) :
    (sort index items).Pairwise fun one other => index one ≤ index other := by
  induction items with
  | nil => exact .nil
  | cons item items ih => exact pairwise_insert ih

end WireOrder

namespace Schema

variable {schema other : Schema} {order : List Column}

/-- The keys are the texts of indices that get larger. -/
def Ascending (columns : List Column) : Prop :=
  ∃ indices : List Nat, columns.map Column.key = indices.map toString ∧
    indices.Pairwise (· < ·) ∧ ∀ index ∈ indices, index ≤ 4294967294

/-- The columns of a schema, first those under an index and ascending, then those under
a name and as they are listed. -/
inductive InWireOrder (schema : Schema) : List Column → Prop where
  | parts {indexed named : List Column} (all : (indexed ++ named).Perm schema)
      (ascending : Ascending indexed) (names : ∀ column ∈ named, IsName column.key)
      (listed : named.Sublist schema) : InWireOrder schema (indexed ++ named)

/-- Columns under names stand in one order in both schemas. -/
def SameNameOrder (schema other : Schema) : Prop :=
  ∀ one two : Column, IsName one.key → IsName two.key →
    ([one, two].Sublist schema ↔ [one, two].Sublist other)

/-- The index of a column that has one. -/
def index (column : Column) : Nat := (keyIndex? column.key).getD 0

def indexedColumns (schema : Schema) : List Column :=
  schema.filter fun column => (keyIndex? column.key).isSome

def namedColumns (schema : Schema) : List Column :=
  schema.filter fun column => (keyIndex? column.key).isNone

theorem wire_eq (schema : Schema) :
    schema.wire = WireOrder.sort index schema.indexedColumns ++ schema.namedColumns := rfl

theorem spells_of_mem_indexedColumns {column : Column}
    (member : column ∈ schema.indexedColumns) : Spells column.key (index column) := by
  obtain ⟨found, spelt⟩ := Option.isSome_iff_exists.mp (List.mem_filter.mp member).2
  rw [index, spelt]
  exact keyIndex?_eq_some_iff.mp spelt

theorem isName_of_mem_namedColumns {column : Column} (member : column ∈ schema.namedColumns) :
    IsName column.key :=
  keyIndex?_eq_none_iff.mp (Option.isNone_iff_eq_none.mp (List.mem_filter.mp member).2)

theorem Distinct.nodup (distinct : schema.Distinct) : schema.Nodup := List.Nodup.of_map _ distinct

/-- Columns of one key are one column. -/
theorem Distinct.eq_of_key (distinct : schema.Distinct) {one two : Column} (first : one ∈ schema)
    (second : two ∈ schema) (same : one.key = two.key) : one = two :=
  List.inj_on_of_nodup_map distinct first second same

/-! ## The order is the wire order -/

theorem ascending_sort (distinct : schema.Distinct) :
    Ascending (WireOrder.sort index schema.indexedColumns) := by
  have sorted := WireOrder.pairwise_sort index schema.indexedColumns
  have perm := WireOrder.perm_sort index schema.indexedColumns
  have spells {column : Column} (member : column ∈ WireOrder.sort index schema.indexedColumns) :
      column ∈ schema ∧ Spells column.key (index column) :=
    have listed := perm.mem_iff.mp member
    ⟨(List.mem_filter.mp listed).1, spells_of_mem_indexedColumns listed⟩
  refine ⟨(WireOrder.sort index schema.indexedColumns).map index, ?_, ?_, ?_⟩
  · rw [List.map_map]
    exact List.map_congr_left fun column member => (spells member).2.1
  · rw [List.pairwise_map]
    have nodup : (WireOrder.sort index schema.indexedColumns).Nodup :=
      perm.nodup_iff.mpr (distinct.nodup.filter _)
    refine (sorted.and nodup).imp_of_mem fun first second ⟨le, ne⟩ => ?_
    refine Nat.lt_of_le_of_ne le fun same => ne ?_
    obtain ⟨listed, text, -⟩ := spells first
    obtain ⟨otherListed, otherText, -⟩ := spells second
    exact distinct.eq_of_key listed otherListed (by rw [text, otherText, same])
  · intro position member
    obtain ⟨column, listed, rfl⟩ := List.mem_map.mp member
    exact (spells listed).2.2

theorem inWireOrder_wire (distinct : schema.Distinct) : schema.InWireOrder schema.wire := by
  rw [wire_eq]
  refine .parts ?_ (ascending_sort distinct) ?_ List.filter_sublist
  · exact perm_wireOrder Column.key schema
  · exact fun column member => isName_of_mem_namedColumns member

theorem Ascending.spells {columns : List Column} (ascending : Ascending columns) {column : Column}
    (member : column ∈ columns) : keyIndex? column.key = some (index column) := by
  obtain ⟨indices, keys, -, small⟩ := ascending
  have listed : column.key ∈ indices.map toString := keys ▸ List.mem_map_of_mem member
  obtain ⟨position, inside, text⟩ := List.mem_map.mp listed
  have found := keyIndex?_eq_some_iff.mpr ⟨text.symm, small position inside⟩
  rw [index, found, Option.getD_some]

theorem Ascending.pairwise {columns : List Column} (ascending : Ascending columns) :
    columns.Pairwise fun one two => index one ≤ index two := by
  have spells {column : Column} (member : column ∈ columns) := ascending.spells member
  obtain ⟨indices, keys, increasing, small⟩ := ascending
  have same : columns.map index = indices := calc
    columns.map index = (columns.map Column.key).map fun key => (keyIndex? key).getD 0 := by
      rw [List.map_map]
      rfl
    _ = indices.map id := by
      rw [keys, List.map_map]
      refine List.map_congr_left fun position member => ?_
      have found : keyIndex? (toString position) = some position :=
        keyIndex?_eq_some_iff.mpr ⟨rfl, small position member⟩
      rw [Function.comp_apply, found]
      rfl
    _ = indices := List.map_id indices
  rw [← same, List.pairwise_map] at increasing
  exact increasing.imp Nat.le_of_lt

theorem indexedColumns_append (front back : Schema) :
    indexedColumns (front ++ back) = front.indexedColumns ++ back.indexedColumns :=
  List.filter_append front back

theorem namedColumns_append (front back : Schema) :
    namedColumns (front ++ back) = front.namedColumns ++ back.namedColumns :=
  List.filter_append front back

theorem Ascending.columns (ascending : Ascending schema) :
    schema.indexedColumns = schema ∧ schema.namedColumns = [] := by
  constructor
  · refine List.filter_eq_self.mpr fun column member => ?_
    rw [ascending.spells member, Option.isSome_some]
  · refine List.filter_eq_nil_iff.mpr fun column member => ?_
    rw [ascending.spells member]
    exact Bool.false_ne_true

theorem columns_of_names (names : ∀ column ∈ schema, IsName column.key) :
    schema.indexedColumns = [] ∧ schema.namedColumns = schema := by
  constructor
  · refine List.filter_eq_nil_iff.mpr fun column member => ?_
    rw [keyIndex?_eq_none_iff.mpr (names column member)]
    exact Bool.false_ne_true
  · refine List.filter_eq_self.mpr fun column member => ?_
    rw [keyIndex?_eq_none_iff.mpr (names column member), Option.isNone_none]

/-- Of distinct columns there is one order by index. -/
theorem Ascending.eq_sort (distinct : schema.Distinct) {columns : List Column}
    (ascending : Ascending columns) (perm : columns.Perm schema.indexedColumns) :
    columns = WireOrder.sort index schema.indexedColumns := by
  have sorted := WireOrder.perm_sort index schema.indexedColumns
  refine List.Perm.eq_of_pairwise (fun one two first second le ge => ?_) ascending.pairwise
    (WireOrder.pairwise_sort index schema.indexedColumns) (perm.trans sorted.symm)
  have first := perm.mem_iff.mp first
  have second := sorted.mem_iff.mp second
  refine distinct.eq_of_key (List.mem_filter.mp first).1 (List.mem_filter.mp second).1 ?_
  rw [(spells_of_mem_indexedColumns first).1, (spells_of_mem_indexedColumns second).1,
    Nat.le_antisymm le ge]

/-- There is one wire order. -/
theorem InWireOrder.eq_wire (distinct : schema.Distinct) (ordered : schema.InWireOrder order) :
    order = schema.wire := by
  cases ordered with
  | @parts indexed named all ascending names listed =>
      obtain ⟨ownIndexed, noneNamed⟩ := ascending.columns
      obtain ⟨noneIndexed, ownNamed⟩ := columns_of_names names
      have front : indexed.Perm schema.indexedColumns := by
        have kept : (indexedColumns (indexed ++ named)).Perm schema.indexedColumns := all.filter _
        rwa [indexedColumns_append, ownIndexed, noneIndexed, List.append_nil] at kept
      have back : named.Perm schema.namedColumns := by
        have kept : (namedColumns (indexed ++ named)).Perm schema.namedColumns := all.filter _
        rwa [namedColumns_append, noneNamed, ownNamed, List.nil_append] at kept
      have sublist : named.Sublist schema.namedColumns := by
        have kept : (namedColumns named).Sublist schema.namedColumns := listed.filter _
        rwa [ownNamed] at kept
      rw [wire_eq, ← ascending.eq_sort distinct front, sublist.eq_of_length back.length_eq]

theorem inWireOrder_iff (distinct : schema.Distinct) :
    schema.InWireOrder order ↔ order = schema.wire :=
  ⟨fun ordered => ordered.eq_wire distinct, fun same => same ▸ inWireOrder_wire distinct⟩

/-! ## Schemas that list the same columns -/

theorem eq_of_sublist_pairs {α : Type} {items : List α} (nodup : items.Nodup) {one two : α}
    (before : [one, two].Sublist items) (behind : [two, one].Sublist items) : one = two := by
  induction items with
  | nil => cases before
  | cons first rest ih =>
      obtain ⟨fresh, others⟩ := List.nodup_cons.mp nodup
      cases before with
      | cons _ later =>
          cases behind with
          | cons _ alsoLater => exact ih others later alsoLater
          | cons_cons _ _ => exact absurd (later.subset (by simp)) fresh
      | cons_cons _ later =>
          cases behind with
          | cons _ alsoLater => exact absurd (alsoLater.subset (by simp)) fresh
          | cons_cons _ _ => rfl

theorem sublist_namedColumns_iff {one two : Column} :
    [one, two].Sublist schema.namedColumns ↔
      IsName one.key ∧ IsName two.key ∧ [one, two].Sublist schema := by
  constructor
  · intro listed
    exact ⟨isName_of_mem_namedColumns (listed.subset (by simp)),
      isName_of_mem_namedColumns (listed.subset (by simp)), listed.trans List.filter_sublist⟩
  · rintro ⟨first, second, listed⟩
    have kept := listed.filter fun column => (keyIndex? column.key).isNone
    have both : [one, two].filter (fun column => (keyIndex? column.key).isNone) = [one, two] := by
      simp [keyIndex?_eq_none_iff.mpr first, keyIndex?_eq_none_iff.mpr second]
    rwa [both] at kept

theorem sameNameOrder_iff (distinct : schema.Distinct) (perm : schema.Perm other) :
    SameNameOrder schema other ↔ schema.namedColumns = other.namedColumns := by
  constructor
  · intro same
    have nodup : schema.namedColumns.Nodup := distinct.nodup.filter _
    have own : schema.namedColumns.Pairwise fun one two =>
        [one, two].Sublist schema.namedColumns :=
      List.pairwise_iff_forall_sublist.mpr fun listed => listed
    have others : other.namedColumns.Pairwise fun one two =>
        [one, two].Sublist schema.namedColumns := by
      refine List.pairwise_iff_forall_sublist.mpr fun listed => ?_
      obtain ⟨first, second, ordered⟩ := sublist_namedColumns_iff.mp listed
      exact sublist_namedColumns_iff.mpr ⟨first, second, (same _ _ first second).mpr ordered⟩
    exact List.Perm.eq_of_pairwise
      (fun _ _ _ _ before behind => eq_of_sublist_pairs nodup before behind) own others
      (perm.filter _)
  · intro same one two first second
    have ordered (schema : Schema) :
        [one, two].Sublist schema ↔ [one, two].Sublist schema.namedColumns := by
      rw [sublist_namedColumns_iff]
      exact ⟨fun listed => ⟨first, second, listed⟩, fun listed => listed.2.2⟩
    rw [ordered schema, ordered other, same]

theorem Distinct.of_perm (distinct : schema.Distinct) (perm : schema.Perm other) :
    other.Distinct :=
  (perm.map Column.key).nodup_iff.mp distinct

/-- Where the columns under an index are listed has no part in the order. -/
theorem wire_eq_of_perm (distinct : schema.Distinct) (perm : schema.Perm other)
    (same : SameNameOrder schema other) : other.wire = schema.wire := by
  apply InWireOrder.eq_wire distinct
  have named := (sameNameOrder_iff distinct perm).mp same
  refine .parts ?_ (ascending_sort (distinct.of_perm perm)) ?_ ?_
  · exact (perm_wireOrder Column.key other).trans perm.symm
  · exact fun column member => isName_of_mem_namedColumns member
  · show other.namedColumns.Sublist schema
    rw [← named]
    exact List.filter_sublist

end Schema

/-! ## Rows and buffers in wire order -/

namespace Row

variable {schema : Schema}

/-- The bytes of the value that a row has under a key. -/
def bytesUnder (row : Row schema) (key : String) : Bytes :=
  ((row.find? key).map Cell.encode).getD []

theorem encode_eq_flatMap_wire (distinct : schema.Distinct) (row : Row schema) :
    row.encode = schema.wire.flatMap fun column => row.bytesUnder column.key := by
  have columns := congrArg (List.flatMap fun column => row.bytesUnder column.key) row.wire.columns
  rw [List.flatMap_map] at columns
  rw [encode, ← columns]
  refine List.flatMap_congr fun cell member => ?_
  have held := (perm_wireOrder Cell.key row.cells).mem_iff.mp member
  have found : row.find? cell.key = some cell := (find?_eq_some_iff distinct).mpr ⟨held, rfl⟩
  show cell.encode = row.bytesUnder cell.key
  rw [bytesUnder, found]
  rfl

end Row

namespace Schema

variable {schema other : Schema} {order : List Column}

/-- Whatever is done with the bytes of a schema, they come in this order. -/
structure UsesOrder (schema : Schema) (order : List Column) : Prop where
  size_eq : schema.size = (order.map fun column => column.field.size).sum
  encode_eq : ∀ row : Row schema,
    row.encode = order.flatMap fun column => row.bytesUnder column.key
  /-- What is written has the bytes of every value from behind those before. -/
  holds : ∀ (row : Row schema) before column after, order = before ++ column :: after →
    ∃ value, row.find? column.key = some ⟨column.key, column.field, value⟩ ∧
      Span.Holds ⟨(before.map fun other => other.field.size).sum, column.field.size⟩ row.encode
        (column.field.encode value)
  /-- What is read has the columns in order, the value of each from behind those before. -/
  decode_eq : ∀ buf, schema.size ≤ buf.length → ∃ kept, schema.decode buf = .ok kept ∧
    kept.cells.map Cell.column = order ∧
    ∀ before column after, order = before ++ column :: after →
      kept.find? column.key = some ⟨column.key, column.field,
        column.field.decode (buf.drop (before.map fun other => other.field.size).sum)⟩
  /-- A payload is its schema, but for the lengths that it takes. -/
  payload_eq : ∀ name, Payload.size ⟨name, schema⟩ = schema.size ∧
    (∀ row, Payload.encode ⟨name, schema⟩ row = row.encode) ∧
    ∀ buf, buf.length = schema.size → Payload.decode ⟨name, schema⟩ buf = schema.decode buf

theorem usesOrder_wire (distinct : schema.Distinct) : schema.UsesOrder schema.wire where
  size_eq := extent_eq_sum schema.wire
  encode_eq := Row.encode_eq_flatMap_wire distinct
  holds row before column after split :=
    row.find?_slot distinct (mem_slots_iff.mpr ⟨before, after, split, rfl⟩)
  decode_eq buf enough := by
    have read : schema.decode buf = .ok _ := if_neg (Nat.not_lt_of_le enough)
    refine ⟨_, read, Cell.map_column_decodeAll schema.wire buf, fun before column after split => ?_⟩
    exact decode_slot distinct read (mem_slots_iff.mpr ⟨before, after, split, rfl⟩)
  payload_eq _ := ⟨rfl, fun _ => rfl, fun _ whole => if_pos whole⟩

/-- No byte tells the schemas apart. -/
structure SameBytes (schema other : Schema) : Prop where
  size_eq : schema.size = other.size
  /-- Every row of the one can be said in the other, and is written alike. -/
  exists_row : ∀ row : Row schema, ∃ twin : Row other, row.SameValues twin
  encode_eq : ∀ (row : Row schema) (twin : Row other), row.SameValues twin →
    row.encode = twin.encode
  /-- Every buffer is read as the same entries in the same order, or refused alike. -/
  decode_eq : ∀ buf, (schema.decode buf).map Row.cells = (other.decode buf).map Row.cells
  payload_encode_eq : ∀ name (row : Row schema) (twin : Row other), row.SameValues twin →
    Payload.encode ⟨name, schema⟩ row = Payload.encode ⟨name, other⟩ twin
  payload_decode_eq : ∀ name buf,
    (Payload.decode ⟨name, schema⟩ buf).map Row.cells =
      (Payload.decode ⟨name, other⟩ buf).map Row.cells

theorem map_cells_decode (schema : Schema) (buf : Bytes) :
    (schema.decode buf).map Row.cells =
      if buf.length < schema.size then .error (.bufferTooSmall schema.size buf.length)
      else .ok (Cell.decodeAll schema.wire buf) := by
  rw [decode]
  split <;> rfl

theorem map_cells_payload_decode (name : String) (schema : Schema) (buf : Bytes) :
    (Payload.decode ⟨name, schema⟩ buf).map Row.cells =
      if buf.length = schema.size then (schema.decode buf).map Row.cells
      else .error (.payloadLength name schema.size buf.length) := by
  rw [Payload.decode, Payload.size]
  split <;> rfl

/-- The wire order is all that bytes depend on. -/
theorem sameBytes_of_wire_eq (distinct : schema.Distinct) (otherDistinct : other.Distinct)
    (same : other.wire = schema.wire) : schema.SameBytes other := by
  have size_eq : schema.size = other.size := by rw [size, size, same]
  have encode_eq (row : Row schema) (twin : Row other) (alike : row.SameValues twin) :
      row.encode = twin.encode := by
    have under (key : String) : row.bytesUnder key = twin.bytesUnder key := by
      rw [Row.bytesUnder, Row.bytesUnder, alike]
    rw [Row.encode_eq_flatMap_wire distinct, Row.encode_eq_flatMap_wire otherDistinct, same]
    simp only [under]
  have decode_eq (buf : Bytes) :
      (schema.decode buf).map Row.cells = (other.decode buf).map Row.cells := by
    rw [map_cells_decode, map_cells_decode, size_eq, same]
  constructor
  case size_eq => exact size_eq
  case encode_eq => exact encode_eq
  case decode_eq => exact decode_eq
  case exists_row =>
    intro row
    let moved : Row other.wire := ⟨row.wire.cells, row.wire.columns.trans same.symm⟩
    obtain ⟨twin, alike⟩ := Row.exists_sameValues otherDistinct moved
    refine ⟨twin, fun key => ?_⟩
    rw [alike, ← row.find?_wire]
    rfl
  case payload_encode_eq => exact fun _ => encode_eq
  case payload_decode_eq =>
    intro name buf
    rw [map_cells_payload_decode, map_cells_payload_decode, size_eq, decode_eq]

/-- **Bytes come in wire order**, whatever is done with them: the columns under an index
first and ascending, those under a name behind them as they are listed.  So a schema may
list the columns under an index anywhere. -/
theorem bytes_follow_wire_order (schema : Schema) (distinct : schema.Distinct) :
    (∀ order, schema.InWireOrder order ↔ order = schema.wire) ∧
      schema.UsesOrder schema.wire ∧
      ∀ other : Schema, schema.Perm other → SameNameOrder schema other → schema.SameBytes other :=
  ⟨fun _ => inWireOrder_iff distinct, usesOrder_wire distinct, fun _ perm same =>
    sameBytes_of_wire_eq distinct (distinct.of_perm perm) (wire_eq_of_perm distinct perm same)⟩

/-- A leading zero makes a name of an index, and so does one more than the largest. -/
theorem bytes_follow_wire_order_mixed :
    let schema : Schema := [⟨"b", .u16⟩, ⟨"10", .u8⟩, ⟨"01", .bool⟩, ⟨"4294967295", .f32⟩,
      ⟨"2", .u32⟩, ⟨"4294967294", .i64⟩]
    let other : Schema := [⟨"4294967294", .i64⟩, ⟨"b", .u16⟩, ⟨"2", .u32⟩, ⟨"01", .bool⟩,
      ⟨"10", .u8⟩, ⟨"4294967295", .f32⟩]
    let row : Row schema := ⟨[⟨"b", .u16, .ofInt 0x1234⟩, ⟨"10", .u8, .ofInt 7⟩,
      ⟨"01", .bool, true⟩, ⟨"4294967295", .f32, .ofInt 1⟩, ⟨"2", .u32, .ofInt 0xdeadbeef⟩,
      ⟨"4294967294", .i64, (-2 : Int)⟩], rfl⟩
    schema.Distinct ∧ schema.Perm other ∧ SameNameOrder schema other ∧
      schema.InWireOrder [⟨"2", .u32⟩, ⟨"10", .u8⟩, ⟨"4294967294", .i64⟩, ⟨"b", .u16⟩,
        ⟨"01", .bool⟩, ⟨"4294967295", .f32⟩] ∧
      row.encode = [0xde, 0xad, 0xbe, 0xef, 0x07, 0xff, 0xff, 0xff, 0xff, 0xff, 0xff, 0xff, 0xfe,
        0x12, 0x34, 0x01, 0x3f, 0x80, 0x00, 0x00] ∧
      schema.SameBytes other := by
  intro schema other row
  have distinct : schema.Distinct := by decide
  have perm : schema.Perm other := by decide
  have names : schema.namedColumns = [⟨"b", .u16⟩, ⟨"01", .bool⟩, ⟨"4294967295", .f32⟩] := by cbv
  have otherNames : other.namedColumns = [⟨"b", .u16⟩, ⟨"01", .bool⟩, ⟨"4294967295", .f32⟩] := by
    cbv
  have same : SameNameOrder schema other :=
    (sameNameOrder_iff distinct perm).mpr (names.trans otherNames.symm)
  have wire : schema.wire = [⟨"2", .u32⟩, ⟨"10", .u8⟩, ⟨"4294967294", .i64⟩, ⟨"b", .u16⟩,
      ⟨"01", .bool⟩, ⟨"4294967295", .f32⟩] := by cbv
  obtain ⟨order_iff, uses, sameBytes⟩ := bytes_follow_wire_order schema distinct
  refine ⟨distinct, perm, same, (order_iff _).mpr wire.symm, ?_, sameBytes other perm same⟩
  rw [uses.encode_eq, wire]
  decide +kernel

end Schema

end NfcTag
