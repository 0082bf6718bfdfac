/-
# NfcTag.Proofs.Schema.Stores -- rows laid down one value at a time

A row's bytes come about in two ways: all at once, and by storing each value into
the slot of its column with the check that every store makes.  The second way takes
no order.  Slots lie inside the row's bytes, so no store is refused; they leave no
place out, so nothing of the buffer is left; and what a store puts down is what the
row's bytes have there (`Row.PutsAt.exists_value`), so it does not matter which one
comes last.  Reading goes the same two ways.

Main statement: `fields_are_independent`.
-/
import NfcTag.Proofs.Field.Runs
import NfcTag.Proofs.Number.Exact
import NfcTag.Proofs.Schema.Order

namespace NfcTag

set_option autoImplicit false

/-- In lists that go together, everything has its counterpart. -/
theorem exists_of_mem_forall₂ {α β : Type} {R : α → β → Prop} {items : List α} {others : List β}
    (together : List.Forall₂ R items others) {item : α} (member : item ∈ items) :
    ∃ other ∈ others, R item other := by
  induction together with
  | nil => cases member
  | cons first _ ih =>
      rcases List.mem_cons.mp member with rfl | later
      · exact ⟨_, List.mem_cons_self, first⟩
      · obtain ⟨other, among, related⟩ := ih later
        exact ⟨other, List.mem_cons_of_mem _ among, related⟩

namespace Row

variable {schema : Schema} {row other : Row schema} {column : Column} {place i : Nat}
  {store : Store} {order : List (Column × Nat)} {stores : List Store} {blank : Bytes}

/-! ## One value in its slot -/

/-- The store puts what the row holds for a column into that column's slot. -/
inductive PutsAt (row : Row schema) : Column × Nat → Store → Prop
  | mk {key : String} {field : Field} {value : field.Value} {place : Nat} {offset : Binary64}
      (held : row.find? key = some ⟨key, field, value⟩) (named : offset.toNat? = some place) :
      PutsAt row (⟨key, field⟩, place) ⟨field, value, offset⟩

/-- What is put into a slot is what the row's bytes have there. -/
theorem PutsAt.exists_value (distinct : schema.Distinct) (slot : (column, place) ∈ schema.slots)
    (puts : row.PutsAt (column, place) store) :
    ∃ value offset, store = ⟨column.field, value, offset⟩ ∧ offset.toNat? = some place ∧
      Span.Holds ⟨place, column.field.size⟩ row.encode (column.field.encode value) := by
  obtain ⟨held, named⟩ := puts
  obtain ⟨own, found, holds⟩ := row.find?_slot distinct slot
  rw [found] at held
  cases held
  exact ⟨_, _, rfl, named, holds⟩

theorem PutsAt.liesAt (distinct : schema.Distinct) (slot : (column, place) ∈ schema.slots)
    (puts : row.PutsAt (column, place) store) : store.LiesAt schema.size place := by
  obtain ⟨value, offset, rfl, named, -⟩ := puts.exists_value distinct slot
  exact ⟨named, Schema.slot_le_size slot⟩

theorem PutsAt.holds (distinct : schema.Distinct) (slot : (column, place) ∈ schema.slots)
    (puts : row.PutsAt (column, place) store) :
    Span.Holds ⟨place, store.field.size⟩ row.encode store.bytes := by
  obtain ⟨value, offset, rfl, -, holds⟩ := puts.exists_value distinct slot
  exact holds

theorem PutsAt.covers (distinct : schema.Distinct) (slot : (column, place) ∈ schema.slots)
    (puts : row.PutsAt (column, place) store) (behind : place ≤ i)
    (inside : i < place + column.field.size) : store.Covers schema.size i := by
  have lies := puts.liesAt distinct slot
  obtain ⟨value, offset, rfl, -, -⟩ := puts.exists_value distinct slot
  exact ⟨place, lies, behind, inside⟩

/-- A slot can be named, unless it lies beyond all places that a number can count. -/
theorem exists_putsAt (distinct : schema.Distinct) (small : schema.size < 0x20000000000000)
    (slot : (column, place) ∈ schema.slots) : ∃ store, row.PutsAt (column, place) store := by
  obtain ⟨value, found, -⟩ := row.find?_slot distinct slot
  have inside := Schema.slot_le_size slot
  have named : (Binary64.ofInt place).toNat? = some place := Binary64.toNat?_ofInt (by omega)
  exact ⟨_, .mk found named⟩

/-! ## All values, one after another -/

theorem exists_slot_of_mem (puts : List.Forall₂ row.PutsAt order stores)
    (member : store ∈ stores) : ∃ slot ∈ order, row.PutsAt slot store := by
  have backward : List.Forall₂ (flip row.PutsAt) stores order := .flip puts
  exact exists_of_mem_forall₂ backward member

theorem exists_stores (distinct : schema.Distinct) (small : schema.size < 0x20000000000000)
    (slots : ∀ slot ∈ order, slot ∈ schema.slots) :
    ∃ stores, List.Forall₂ row.PutsAt order stores := by
  induction order with
  | nil => exact ⟨[], .nil⟩
  | cons slot order ih =>
      obtain ⟨store, first⟩ := row.exists_putsAt distinct small (slots slot List.mem_cons_self)
      obtain ⟨stores, rest⟩ := ih fun other member => slots other (List.mem_cons_of_mem _ member)
      exact ⟨store :: stores, .cons first rest⟩

/-- Whatever was there before, the row's bytes are there once all values are stored. -/
theorem run_of_putsAt (distinct : schema.Distinct) (whole : blank.length = schema.size)
    (all : order.Perm schema.slots) (puts : List.Forall₂ row.PutsAt order stores) :
    Store.run blank stores = row.encode := by
  apply List.ext_getElem?
  intro i
  by_cases inside : i < schema.size
  · apply Store.getElem?_run_of_holds
    · intro store member place lies
      obtain ⟨⟨column, own⟩, among, put⟩ := exists_slot_of_mem puts member
      have slot := all.mem_iff.mp among
      rw [whole] at lies
      rw [lies.unique (put.liesAt distinct slot)]
      exact put.holds distinct slot
    · obtain ⟨column, place, slot, behind, within⟩ := Schema.exists_slot inside
      obtain ⟨store, member, put⟩ := exists_of_mem_forall₂ puts (all.mem_iff.mpr slot)
      rw [whole]
      exact .inr ⟨store, member, put.covers distinct slot behind within⟩
  · have total := row.length_encode
    have kept := Store.length_run blank stores
    rw [List.getElem?_eq_none (by omega), List.getElem?_eq_none (by omega)]

theorem runAll_of_putsAt (distinct : schema.Distinct) (whole : blank.length = schema.size)
    (all : order.Perm schema.slots) (puts : List.Forall₂ row.PutsAt order stores) :
    Store.runAll blank stores = .ok row.encode := by
  rw [Store.runAll_eq_run, run_of_putsAt distinct whole all puts]
  intro store member
  obtain ⟨⟨column, place⟩, among, put⟩ := exists_slot_of_mem puts member
  rw [whole]
  exact ⟨place, put.liesAt distinct (all.mem_iff.mp among)⟩

/-- The value of one column shows in its own slot only. -/
theorem getElem?_encode_of_outside (distinct : schema.Distinct)
    (same : ∀ key, key ≠ column.key → row.find? key = other.find? key)
    (slot : (column, place) ∈ schema.slots)
    (outside : ¬ (place ≤ i ∧ i < place + column.field.size)) :
    row.encode[i]? = other.encode[i]? := by
  by_cases inside : i < schema.size
  · obtain ⟨owner, start, ownSlot, behind, before⟩ := Schema.exists_slot inside
    have foreign : owner.key ≠ column.key := by
      intro shared
      cases distinct.slot_unique ownSlot slot shared
      exact outside ⟨behind, before⟩
    obtain ⟨value, found, holds⟩ := row.find?_slot distinct ownSlot
    obtain ⟨kept, keptFound, keptHolds⟩ := other.find?_slot distinct ownSlot
    rw [same owner.key foreign, keptFound] at found
    cases found
    have within : i - start < owner.field.size := by omega
    have byte := holds.getElem?_eq within
    rw [← keptHolds.getElem?_eq within, Nat.add_sub_cancel' behind] at byte
    exact byte
  · have width := row.length_encode
    have otherWidth := other.length_encode
    rw [List.getElem?_eq_none (by omega), List.getElem?_eq_none (by omega)]

end Row

namespace Schema

/-- The fields of a schema lie side by side, and none has to do with another. -/
structure Independent (schema : Schema) : Prop where
  /-- A slot begins behind the fields that come before it in wire order. -/
  slot_iff : ∀ column place, (column, place) ∈ schema.slots ↔
    ∃ before after, schema.wire = before ++ column :: after ∧
      place = (before.map fun other => other.field.size).sum
  /-- Stored one at a time, in whatever order, no value is refused, and they make up
  the row's bytes. -/
  stores_eq : ∀ (row : Row schema) order stores blank, blank.length = schema.size →
    order.Perm schema.slots → List.Forall₂ row.PutsAt order stores →
    Store.runAll blank stores = .ok row.encode
  /-- They can be stored in any order, since a number counts every place. -/
  stores_exist : schema.size < 0x20000000000000 → ∀ (row : Row schema) order,
    order.Perm schema.slots → ∃ stores, List.Forall₂ row.PutsAt order stores
  /-- What is read at a slot is what the row that is read holds for its column. -/
  read_eq : ∀ buf, schema.size ≤ buf.length → ∃ kept, schema.decode buf = .ok kept ∧
    ∀ column place, (column, place) ∈ schema.slots → ∀ offset, offset.toNat? = some place →
      ∃ value, column.field.read buf offset = .ok value ∧
        kept.find? column.key = some ⟨column.key, column.field, value⟩
  /-- Rows that differ in one column have the same bytes outside its slot. -/
  frame : ∀ (row other : Row schema) column place, (column, place) ∈ schema.slots →
    (∀ key, key ≠ column.key → row.find? key = other.find? key) →
    ∀ i, ¬ (place ≤ i ∧ i < place + column.field.size) → row.encode[i]? = other.encode[i]?

/-- **A row's bytes are those of its values, each stored into its slot, in any order.** -/
theorem fields_are_independent (schema : Schema) (distinct : schema.Distinct) :
    schema.Independent where
  slot_iff _ _ := mem_slots_iff
  stores_eq _ _ _ _ whole all puts := Row.runAll_of_putsAt distinct whole all puts
  stores_exist small row _ all :=
    row.exists_stores distinct small fun _ member => all.mem_iff.mp member
  read_eq buf enough := by
    have read : schema.decode buf = .ok _ := if_neg (Nat.not_lt_of_le enough)
    refine ⟨_, read, fun column place slot offset named => ?_⟩
    have fits := Nat.le_trans (slot_le_size slot) enough
    exact ⟨_, Field.read_of_place named fits, decode_slot distinct read slot⟩
  frame _ _ _ _ slot same _ outside := Row.getElem?_encode_of_outside distinct same slot outside

/-- In the bytes the indices come first, but here `10` is stored last. -/
theorem fields_are_independent_of_three :
    let schema : Schema := [⟨"b", .u16⟩, ⟨"10", .bool⟩, ⟨"2", .u32⟩]
    let stores : List Store :=
      [⟨.u16, Binary64.ofInt 0x1234, Binary64.ofInt 5⟩,
        ⟨.u32, Binary64.ofInt 0xdeadbeef, Binary64.ofInt 0⟩, ⟨.bool, true, Binary64.ofInt 4⟩]
    schema.Distinct ∧
      Store.runAll (List.replicate 7 0) stores =
        .ok [0xde, 0xad, 0xbe, 0xef, 0x01, 0x12, 0x34] := by
  intro schema stores
  have distinct : schema.Distinct := by decide
  have ordered : schema.InWireOrder ([⟨"2", .u32⟩, ⟨"10", .bool⟩] ++ [⟨"b", .u16⟩]) := by
    refine .parts (by decide) ⟨[2, 10], by decide⟩ (fun column member => ?_) (by decide)
    rw [List.mem_singleton.mp member]
    exact isName_of_mem 'b' (by decide) (by decide)
  have wire : schema.wire = [⟨"2", .u32⟩, ⟨"10", .bool⟩, ⟨"b", .u16⟩] :=
    (ordered.eq_wire distinct).symm
  let order : List (Column × Nat) := [(⟨"b", .u16⟩, 5), (⟨"2", .u32⟩, 0), (⟨"10", .bool⟩, 4)]
  have all : order.Perm schema.slots := by
    rw [slots, wire]
    decide
  let row : Row schema :=
    ⟨[⟨"b", .u16, Binary64.ofInt 0x1234⟩, ⟨"10", .bool, true⟩,
      ⟨"2", .u32, Binary64.ofInt 0xdeadbeef⟩], rfl⟩
  have puts : List.Forall₂ row.PutsAt order stores := by
    refine .cons (.mk rfl ?_) (.cons (.mk rfl ?_) (.cons (.mk rfl ?_) .nil))
    · decide +kernel
    · decide +kernel
    · decide +kernel
  have bytes : row.encode = [0xde, 0xad, 0xbe, 0xef, 0x01, 0x12, 0x34] := by
    rw [Row.encode_eq_flatMap_wire distinct, wire]
    decide +kernel
  rw [← bytes]
  have whole : (List.replicate 7 (0 : UInt8)).length = schema.size := by
    rw [size, wire]
    decide
  exact ⟨distinct, (fields_are_independent schema distinct).stores_eq row order stores
    (List.replicate 7 0) whole all puts⟩

end Schema

end NfcTag
