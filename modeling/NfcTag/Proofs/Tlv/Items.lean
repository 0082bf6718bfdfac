/-
# NfcTag.Proofs.Tlv.Items -- looking into an area that was written item by item

An area is a row of items, each a padding byte or a block, up to the end of the
memory or up to a terminator with anything behind it (`Area`).  A scan steps over
every item exactly, whatever bytes its value has, so that a look-up passes the
items without its type (`find?_blocksFrom_items`) and answers the first one that
has it where it was written (`findByte?_items_append`).

Main statement: `find?_area`, for every area and every type.
-/
import NfcTag.Proofs.Number.Exact
import NfcTag.Proofs.Tlv.Grammar
import NfcTag.Proofs.Tlv.Written

namespace NfcTag.Tlv

set_option autoImplicit false

/-! ## Items -/

/-- What an area is made of. -/
inductive Item where
  /-- A lone padding byte. -/
  | padding
  | block (entry : Entry)

namespace Item

def bytes : Item → Bytes
  | padding => [null]
  | block entry => entry.bytes

/-- A block can be written, and is not taken for one of the lone bytes. -/
def Good : Item → Prop
  | padding => True
  | block entry => entry.Fits ∧ entry.Ordinary

/-- The item is a block whose type is stored as the byte. -/
def HasType (type : UInt8) : Item → Prop
  | padding => False
  | block entry => entry.type.toByte = type

instance : DecidablePred Good
  | padding => inferInstanceAs (Decidable True)
  | block entry => inferInstanceAs (Decidable (entry.Fits ∧ entry.Ordinary))

instance (type : UInt8) : DecidablePred (HasType type)
  | padding => inferInstanceAs (Decidable False)
  | block entry => inferInstanceAs (Decidable (entry.type.toByte = type))

def encode : Item → Except Fault Bytes
  | padding => .ok [null]
  | block entry => Tlv.encode entry

/-- The bytes of items back to back. -/
def encodeAll : List Item → Except Fault Bytes
  | [] => .ok []
  | item :: rest => do
      let front ← encode item
      let behind ← encodeAll rest
      return front ++ behind

theorem encode_eq_bytes {item : Item} (good : item.Good) : encode item = .ok item.bytes := by
  cases item with
  | padding => rfl
  | block entry => exact Tlv.encode_eq_bytes good.1

theorem encodeAll_eq_flatMap {items : List Item} (good : ∀ item ∈ items, item.Good) :
    encodeAll items = .ok (items.flatMap bytes) := by
  induction items with
  | nil => rfl
  | cons item items ih =>
      rw [encodeAll, encode_eq_bytes (good item List.mem_cons_self),
        ih fun item member => good item (List.mem_cons_of_mem _ member)]
      rfl

/-- Without padding, items are written as blocks are. -/
theorem encodeAll_map_block (entries : List Entry) :
    encodeAll (entries.map block) = Tlv.encodeAll entries := by
  induction entries with
  | nil => rfl
  | cons entry entries ih => rw [List.map_cons, encodeAll, ih, Tlv.encodeAll, encode]

/-- If an item has the type, there is a first one. -/
theorem exists_first {items : List Item} {type : UInt8}
    (present : ∃ item ∈ items, item.HasType type) :
    ∃ before entry after, items = before ++ block entry :: after ∧ entry.type.toByte = type ∧
      ∀ item ∈ before, ¬ item.HasType type := by
  cases found : items.find? (HasType type ·) with
  | none =>
      obtain ⟨item, member, has⟩ := present
      have missed := List.find?_eq_none.mp found item member
      exact absurd (decide_eq_true has) missed
  | some item =>
      obtain ⟨has, before, after, rfl, earlier⟩ := List.find?_eq_some_iff_append.mp found
      cases item with
      | padding => cases of_decide_eq_true has
      | block entry =>
          refine ⟨before, entry, after, rfl, of_decide_eq_true has, ?_⟩
          intro item member
          simpa using earlier item member

end Item

/-! ## Stepping over items -/

theorem find?_blocksFrom_item {test : Location → Bool} {item : Item} (good : item.Good)
    (other : ∀ entry offset length, item = .block entry →
      test ⟨entry.type.toByte, offset, length⟩ = false)
    (offset : Nat) (rest : Bytes) :
    (blocksFrom 0 offset (item.bytes ++ rest)).find? test =
      (blocksFrom 0 (offset + item.bytes.length) rest).find? test := by
  cases item with
  | padding =>
      rw [Item.bytes, List.singleton_append, blocksFrom, if_pos rfl, List.length_singleton]
  | block entry =>
      rw [Item.bytes, blocksFrom_bytes_append good.1 good.2,
        List.find?_cons_of_neg (by simp [other entry _ _ rfl])]

/-- Items that pass no test are passed over, up to the byte behind them. -/
theorem find?_blocksFrom_items {test : Location → Bool} {items : List Item}
    (good : ∀ item ∈ items, item.Good)
    (others : ∀ entry offset length, Item.block entry ∈ items →
      test ⟨entry.type.toByte, offset, length⟩ = false)
    (offset : Nat) (rest : Bytes) :
    (blocksFrom 0 offset (items.flatMap Item.bytes ++ rest)).find? test =
      (blocksFrom 0 (offset + (items.flatMap Item.bytes).length) rest).find? test := by
  induction items generalizing offset with
  | nil => rfl
  | cons item items ih =>
      have later := ih (fun item member => good item (List.mem_cons_of_mem _ member))
        (fun entry offset length member =>
          others entry offset length (List.mem_cons_of_mem _ member))
      rw [List.flatMap_cons, List.append_assoc,
        find?_blocksFrom_item (good item List.mem_cons_self), later, List.length_append,
        Nat.add_assoc]
      intro entry offset length same
      exact others entry offset length (same ▸ List.mem_cons_self)

theorem findByte?_items {items : List Item} (good : ∀ item ∈ items, item.Good) {type : UInt8}
    (others : ∀ item ∈ items, ¬ item.HasType type) (rest : Bytes) :
    findByte? (items.flatMap Item.bytes ++ rest) type =
      (blocksFrom 0 (items.flatMap Item.bytes).length rest).find? (·.type = type) := by
  rw [findByte?, blocks, find?_blocksFrom_items good, Nat.zero_add]
  intro entry offset length member
  exact decide_eq_false (others (.block entry) member)

/-- The first block of its type is found behind items without the type. -/
theorem findByte?_items_append {before : List Item} {entry : Entry}
    (good : ∀ item ∈ before, item.Good)
    (others : ∀ item ∈ before, ¬ item.HasType entry.type.toByte)
    (fits : entry.Fits) (ordinary : entry.Ordinary) (rest : Bytes) :
    findByte? (before.flatMap Item.bytes ++ (entry.bytes ++ rest)) entry.type.toByte =
      some ⟨entry.type.toByte, (before.flatMap Item.bytes).length + entry.headerSize,
        entry.value.length⟩ := by
  rw [findByte?_items good others, blocksFrom_bytes_append fits ordinary]
  exact List.find?_cons_of_pos (decide_eq_true rfl)

/-! ## Areas -/

/-- A memory area as it is laid out. -/
structure Area where
  items : List Item
  /-- What stands behind the items: the end of the memory, or a terminator with
  these bytes behind it. -/
  rest : Option Bytes
  good : ∀ item ∈ items, item.Good

namespace Area

variable (area : Area)

def closing : Bytes :=
  match area.rest with
  | none => []
  | some rest => terminator :: rest

def write : Except Fault Bytes := do
  let items ← Item.encodeAll area.items
  return items ++ area.closing

theorem write_eq_flatMap :
    area.write = .ok (area.items.flatMap Item.bytes ++ area.closing) := by
  rw [write, Item.encodeAll_eq_flatMap area.good]
  rfl

theorem blocksFrom_closing (offset : Nat) : blocksFrom 0 offset area.closing = [] := by
  rw [closing]
  cases area.rest with
  | none => rfl
  | some rest => rw [blocksFrom, if_neg (by decide), if_pos rfl]

/-- The answer to a look-up for `type` in the memory that the area was written to. -/
structure Answers (memory : Bytes) (type : UInt8) (answer : Option Location) : Prop where
  /-- The first block of the type is answered: behind the items before it and its
  own header, with its value. -/
  first : ∀ before entry after, area.items = before ++ .block entry :: after →
    entry.type.toByte = type → (∀ item ∈ before, ¬ item.HasType type) →
      ∃ front location, Item.encodeAll before = .ok front ∧ answer = some location ∧
        location.type = type ∧
        location.offset = front.length + (if entry.value.length < 255 then 2 else 4) ∧
        location.length = entry.value.length ∧ location.span.Holds memory entry.value
  absent_iff : answer = none ↔ ∀ item ∈ area.items, ¬ item.HasType type

theorem answers_first {before after : List Item} {entry : Entry}
    (split : area.items = before ++ .block entry :: after)
    (others : ∀ item ∈ before, ¬ item.HasType entry.type.toByte) :
    let location : Location := ⟨entry.type.toByte,
      (before.flatMap Item.bytes).length + entry.headerSize, entry.value.length⟩
    findByte? (area.items.flatMap Item.bytes ++ area.closing) entry.type.toByte = some location ∧
      location.span.Holds (area.items.flatMap Item.bytes ++ area.closing) entry.value := by
  have good := area.good
  rw [split] at good ⊢
  have own : Item.Good (.block entry) :=
    good _ (List.mem_append_right _ List.mem_cons_self)
  simp only [List.flatMap_append, List.flatMap_cons, List.append_assoc]
  constructor
  · exact findByte?_items_append (fun item member => good item (List.mem_append_left _ member))
      others own.1 own.2 _
  · exact entry.holds_value _ _

theorem findByte?_eq_none_iff (type : UInt8) :
    findByte? (area.items.flatMap Item.bytes ++ area.closing) type = none ↔
      ∀ item ∈ area.items, ¬ item.HasType type := by
  constructor
  · intro missed item member has
    obtain ⟨before, entry, after, split, rfl, others⟩ := Item.exists_first ⟨item, member, has⟩
    rw [(area.answers_first split others).1] at missed
    cases missed
  · intro others
    rw [findByte?_items area.good others, blocksFrom_closing, List.find?_nil]

end Area

theorem names_ofInt (byte : UInt8) : Names (Binary64.ofInt byte.toNat) byte :=
  Binary64.toNat?_ofInt (Nat.lt_trans byte.toNat_lt (by decide))

/-- **A look-up answers what was written first**, in every area and for every type.
Blocks alone, closed by a terminator, are the area that `encodeArea` writes. -/
theorem find?_area (area : Area) :
    ∃ memory, area.write = .ok memory ∧
      (∀ type : UInt8, area.Answers memory type (find? memory (Binary64.ofInt type.toNat))) ∧
      ∀ entries, area.items = entries.map .block → area.rest = some [] →
        encodeArea entries = .ok memory := by
  refine ⟨_, area.write_eq_flatMap, fun type => ?_, ?_⟩
  · rw [find?_of_names (names_ofInt type)]
    refine ⟨?_, area.findByte?_eq_none_iff type⟩
    rintro before entry after split rfl others
    obtain ⟨found, holds⟩ := area.answers_first split others
    have good : ∀ item ∈ before, item.Good := by
      intro item member
      apply area.good
      rw [split]
      exact List.mem_append_left _ member
    refine ⟨_, _, Item.encodeAll_eq_flatMap good, found, rfl, ?_, rfl, holds⟩
    show _ + entry.headerSize = _
    rw [entry.headerSize_eq]
  · intro entries blocksOnly terminated
    rw [← area.write_eq_flatMap, Area.write, blocksOnly, Item.encodeAll_map_block, Area.closing,
      terminated]
    rfl

/-- Padding, a value that looks like a block and a terminator, a value of the long form, and
a block behind the terminator, which is not found. -/
theorem find?_area_of_lookalikes :
    let long : Bytes := List.replicate 255 0x03
    let items : List Item := [.padding, .block ⟨Binary64.ofInt 1, [0x03, 0x01, 0xaa, 0xfe]⟩,
      .padding, .block ⟨Binary64.ofInt 0x103, long⟩, .block ⟨Binary64.ofInt 3, []⟩]
    ∃ (good : ∀ item ∈ items, item.Good) (memory : Bytes),
      Area.write ⟨items, some [0x04, 0x00], good⟩ = .ok memory ∧
      find? memory (Binary64.ofInt 3) = some ⟨3, 12, 255⟩ ∧
      Span.Holds ⟨12, 255⟩ memory long ∧
      find? memory (Binary64.ofInt 4) = none := by
  intro long items
  have good : ∀ item ∈ items, item.Good := by decide +kernel
  obtain ⟨memory, written, answers, -⟩ := find?_area ⟨items, some [0x04, 0x00], good⟩
  obtain ⟨front, ⟨type, offset, length⟩, before, found, typed, behind, width, holds⟩ :=
    (answers 3).first [.padding, .block ⟨Binary64.ofInt 1, [0x03, 0x01, 0xaa, 0xfe]⟩, .padding]
      ⟨Binary64.ofInt 0x103, long⟩ [.block ⟨Binary64.ofInt 3, []⟩] rfl (by decide +kernel)
      (by decide +kernel)
  have eight : front.length = 8 := by
    rw [Item.encodeAll_eq_flatMap (by decide +kernel)] at before
    cases before
    decide +kernel
  have none : ∀ item ∈ items, ¬ item.HasType 4 := by decide +kernel
  have whole : long.length = 255 := List.length_replicate
  rw [eight, whole] at behind
  rw [whole] at width
  cases typed
  cases behind
  cases width
  refine ⟨good, memory, written, found, holds, ?_⟩
  exact (answers 4).absent_iff.mpr none

end NfcTag.Tlv
