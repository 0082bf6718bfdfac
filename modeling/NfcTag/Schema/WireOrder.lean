/-
# NfcTag.Schema.WireOrder -- the order in which keyed columns are laid out

Keys that spell an index, a natural number below `0xffffffff` in canonical
decimal form, come first and ascending; all other keys follow in the order in
which they were declared.  The order is a function of the keys alone, so it is
stated for lists of anything that has a key, and `map_wireOrder` carries it from
one such list to another.
-/

namespace NfcTag

set_option autoImplicit false

/-- The index that a key spells.  `01`, `+1` and `1.0` spell none. -/
def keyIndex? (key : String) : Option Nat :=
  key.toNat?.filter fun index => toString index = key ∧ index < 0xffffffff

namespace WireOrder

variable {α β : Type}

/-- Put an item in front of the first one whose index is not smaller. -/
def insert (index : α → Nat) (item : α) : List α → List α
  | [] => [item]
  | next :: rest =>
      if index item ≤ index next then item :: next :: rest
      else next :: insert index item rest

/-- Sort by index; items of one index keep their order. -/
def sort (index : α → Nat) (items : List α) : List α := items.foldr (insert index) []

theorem map_insert (f : α → β) (index : β → Nat) (item : α) (items : List α) :
    (insert (index ∘ f) item items).map f = insert index (f item) (items.map f) := by
  induction items with
  | nil => rfl
  | cons next rest ih =>
      simp only [insert, Function.comp_apply, List.map_cons]
      split <;> simp_all

theorem perm_insert (index : α → Nat) (item : α) (items : List α) :
    (insert index item items).Perm (item :: items) := by
  induction items with
  | nil => exact .refl _
  | cons next rest ih =>
      simp only [insert]
      split
      · exact .refl _
      · exact (ih.cons next).trans (.swap item next rest)

theorem perm_sort (index : α → Nat) (items : List α) : (sort index items).Perm items := by
  induction items with
  | nil => exact .refl _
  | cons item items ih => exact (perm_insert index item _).trans (ih.cons item)

/-- An item is put behind smaller ones only, so items of its own index stay behind it. -/
theorem filter_insert {index : α → Nat} {p : α → Bool}
    (same : ∀ one other, p one = true → p other = true → index one = index other)
    (item : α) (items : List α) :
    (insert index item items).filter p = (item :: items).filter p := by
  induction items with
  | nil => rfl
  | cons next rest ih =>
      simp only [insert]
      split
      · rfl
      · rename_i greater
        have apart : ¬ (p item = true ∧ p next = true) := fun both =>
          greater (Nat.le_of_eq (same item next both.1 both.2))
        rw [List.filter_cons, ih]
        cases first : p item <;> cases second : p next <;> simp_all

/-- Items of one index keep their order. -/
theorem filter_sort {index : α → Nat} {p : α → Bool}
    (same : ∀ one other, p one = true → p other = true → index one = index other)
    (items : List α) : (sort index items).filter p = items.filter p := by
  induction items with
  | nil => rfl
  | cons item items ih =>
      have inserted := filter_insert same item (sort index items)
      rw [List.filter_cons, ih, ← List.filter_cons] at inserted
      exact inserted

theorem map_sort (f : α → β) (index : β → Nat) (items : List α) :
    (sort (index ∘ f) items).map f = sort index (items.map f) := by
  induction items with
  | nil => rfl
  | cons item items ih =>
      simp only [sort, List.foldr_cons, List.map_cons] at ih ⊢
      rw [map_insert, ih]

end WireOrder

/-- Items with an index key, ascending, then all others as they stand. -/
def wireOrder {α : Type} (key : α → String) (items : List α) : List α :=
  let index? item := keyIndex? (key item)
  let indexed := items.filter fun item => (index? item).isSome
  WireOrder.sort (fun item => (index? item).getD 0) indexed ++
    items.filter fun item => (index? item).isNone

theorem perm_wireOrder {α : Type} (key : α → String) (items : List α) :
    (wireOrder key items).Perm items := by
  have parts := List.filter_append_perm (fun item => (keyIndex? (key item)).isSome) items
  simp only [Option.not_isSome] at parts
  exact ((WireOrder.perm_sort _ _).append_right _).trans parts

/-- Items of one key keep their order. -/
theorem filter_wireOrder {α : Type} (key : α → String) (wanted : String) (items : List α) :
    (wireOrder key items).filter (key · = wanted) = items.filter (key · = wanted) := by
  have same (one other : α) (first : decide (key one = wanted) = true)
      (second : decide (key other = wanted) = true) :
      (keyIndex? (key one)).getD 0 = (keyIndex? (key other)).getD 0 := by
    rw [of_decide_eq_true first, of_decide_eq_true second]
  -- Each half holds either all items of the key or none of them.
  have half (kind : Option Nat → Bool) :
      items.filter (fun item => decide (key item = wanted) && kind (keyIndex? (key item))) =
        items.filter fun item => decide (key item = wanted) && kind (keyIndex? wanted) :=
    List.filter_congr fun item _ => by
      by_cases held : key item = wanted <;> simp [held]
  simp only [wireOrder, List.filter_append]
  rw [WireOrder.filter_sort same, List.filter_filter, List.filter_filter, half Option.isSome,
    half Option.isNone]
  cases keyIndex? wanted <;> simp

theorem map_wireOrder {α β : Type} (f : α → β) (key : β → String) (items : List α) :
    (wireOrder (key ∘ f) items).map f = wireOrder key (items.map f) := by
  simp only [wireOrder, List.map_append, List.filter_map]
  congr 1
  exact WireOrder.map_sort f (fun item => (keyIndex? (key item)).getD 0) _

end NfcTag
