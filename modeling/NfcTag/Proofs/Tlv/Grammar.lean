/-
# NfcTag.Proofs.Tlv.Grammar -- the grammar of tag memory

What stands at a place of a memory is said here byte by byte, apart from any
scan: the header of a block (`HeaderAt`), or something that ends the area
(`Stops`).  A look-up for a type goes from place to place, over padding and over
blocks of other types (`Step`), and every place is of exactly one of these kinds
(`place_cases`).

Main statement: `find?_conforms`.  A location is answered exactly if a chain of
steps leads to its header, nothing is answered exactly if steps lead to an end,
and no step ever leads into the value of a block that was passed.
-/
import Mathlib.Data.List.Chain
import Mathlib.Logic.Relation
import NfcTag.Tlv.Scan

namespace NfcTag.Tlv

set_option autoImplicit false

/-! ## What stands at a place -/

/-- The type of a block, and not one of the two lone bytes. -/
def OfBlock (type : UInt8) : Prop := type ≠ null ∧ type ≠ terminator

/-- A type and a whole length field stand at `place` and declare `location`. -/
inductive HeaderAt (memory : Bytes) (place : Nat) : Location → Prop where
  | short {type length : UInt8} (first : memory[place]? = some type) (block : OfBlock type)
      (second : memory[place + 1]? = some length) (brief : length ≠ longForm) :
      HeaderAt memory place ⟨type, place + 2, length.toNat⟩
  | long {type high low : UInt8} (first : memory[place]? = some type) (block : OfBlock type)
      (second : memory[place + 1]? = some longForm) (third : memory[place + 2]? = some high)
      (fourth : memory[place + 3]? = some low)
      (unreserved : high.toNat * 256 + low.toNat ≠ reservedLength) :
      HeaderAt memory place ⟨type, place + 4, high.toNat * 256 + low.toNat⟩

/-- The area ends at `place`, in one of the ways in which it can. -/
inductive Stops (memory : Bytes) (place : Nat) : Prop where
  | behind (past : memory.length ≤ place)
  | terminator (first : memory[place]? = some terminator)
  | noLength {type : UInt8} (first : memory[place]? = some type) (block : OfBlock type)
      (cut : memory.length = place + 1)
  | cutLength {type : UInt8} (first : memory[place]? = some type) (block : OfBlock type)
      (second : memory[place + 1]? = some longForm) (cut : memory.length < place + 4)
  | reserved {type high low : UInt8} (first : memory[place]? = some type) (block : OfBlock type)
      (second : memory[place + 1]? = some longForm) (third : memory[place + 2]? = some high)
      (fourth : memory[place + 3]? = some low)
      (reserved : high.toNat * 256 + low.toNat = reservedLength)

variable {memory : Bytes} {place : Nat}

theorem place_cases (memory : Bytes) (place : Nat) :
    memory[place]? = some null ∨ (∃ location, HeaderAt memory place location) ∨
      Stops memory place := by
  cases first : memory[place]? with
  | none => exact .inr (.inr (.behind (List.getElem?_eq_none_iff.mp first)))
  | some type =>
      by_cases padding : type = null
      · exact .inl (by rw [padding])
      by_cases ending : type = terminator
      · exact .inr (.inr (.terminator (by rw [first, ending])))
      have block : OfBlock type := ⟨padding, ending⟩
      have inside := (List.getElem?_eq_some_iff.mp first).1
      cases second : memory[place + 1]? with
      | none =>
          have cut := List.getElem?_eq_none_iff.mp second
          exact .inr (.inr (.noLength first block (by omega)))
      | some length =>
          by_cases brief : length = longForm
          · subst brief
            cases third : memory[place + 2]? with
            | none =>
                have cut := List.getElem?_eq_none_iff.mp third
                exact .inr (.inr (.cutLength first block second (by omega)))
            | some high =>
                cases fourth : memory[place + 3]? with
                | none =>
                    have cut := List.getElem?_eq_none_iff.mp fourth
                    exact .inr (.inr (.cutLength first block second (by omega)))
                | some low =>
                    by_cases reserved : high.toNat * 256 + low.toNat = reservedLength
                    · exact .inr (.inr (.reserved first block second third fourth reserved))
                    · exact .inr (.inl ⟨_, .long first block second third fourth reserved⟩)
          · exact .inr (.inl ⟨_, .short first block second brief⟩)

theorem HeaderAt.first {location : Location} (header : HeaderAt memory place location) :
    memory[place]? = some location.type := by
  cases header <;> assumption

theorem HeaderAt.block {location : Location} (header : HeaderAt memory place location) :
    OfBlock location.type := by
  cases header <;> assumption

theorem HeaderAt.lt_length {location : Location} (header : HeaderAt memory place location) :
    place < memory.length :=
  (List.getElem?_eq_some_iff.mp header.first).1

theorem HeaderAt.lt_stop {location : Location} (header : HeaderAt memory place location) :
    place < location.span.stop := by
  cases header <;> simp only [Location.span, Span.stop] <;> omega

/-- What a length field can declare is no more than what can be written. -/
theorem HeaderAt.length_le {location : Location} (header : HeaderAt memory place location) :
    location.length ≤ maxLength := by
  cases header with
  | @short type length =>
      have small := length.toNat_lt
      show length.toNat ≤ 0xfffe
      omega
  | @long type high low _ _ _ _ _ unreserved =>
      have highSmall := high.toNat_lt
      have lowSmall := low.toNat_lt
      rw [reservedLength] at unreserved
      show high.toNat * 256 + low.toNat ≤ 0xfffe
      omega

/-! ## The blocks from a place on -/

/-- The blocks of a memory whose headers stand at `place` or behind it. -/
def blocksAt (memory : Bytes) (place : Nat) : List Location :=
  blocksFrom 0 place (memory.drop place)

theorem drop_eq_cons {first : UInt8} (here : memory[place]? = some first) :
    memory.drop place = first :: memory.drop (place + 1) := by
  obtain ⟨inside, rfl⟩ := List.getElem?_eq_some_iff.mp here
  exact List.drop_eq_getElem_cons inside

theorem blocksAt_padding (here : memory[place]? = some null) :
    blocksAt memory place = blocksAt memory (place + 1) := by
  rw [blocksAt, drop_eq_cons here, blocksFrom, if_pos rfl, blocksAt]

/-- The bytes behind the type decide: a whole length field lists the block. -/
theorem blocksAt_of_lengthField? {type : UInt8} (field : LengthField)
    (first : memory[place]? = some type) (block : OfBlock type)
    (read : lengthField? (memory.drop (place + 1)) = some field) :
    blocksAt memory place =
      ⟨type, place + 1 + field.width, field.length⟩ ::
        blocksAt memory (place + 1 + field.width + field.length) := by
  rw [blocksAt, drop_eq_cons first, blocksFrom, if_neg block.1, if_neg block.2, read]
  simp only
  rw [blocksFrom_eq_drop, List.drop_drop, ← Nat.add_assoc, blocksAt]

theorem blocksAt_of_no_lengthField? {type : UInt8} (first : memory[place]? = some type)
    (block : OfBlock type) (unread : lengthField? (memory.drop (place + 1)) = none) :
    blocksAt memory place = [] := by
  rw [blocksAt, drop_eq_cons first, blocksFrom, if_neg block.1, if_neg block.2, unread]

theorem blocksAt_header {location : Location} (header : HeaderAt memory place location) :
    blocksAt memory place = location :: blocksAt memory location.span.stop := by
  cases header with
  | @short type length first block second brief =>
      refine blocksAt_of_lengthField? ⟨1, length.toNat⟩ first block ?_
      rw [drop_eq_cons second, lengthField?_short brief]
  | @long type high low first block second third fourth unreserved =>
      refine blocksAt_of_lengthField? ⟨3, high.toNat * 256 + low.toNat⟩ first block ?_
      rw [drop_eq_cons second, drop_eq_cons third, drop_eq_cons fourth, lengthField?_long,
        if_neg unreserved]

theorem blocksAt_stops (stops : Stops memory place) : blocksAt memory place = [] := by
  cases stops with
  | behind past => rw [blocksAt, List.drop_eq_nil_of_le past, blocksFrom]
  | terminator first =>
      rw [blocksAt, drop_eq_cons first, blocksFrom, if_neg (by decide), if_pos rfl]
  | noLength first block cut =>
      refine blocksAt_of_no_lengthField? first block ?_
      rw [List.drop_eq_nil_of_le (Nat.le_of_eq cut), lengthField?]
  | cutLength first block second cut =>
      refine blocksAt_of_no_lengthField? first block ?_
      rw [drop_eq_cons second, lengthField?_long_cut]
      rw [List.length_drop]
      omega
  | reserved first block second third fourth reserved =>
      refine blocksAt_of_no_lengthField? first block ?_
      rw [drop_eq_cons second, drop_eq_cons third, drop_eq_cons fourth, lengthField?_long,
        if_pos reserved]

/-- What a header declares is settled by the memory. -/
theorem HeaderAt.unique {one other : Location} (header : HeaderAt memory place one)
    (same : HeaderAt memory place other) : one = other := by
  have listed := (blocksAt_header header).symm.trans (blocksAt_header same)
  exact (List.cons.inj listed).1

/-! ## Numbers that are looked for -/

/-- The number is the value of the byte. -/
def Names (type : Binary64) (byte : UInt8) : Prop := type.toNat? = some byte.toNat

instance (type : Binary64) (byte : UInt8) : Decidable (Names type byte) :=
  inferInstanceAs (Decidable (_ = _))

variable {type : Binary64}

theorem find?_of_names {byte : UInt8} (named : Names type byte) :
    find? memory type = findByte? memory byte := by
  rw [find?, named, Option.bind_some, if_pos byte.toNat_lt, UInt8.ofNat_toNat]

theorem find?_of_no_byte (nameless : ∀ byte, ¬ Names type byte) : find? memory type = none := by
  cases number : type.toNat? with
  | none => rw [find?, number, Option.bind_none]
  | some code =>
      have large : ¬ code < 256 := by
        intro small
        apply nameless (UInt8.ofNat code)
        rw [Names, number, UInt8.toNat_ofNat', Nat.mod_eq_of_lt small]
      rw [find?, number, Option.bind_some, if_neg large]

/-! ## Steps of a look-up -/

/-- A look-up for `type` goes on from one place to the other: behind a padding
byte, or behind the declared value of a block of another type. -/
inductive Step (memory : Bytes) (type : Binary64) : Nat → Nat → Prop where
  | padding {place : Nat} (here : memory[place]? = some null) :
      Step memory type place (place + 1)
  | other {place : Nat} {location : Location} (header : HeaderAt memory place location)
      (different : ¬ Names type location.type) : Step memory type place location.span.stop

abbrev Reaches (memory : Bytes) (type : Binary64) : Nat → Nat → Prop :=
  Relation.ReflTransGen (Step memory type)

variable {next last : Nat}

theorem Step.lt (step : Step memory type place next) : place < next := by
  cases step with
  | padding here => exact Nat.lt_succ_self place
  | other header different => exact header.lt_stop

/-- From a place with a header there is no way but over its block. -/
theorem Step.eq_stop {location : Location} (header : HeaderAt memory place location)
    (step : Step memory type place next) : next = location.span.stop := by
  cases step with
  | padding here =>
      rw [header.first, Option.some.injEq] at here
      exact absurd here header.block.1
  | other same different => rw [header.unique same]

theorem Step.rightUnique : Relator.RightUnique (Step memory type) := by
  intro place next other one two
  cases one with
  | other header different => exact (Step.eq_stop header two).symm
  | padding here =>
      cases two with
      | padding _ => rfl
      | other header different =>
          rw [header.first, Option.some.injEq] at here
          exact absurd here header.block.1

theorem Reaches.le (reached : Reaches memory type place last) : place ≤ last := by
  induction reached with
  | refl => exact Nat.le_refl _
  | tail _ step ih => exact Nat.le_trans ih (Nat.le_of_lt step.lt)

/-- A value that is passed is never entered: whatever else is reached lies in
front of its header, or behind it. -/
theorem Reaches.outside {location : Location} (reached : Reaches memory type 0 place)
    (header : HeaderAt memory place location) (also : Reaches memory type 0 last) :
    last ≤ place ∨ location.span.stop ≤ last := by
  rcases Relation.ReflTransGen.total_of_right_unique Step.rightUnique reached also with on | back
  · rcases Relation.ReflTransGen.cases_head on with rfl | ⟨next, step, rest⟩
    · exact .inl (Nat.le_refl _)
    · rw [Step.eq_stop header step] at rest
      exact .inr (Reaches.le rest)
  · exact .inl (Reaches.le back)

/-- Steps lead from `place` to an end, or to a header of the type. -/
def Settles (memory : Bytes) (type : Binary64) (place : Nat) : Prop :=
  ∃ last, Reaches memory type place last ∧
    ((∃ location, HeaderAt memory last location ∧ Names type location.type) ∨ Stops memory last)

theorem Settles.of_step (step : Step memory type place next) (settles : Settles memory type next) :
    Settles memory type place := by
  obtain ⟨last, reached, ending⟩ := settles
  exact ⟨last, reached.head step, ending⟩

theorem settles (memory : Bytes) (type : Binary64) (place : Nat) :
    Settles memory type place := by
  -- The bytes that are left get fewer with every step.
  induction left : memory.length - place using Nat.strongRecOn generalizing place with
  | ind left ih =>
      have onward {next : Nat} (inside : place < memory.length)
          (step : Step memory type place next) : Settles memory type place := by
        have closer := step.lt
        exact .of_step step (ih (memory.length - next) (by omega) next rfl)
      rcases place_cases memory place with here | ⟨location, header⟩ | stops
      · exact onward (List.getElem?_eq_some_iff.mp here).1 (.padding here)
      · by_cases named : Names type location.type
        · exact ⟨place, .refl, .inl ⟨location, header, named⟩⟩
        · exact onward header.lt_length (.other header named)
      · exact ⟨place, .refl, .inr stops⟩

/-! ## The look-up from a place on -/

def findAt? (memory : Bytes) (type : Binary64) (place : Nat) : Option Location :=
  (blocksAt memory place).find? (Names type ·.type)

theorem findAt?_zero (memory : Bytes) (type : Binary64) :
    findAt? memory type 0 = find? memory type := by
  have listed : blocksAt memory 0 = blocks memory := rfl
  rw [findAt?, listed]
  by_cases known : ∃ byte, Names type byte
  · obtain ⟨byte, named⟩ := known
    have same (other : UInt8) : Names type other ↔ other = byte := by
      rw [Names, named, Option.some.injEq, UInt8.toNat_inj]
      exact eq_comm
    simp only [find?_of_names named, findByte?, same]
  · have nameless := not_exists.mp known
    rw [find?_of_no_byte nameless, List.find?_eq_none]
    intro location _
    simp only [nameless location.type, decide_false, Bool.false_eq_true, not_false_eq_true]

theorem findAt?_of_step (step : Step memory type place next) :
    findAt? memory type place = findAt? memory type next := by
  cases step with
  | padding here => rw [findAt?, blocksAt_padding here, findAt?]
  | other header different =>
      rw [findAt?, blocksAt_header header, List.find?_cons_of_neg (by simpa using different),
        findAt?]

theorem findAt?_of_reaches (reached : Reaches memory type place last) :
    findAt? memory type place = findAt? memory type last := by
  induction reached with
  | refl => rfl
  | tail _ step ih => rw [ih, findAt?_of_step step]

theorem findAt?_of_header {location : Location} (header : HeaderAt memory place location)
    (named : Names type location.type) : findAt? memory type place = some location := by
  rw [findAt?, blocksAt_header header]
  exact List.find?_cons_of_pos (decide_eq_true named)

theorem findAt?_of_stops (stops : Stops memory place) : findAt? memory type place = none := by
  rw [findAt?, blocksAt_stops stops, List.find?_nil]

theorem find?_eq_some_iff {location : Location} :
    find? memory type = some location ↔
      ∃ last, Reaches memory type 0 last ∧ HeaderAt memory last location ∧
        Names type location.type := by
  rw [← findAt?_zero]
  constructor
  · intro found
    obtain ⟨last, reached, ⟨other, header, named⟩ | stops⟩ := settles memory type 0
    · rw [findAt?_of_reaches reached, findAt?_of_header header named] at found
      obtain rfl := Option.some.inj found
      exact ⟨last, reached, header, named⟩
    · rw [findAt?_of_reaches reached, findAt?_of_stops stops] at found
      cases found
  · rintro ⟨last, reached, header, named⟩
    rw [findAt?_of_reaches reached, findAt?_of_header header named]

theorem find?_eq_none_iff :
    find? memory type = none ↔ ∃ last, Reaches memory type 0 last ∧ Stops memory last := by
  rw [← findAt?_zero]
  constructor
  · intro missed
    obtain ⟨last, reached, ⟨other, header, named⟩ | stops⟩ := settles memory type 0
    · rw [findAt?_of_reaches reached, findAt?_of_header header named] at missed
      cases missed
    · exact ⟨last, reached, stops⟩
  · rintro ⟨last, reached, stops⟩
    rw [findAt?_of_reaches reached, findAt?_of_stops stops]

/-! ## Chains of places -/

/-- The places that a look-up goes through, from the first byte of the memory to
`last`. -/
structure Chain (memory : Bytes) (type : Binary64) (places : List Nat) (last : Nat) : Prop where
  starts : places.head? = some 0
  ends : places.getLast? = some last
  increasing : places.Pairwise (· < ·)
  inside : ∀ place ∈ places, place < memory.length
  steps : places.IsChain (Step memory type)

theorem Chain.reaches {places : List Nat} (chain : Chain memory type places last)
    (member : place ∈ places) : Reaches memory type 0 place := by
  refine chain.steps.induction (Reaches memory type 0 ·) places ?_ ?_ place member
  · intro before after step reached
    exact reached.tail step
  · intro nonempty
    have first := chain.starts
    rw [List.head?_eq_some_head nonempty, Option.some.injEq] at first
    rw [first]

theorem exists_chain_iff (inside : last < memory.length) :
    (∃ places, Chain memory type places last) ↔ Reaches memory type 0 last := by
  constructor
  · rintro ⟨places, chain⟩
    exact chain.reaches (List.mem_of_getLast? chain.ends)
  · intro reached
    obtain ⟨later, steps, ends⟩ := List.exists_isChain_cons_of_relationReflTransGen reached
    refine ⟨0 :: later, rfl, ?_, ?_, ?_, steps⟩
    · rw [List.getLast?_eq_some_getLast (List.cons_ne_nil 0 later), ends]
    · exact List.isChain_iff_pairwise.mp (steps.imp fun _ _ step => step.lt)
    · intro place member
      have onward : Reaches memory type place last := by
        refine steps.backwards_induction (Reaches memory type · last) _ ?_ ?_ place member
        · intro before after step reached
          exact reached.head step
        · intro nonempty
          rw [ends]
      exact Nat.lt_of_le_of_lt (Reaches.le onward) inside

/-! ## The look-up and the grammar -/

/-- The answer to a look-up for `type` is the one that the grammar asks for. -/
structure Conforms (memory : Bytes) (type : Binary64) (answer : Option Location) : Prop where
  /-- A chain leads to the header of what is found, and to no other of the type. -/
  found_iff : ∀ location, answer = some location ↔
    ∃ places last, Chain memory type places last ∧ HeaderAt memory last location ∧
      Names type location.type
  /-- Nothing is found where steps lead to an end of the area. -/
  ended_iff : answer = none ↔ ∃ last, Reaches memory type 0 last ∧ Stops memory last
  /-- Nothing is found for a number that is no byte. -/
  of_no_byte : (∀ byte, ¬ Names type byte) → answer = none
  /-- No place of a chain lies inside a block that stands at another one. -/
  outside : ∀ places last, Chain memory type places last →
    ∀ place ∈ places, ∀ other ∈ places, ∀ location, HeaderAt memory place location →
      ¬ (place < other ∧ other < location.span.stop)

/-- **A look-up follows the grammar**, in every memory and for every number. -/
theorem find?_conforms (memory : Bytes) (type : Binary64) :
    Conforms memory type (find? memory type) where
  found_iff location := by
    rw [find?_eq_some_iff]
    constructor
    · rintro ⟨last, reached, header, named⟩
      obtain ⟨places, chain⟩ := (exists_chain_iff header.lt_length).mpr reached
      exact ⟨places, last, chain, header, named⟩
    · rintro ⟨places, last, chain, header, named⟩
      exact ⟨last, (exists_chain_iff header.lt_length).mp ⟨places, chain⟩, header, named⟩
  ended_iff := find?_eq_none_iff
  of_no_byte := find?_of_no_byte
  outside places last chain place member other also location header between := by
    have apart := (chain.reaches member).outside header (chain.reaches also)
    omega

end NfcTag.Tlv
