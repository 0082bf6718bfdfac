/-
# NfcTag.Proofs.Tlv.Disjoint -- looking for two types in one memory

Two look-ups stop at different blocks but go the same way: a look-up passes every place
that another one has come through, unless it stops in front of it (`Reaches.resume`).
So of two blocks that are found one lies whole in front of the other, header and value,
and the look-up for the other one steps over it (`Precedes`).  A value that runs past
the end of the memory has no block behind it, whatever is looked for.

Main statement: `different_types_lie_apart`, for every memory and every two numbers.
-/
import NfcTag.Proofs.Number.Patterns
import NfcTag.Proofs.Tlv.Grammar

namespace NfcTag.Tlv

set_option autoImplicit false

variable {memory : Bytes} {type other : Binary64} {place last : Nat} {one two : Location}

/-! ## One way for all look-ups -/

theorem not_names_nan (byte : UInt8) : ¬ Names .nan byte := by
  have nameless : Binary64.nan.toNat? = none := by decide
  intro named
  rw [Names, nameless] at named
  cases named

/-- A look-up for what is no byte goes on wherever another one does, and stops at no
block. -/
theorem Step.nan {next : Nat} (step : Step memory type place next) :
    Step memory .nan place next := by
  cases step with
  | padding here => exact .padding here
  | other header _ => exact .other header (not_names_nan _)

theorem Reaches.nan (reached : Reaches memory type 0 place) : Reaches memory .nan 0 place :=
  Relation.ReflTransGen.mono (fun _ _ => Step.nan) _ _ reached

/-- A look-up comes through every place in front of the one that it has reached, if any
other look-up does. -/
theorem Reaches.resume (reached : Reaches memory type 0 last)
    (walked : Reaches memory .nan 0 place) (front : place ≤ last) :
    Reaches memory type place last := by
  induction walked with
  | refl => exact reached
  | tail _ step ih =>
      rename_i before here
      have later := step.lt
      rcases Relation.ReflTransGen.cases_head (ih (by omega)) with rfl | ⟨next, own, onward⟩
      · omega
      · rwa [Step.rightUnique own.nan step] at onward

/-! ## Blocks side by side -/

/-- A length field has one byte at least. -/
theorem HeaderAt.add_two_le {location : Location} (header : HeaderAt memory place location) :
    place + 2 ≤ location.offset := by
  cases header with
  | short => exact Nat.le_refl _
  | long => exact Nat.add_le_add_left (by decide) place

/-- The block `first` lies in front of the block `next`, which a look-up for `type`
finds. -/
structure Precedes (memory : Bytes) (type : Binary64) (first next : Location) : Prop where
  /-- Between the values there is room for a type and a length. -/
  apart : first.offset + first.length + 2 ≤ next.offset
  /-- The look-up goes on behind the one value, and comes to the header of the other. -/
  passed : ∃ place, first.offset + first.length ≤ place ∧
    Reaches memory type (first.offset + first.length) place ∧ HeaderAt memory place next
  /-- Only the last block can run past the end. -/
  inside : first.offset + first.length < memory.length

theorem HeaderAt.precedes (header : HeaderAt memory place one)
    (walked : Reaches memory .nan 0 place) (otherHeader : HeaderAt memory last two)
    (reached : Reaches memory type 0 last) (front : place < last) :
    Precedes memory type one two := by
  have onward : Reaches memory type one.span.stop last := by
    rcases Relation.ReflTransGen.cases_head (reached.resume walked (Nat.le_of_lt front)) with
      rfl | ⟨next, step, rest⟩
    · exact absurd front (Nat.lt_irrefl _)
    · rwa [Step.eq_stop header step] at rest
  have behind : one.offset + one.length ≤ last := onward.le
  exact
    { apart := Nat.le_trans (Nat.add_le_add_right behind 2) otherHeader.add_two_le
      passed := ⟨last, behind, onward, otherHeader⟩
      inside := Nat.lt_of_le_of_lt behind otherHeader.lt_length }

/-- A type is the value of one number only. -/
theorem Names.number_unique {byte : UInt8} (named : Names type byte) (also : Names other byte)
    (nonzero : byte ≠ null) : type = other := by
  have positive : byte.toNat ≠ 0 := fun zero => nonzero (UInt8.toNat_inj.mp zero)
  exact Binary64.eq_of_toNat? named also positive

/-- **Blocks of different types have no byte in common.**  One of the two lies in front
of the header of the other, also where memory is malformed or a value is cut. -/
theorem different_types_lie_apart (different : type ≠ other)
    (found : find? memory type = some one) (otherFound : find? memory other = some two) :
    Precedes memory other one two ∨ Precedes memory type two one := by
  obtain ⟨place, reached, header, named⟩ := find?_eq_some_iff.mp found
  obtain ⟨last, otherReached, otherHeader, otherNamed⟩ := find?_eq_some_iff.mp otherFound
  rcases Nat.lt_trichotomy place last with front | rfl | behind
  · exact .inl (header.precedes reached.nan otherHeader otherReached front)
  · obtain rfl := header.unique otherHeader
    exact absurd (named.number_unique otherNamed header.block.1) different
  · exact .inr (otherHeader.precedes otherReached.nan header reached behind)

/-- Padding, a length of one in three bytes, and a value of nine of which one is there. -/
theorem different_types_lie_apart_cut :
    let memory : Bytes := [0x00, 0x03, 0xff, 0x00, 0x01, 0xaa, 0x01, 0x09, 0x03]
    let message := Binary64.ofInt ndefMessage.toNat
    let lock := Binary64.ofInt lockControl.toNat
    message ≠ lock ∧ find? memory message = some ⟨ndefMessage, 5, 1⟩ ∧
      find? memory lock = some ⟨lockControl, 8, 9⟩ ∧
      (Precedes memory lock ⟨ndefMessage, 5, 1⟩ ⟨lockControl, 8, 9⟩ ∨
        Precedes memory message ⟨lockControl, 8, 9⟩ ⟨ndefMessage, 5, 1⟩) := by
  intro memory message lock
  have different : message ≠ lock := by decide +kernel
  have found : find? memory message = some ⟨ndefMessage, 5, 1⟩ := by decide +kernel
  have otherFound : find? memory lock = some ⟨lockControl, 8, 9⟩ := by decide +kernel
  exact ⟨different, found, otherFound, different_types_lie_apart different found otherFound⟩

end NfcTag.Tlv
