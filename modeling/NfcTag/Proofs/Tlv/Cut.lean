/-
# NfcTag.Proofs.Tlv.Cut -- looking for blocks in memory that is cut

A look-up reads forward only and stops behind the length field of the block that
it answers.  So memory that is cut shows the block it would show as a whole, or
none: the block is there as soon as its length field is
(`findByte?_take`), and more memory behind that changes nothing
(`findByte?_of_take`).

Main statement: `find?_front`, for every front of every memory and every number.
-/
import NfcTag.Tlv.Scan

namespace NfcTag.Tlv

set_option autoImplicit false

/-- A length field is read off the bytes that it takes, and not before they are there. -/
theorem lengthField?_take (field : Bytes) (k : Nat) :
    lengthField? (field.take k) = (lengthField? field).filter (·.width ≤ k) := by
  rcases field with _ | ⟨first, rest⟩
  · rw [List.take_nil]
    rfl
  by_cases long : first = longForm
  · subst long
    by_cases short : rest.length < 2
    · -- The field is cut as it is, and no less when less of it is left.
      rw [lengthField?_long_cut short]
      rcases k with _ | k
      · rfl
      · have shorter : (rest.take k).length < 2 :=
          Nat.lt_of_le_of_lt (List.length_take_le' k rest) short
        rw [List.take_succ_cons, lengthField?_long_cut shorter]
        rfl
    · rcases rest with _ | ⟨high, _ | ⟨low, rest⟩⟩
      · exact absurd (by decide) short
      · exact absurd (Nat.lt_succ_self 1) short
      rw [lengthField?_long]
      rcases k with _ | _ | _ | k
      case succ.succ.succ =>
        simp only [List.take_succ_cons, lengthField?_long]
        split <;> simp [Option.filter]
      all_goals split <;> rfl
  · rw [lengthField?_short long]
    rcases k with _ | k
    · rfl
    · rw [List.take_succ_cons, lengthField?_short long]
      simp [Option.filter]

theorem lt_offset_of_mem_blocksFrom {skip offset : Nat} {memory : Bytes} {location : Location}
    (listed : location ∈ blocksFrom skip offset memory) : offset + skip < location.offset := by
  induction memory generalizing skip offset with
  | nil => cases skip <;> cases listed
  | cons type rest ih =>
      cases skip with
      | succ skip =>
          have behind := ih listed
          omega
      | zero =>
          unfold blocksFrom at listed
          split at listed
          · have behind := ih listed
            omega
          split at listed
          · cases listed
          split at listed
          · cases listed
          · rcases List.mem_cons.mp listed with rfl | later
            · show offset + 0 < offset + 1 + _
              omega
            · have behind := ih later
              omega

/-- Nothing is found in front of a cut that every block lies behind. -/
theorem filter_find?_eq_none {listed : List Location} {cut : Nat}
    (behind : ∀ location ∈ listed, cut < location.offset) (test : Location → Bool) :
    (listed.find? test).filter (·.offset ≤ cut) = none := by
  rw [Option.filter_eq_none_iff]
  intro location found
  have later := behind location (List.mem_of_find?_eq_some found)
  simp only [decide_eq_true_eq]
  omega

/-- Cut memory shows the first block that passes a test if the cut leaves its length field. -/
theorem find?_blocksFrom_take (test : Location → Bool) (skip offset k : Nat) (memory : Bytes) :
    (blocksFrom skip offset (memory.take k)).find? test =
      ((blocksFrom skip offset memory).find? test).filter (·.offset ≤ offset + k) := by
  induction memory generalizing skip offset k with
  | nil => cases skip <;> simp [blocksFrom]
  | cons type rest ih =>
      cases k with
      | zero =>
          rw [List.take_zero, filter_find?_eq_none]
          · cases skip <;> rfl
          · intro location listed
            have behind := lt_offset_of_mem_blocksFrom listed
            omega
      | succ k =>
          rw [List.take_succ_cons, show offset + (k + 1) = offset + 1 + k by omega]
          cases skip with
          | succ skip =>
              simp only [blocksFrom]
              exact ih skip (offset + 1) k
          | zero =>
              simp only [blocksFrom]
              by_cases padding : type = null
              · simp only [padding, if_true]
                exact ih 0 (offset + 1) k
              simp only [padding, if_false]
              by_cases ending : type = terminator
              · simp [ending]
              simp only [ending, if_false, lengthField?_take]
              cases read : lengthField? rest with
              | none => simp
              | some field =>
                  by_cases whole : field.width ≤ k
                  · simp only [Option.filter_some, decide_eq_true_eq, if_pos whole, List.find?_cons]
                    cases test ⟨type, offset + 1 + field.width, field.length⟩ with
                    | false => exact ih (field.width + field.length) (offset + 1) k
                    | true => simp only [Option.filter_some, decide_eq_true_eq,
                        if_pos (Nat.add_le_add_left whole (offset + 1))]
                  · simp only [Option.filter_some, decide_eq_true_eq, if_neg whole]
                    rw [filter_find?_eq_none]
                    · rfl
                    · intro location listed
                      rcases List.mem_cons.mp listed with rfl | later
                      · show offset + 1 + k < offset + 1 + field.width
                        omega
                      · have behind := lt_offset_of_mem_blocksFrom later
                        omega

theorem findByte?_take (memory : Bytes) (type : UInt8) (k : Nat) :
    findByte? (memory.take k) type = (findByte? memory type).filter (·.offset ≤ k) := by
  have cut := find?_blocksFrom_take (·.type = type) 0 0 k memory
  rwa [Nat.zero_add] at cut

/-- A block that cut memory shows is the first one of its type, whatever was cut off. -/
theorem findByte?_of_take {memory : Bytes} {type : UInt8} {k : Nat} {location : Location}
    (found : findByte? (memory.take k) type = some location) :
    findByte? memory type = some location := by
  rw [findByte?_take, Option.filter_eq_some_iff] at found
  exact found.1

/-! ## Looking for a number -/

theorem find?_take (memory : Bytes) (type : Binary64) (k : Nat) :
    find? (memory.take k) type = (find? memory type).filter (·.offset ≤ k) := by
  rw [find?, find?]
  cases type.toNat? with
  | none => rfl
  | some code =>
      rw [Option.bind_some, Option.bind_some]
      split
      · exact findByte?_take memory _ k
      · rfl

/-- What the front of a memory shows of the block that a look-up for `type` answers in
all of it. -/
structure FrontShows (front memory : Bytes) (type : Binary64) : Prop where
  absent : find? memory type = none → find? front type = none
  /-- The block is shown as soon as its type and its length field are there. -/
  shown : ∀ location, find? memory type = some location → location.offset ≤ front.length →
    find? front type = some location
  /-- Before that nothing is shown, no other block either. -/
  hidden : ∀ location, find? memory type = some location → front.length < location.offset →
    find? front type = none
  /-- What is shown is final, whatever memory comes behind. -/
  final : ∀ location, find? front type = some location → find? memory type = some location

/-- **The front of a memory shows the block that the whole of it shows, or none.** -/
theorem find?_front (front behind : Bytes) (type : Binary64) :
    FrontShows front (front ++ behind) type := by
  have cut : find? front type =
      (find? (front ++ behind) type).filter (·.offset ≤ front.length) := by
    rw [← find?_take, List.take_left]
  constructor
  · intro absent
    rw [cut, absent, Option.filter_none]
  · intro location found near
    rw [cut, found, Option.filter_some, if_pos (decide_eq_true near)]
  · intro location found far
    rw [cut, found, Option.filter_some, if_neg]
    simpa using far
  · intro location shown
    rw [cut, Option.filter_eq_some_iff] at shown
    exact shown.1

end NfcTag.Tlv
