/-
# NfcTag.Proofs.Message.Layouts -- a message as the records it is made of

A message whose records fit is written as their layouts, back to back
(`encode_eq_flatMap`): the first one begins it and the last one ends it
(`getElem?_layouts`).  The other direction is that a message that was written is
made of records that fit, as far as their payloads are not too long
(`fits_of_encode`).
-/
import NfcTag.Message
import NfcTag.Proofs.Record.RoundTrip

namespace NfcTag

set_option autoImplicit false

open Record (Contents Layout)

/-- What was written has no type and no id that is too long. -/
theorem Record.fits_of_encode {contents : Contents} {position : Position} {bytes : Bytes}
    (written : encode contents position = .ok bytes)
    (small : contents.payload.length < 0x100000000) : contents.Fits := by
  unfold encode at written
  dsimp only at written
  split at written
  · cases written
  · rename_i type
    split at written
    · cases written
    · rename_i id
      refine ⟨Nat.le_of_not_lt type, fun given present => ?_, small⟩
      rw [present] at id
      exact Nat.le_of_not_lt id

namespace Message

/-! ## The layouts of a message -/

/-- The records of a message, as they stand in it.  The last one ends it; the first
one begins it if `isFirst`. -/
def layouts (isFirst : Bool) : (records : List Contents) →
    (∀ contents ∈ records, contents.Fits) → List Layout
  | [], _ => []
  | contents :: rest, fits =>
      contents.layout ⟨isFirst, rest.isEmpty⟩ (fits contents List.mem_cons_self) ::
        layouts false rest fun other member => fits other (List.mem_cons_of_mem _ member)

theorem length_layouts {records : List Contents} (isFirst : Bool)
    (fits : ∀ contents ∈ records, contents.Fits) :
    (layouts isFirst records fits).length = records.length := by
  induction records generalizing isFirst with
  | nil => rfl
  | cons contents rest ih => rw [layouts, List.length_cons, ih, List.length_cons]

/-- Only the first record of a message begins it, and only the last one ends it. -/
theorem getElem?_layouts {records : List Contents} (isFirst : Bool)
    (fits : ∀ contents ∈ records, contents.Fits) {i : Nat} {contents : Contents}
    (listed : records[i]? = some contents) :
    ∃ own : contents.Fits, (layouts isFirst records fits)[i]? =
      some (contents.layout ⟨isFirst && i = 0, i + 1 = records.length⟩ own) := by
  induction records generalizing isFirst i with
  | nil => cases listed
  | cons first rest ih =>
      cases i with
      | zero =>
          obtain rfl := Option.some.inj listed
          refine ⟨fits first List.mem_cons_self, ?_⟩
          rw [layouts, List.getElem?_cons_zero]
          cases rest <;> simp
      | succ i =>
          obtain ⟨own, found⟩ := ih false _ listed
          refine ⟨own, ?_⟩
          rw [layouts, List.getElem?_cons_succ, found]
          simp

theorem encodeFrom_eq_flatMap {records : List Contents} (isFirst : Bool)
    (fits : ∀ contents ∈ records, contents.Fits) :
    encodeFrom isFirst records = .ok ((layouts isFirst records fits).flatMap Layout.bytes) := by
  induction records generalizing isFirst with
  | nil => rfl
  | cons contents rest ih =>
      rw [encodeFrom, Record.encode_eq_layout (fits contents List.mem_cons_self), ih]
      rfl

/-- Records that fit are written one behind the other. -/
theorem encode_eq_flatMap {records : List Contents} (nonempty : records ≠ [])
    (fits : ∀ contents ∈ records, contents.Fits) :
    encode records = .ok ((layouts true records fits).flatMap Layout.bytes) := by
  rw [encode, List.isEmpty_eq_false_iff.mpr nonempty]
  exact encodeFrom_eq_flatMap true fits

theorem fits_of_encodeFrom {isFirst : Bool} {records : List Contents} {bytes : Bytes}
    (written : encodeFrom isFirst records = .ok bytes)
    (small : ∀ contents ∈ records, contents.payload.length < 0x100000000) :
    ∀ contents ∈ records, contents.Fits := by
  induction records generalizing isFirst bytes with
  | nil => intro contents member; cases member
  | cons first rest ih =>
      rw [encodeFrom] at written
      cases own : Record.encode first ⟨isFirst, rest.isEmpty⟩ with
      | error fault => rw [own] at written; cases written
      | ok part =>
          cases others : encodeFrom false rest with
          | error fault => rw [own, others] at written; cases written
          | ok parts =>
              intro contents member
              rcases List.mem_cons.mp member with rfl | later
              · exact Record.fits_of_encode own (small contents List.mem_cons_self)
              · exact ih others (fun other member => small other (List.mem_cons_of_mem _ member))
                  contents later

/-- A message that was written has records, and each of them fits. -/
theorem fits_of_encode {records : List Contents} {bytes : Bytes}
    (written : encode records = .ok bytes)
    (small : ∀ contents ∈ records, contents.payload.length < 0x100000000) :
    records ≠ [] ∧ ∀ contents ∈ records, contents.Fits := by
  rw [encode] at written
  split at written
  · cases written
  · rename_i nonempty
    exact ⟨mt List.isEmpty_iff.mpr nonempty, fits_of_encodeFrom written small⟩

end Message

end NfcTag
