/-
# NfcTag.Proofs.Bytes.Rows -- byte strings back to back

Things that are written back to back are known from the bytes of the whole row, if
each takes at least one byte and its bytes tell where it ends.
-/
import Mathlib.Data.List.Forall2
import NfcTag.Bytes

namespace NfcTag.Bytes

set_option autoImplicit false

/-- Rows of the same bytes have the same things in the same order, as far as the bytes
of one thing tell what it is, whatever follows them. -/
theorem forall₂_of_flatMap_eq {α : Type} {written : α → Bytes} {good : α → Prop}
    {same : α → α → Prop} (nonempty : ∀ one, written one ≠ [])
    (apart : ∀ one other rest otherRest, good one → good other →
      written one ++ rest = written other ++ otherRest → same one other ∧ rest = otherRest)
    {row others : List α} (rowGood : ∀ one ∈ row, good one) (othersGood : ∀ one ∈ others, good one)
    (bytes : row.flatMap written = others.flatMap written) : List.Forall₂ same row others := by
  induction row generalizing others with
  | nil =>
      cases others with
      | nil => exact .nil
      | cons other others =>
          rw [List.flatMap_nil, List.flatMap_cons, eq_comm, List.append_eq_nil_iff] at bytes
          exact absurd bytes.1 (nonempty other)
  | cons one row ih =>
      cases others with
      | nil =>
          rw [List.flatMap_nil, List.flatMap_cons, List.append_eq_nil_iff] at bytes
          exact absurd bytes.1 (nonempty one)
      | cons other others =>
          rw [List.flatMap_cons, List.flatMap_cons] at bytes
          obtain ⟨first, rests⟩ := apart one other _ _ (rowGood one List.mem_cons_self)
            (othersGood other List.mem_cons_self) bytes
          exact .cons first (ih (fun later member => rowGood later (List.mem_cons_of_mem _ member))
            (fun later member => othersGood later (List.mem_cons_of_mem _ member)) rests)

end NfcTag.Bytes
