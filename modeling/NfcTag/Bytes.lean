/-
# NfcTag.Bytes -- byte strings and writing into the middle of one

Tag memory, messages and field values are all lists of bytes.  `overwrite` is
the only way a buffer changes: it replaces a run of bytes in place, so
`length_overwrite` (a run that fits keeps the length) holds of every store in
this library.
-/

namespace NfcTag

set_option autoImplicit false

abbrev Bytes := List UInt8

namespace Bytes

/-- Replace the bytes from `offset` on by `run`, keeping what lies before and
behind. -/
def overwrite (buf : Bytes) (offset : Nat) (run : Bytes) : Bytes :=
  buf.take offset ++ run ++ buf.drop (offset + run.length)

/-- The front `count` bytes and what follows them, when there are so many. -/
def split? (count : Nat) (buf : Bytes) : Option (Bytes × Bytes) :=
  let front := buf.take count
  if front.length = count then some (front, buf.drop count) else none

theorem length_overwrite {buf run : Bytes} {offset : Nat}
    (fits : offset + run.length ≤ buf.length) :
    (buf.overwrite offset run).length = buf.length := by
  simp only [overwrite, List.length_append, List.length_take, List.length_drop]
  omega

/-- A byte after an overwrite: the run's inside it, the old one elsewhere. -/
theorem getElem?_overwrite {buf run : Bytes} {offset : Nat}
    (fits : offset + run.length ≤ buf.length) (i : Nat) :
    (buf.overwrite offset run)[i]? =
      if offset ≤ i ∧ i < offset + run.length then run[i - offset]? else buf[i]? := by
  have front : (buf.take offset).length = offset := by simp; omega
  unfold overwrite
  by_cases before : i < offset
  · rw [if_neg (by omega), List.append_assoc, List.getElem?_append_left (by omega),
      List.getElem?_take_of_lt before]
  · by_cases inside : i < offset + run.length
    · rw [if_pos (by omega), List.append_assoc, List.getElem?_append_right (by omega), front,
        List.getElem?_append_left (by omega)]
    · rw [if_neg (by omega), List.getElem?_append_right (by simp; omega), List.getElem?_drop]
      congr 1
      simp only [List.length_append, front]
      omega

theorem take_drop_overwrite {buf run : Bytes} {offset : Nat}
    (fits : offset + run.length ≤ buf.length) :
    ((buf.overwrite offset run).drop offset).take run.length = run := by
  have front : (buf.take offset).length = offset := by simp; omega
  unfold overwrite
  rw [List.append_assoc, List.drop_append_of_le_length (by omega),
    List.drop_eq_nil_of_le (by omega), List.nil_append, List.take_left]

theorem split?_eq_some_iff {count : Nat} {buf front rest : Bytes} :
    split? count buf = some (front, rest) ↔ buf = front ++ rest ∧ front.length = count := by
  unfold split?
  simp only [Option.ite_none_right_eq_some, Option.some.injEq, Prod.mk.injEq]
  constructor
  · rintro ⟨len, rfl, rfl⟩
    exact ⟨(List.take_append_drop count buf).symm, len⟩
  · rintro ⟨rfl, rfl⟩
    simp

end Bytes

end NfcTag
