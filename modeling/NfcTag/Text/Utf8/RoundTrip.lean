/-
# NfcTag.Text.Utf8.RoundTrip -- reading what was written

Main statements: `run_encodeChars` (the reader answers exactly the characters of
a written text and is back between characters for what follows), its instance
`decode_encode`, and `encode_prefix_iff` (a text starts another one exactly if its
bytes start those of the other).
-/
import NfcTag.Text.Utf8

namespace NfcTag.Utf8

set_option autoImplicit false

/-! ## Single bytes -/

theorem toNat_ofNat_byte {n : Nat} (small : n < 256) : (UInt8.ofNat n).toNat = n := by
  rw [UInt8.toNat_ofNat']
  exact Nat.mod_eq_of_lt small

theorem toNat_continuation (bits : Nat) : (continuation bits).toNat = 0x80 + bits % 64 :=
  toNat_ofNat_byte (by omega)

theorem run_cons (state : State) (b : UInt8) (rest : Bytes) :
    run state (b :: rest) = (step b.toNat state).1 ++ run (step b.toNat state).2 rest := rfl

/-- A byte that is admitted and not the last of its character. -/
theorem run_cons_inside {state : State} {b : UInt8} {more low high code : Nat} {rest : Bytes}
    (now : state = .inside more low high code) (within : low ≤ b.toNat ∧ b.toNat ≤ high)
    (unfinished : 1 < more) :
    run state (b :: rest) =
      run (.inside (more - 1) 0x80 0xbf (code * 64 + (b.toNat - 0x80))) rest := by
  rw [now, run_cons]
  simp only [step, if_pos within, if_neg (Nat.not_le.mpr unfinished), List.nil_append]

/-- A byte that is admitted and completes its character. -/
theorem run_cons_last {state : State} {b : UInt8} {low high code : Nat} {rest : Bytes}
    (now : state = .inside 1 low high code) (within : low ≤ b.toNat ∧ b.toNat ≤ high) :
    run state (b :: rest) =
      Char.ofNat (code * 64 + (b.toNat - 0x80)) :: run .start rest := by
  rw [now, run_cons]
  simp only [step, if_pos within, Nat.le_refl, if_true, List.singleton_append]

/-- A byte that opens a longer character. -/
theorem run_cons_lead {b : UInt8} (state : State) {rest : Bytes}
    (opens : lead b.toNat = ([], state)) : run .start (b :: rest) = run state rest := by
  rw [run_cons]
  simp only [step, opens, List.nil_append]

/-! ## Characters and texts -/

theorem run_encodeChar (c : Char) (rest : Bytes) :
    run .start (encodeChar c ++ rest) = c :: run .start rest := by
  have scalar : c.toNat < 0xd800 ∨ 0xdfff < c.toNat ∧ c.toNat < 0x110000 := c.valid
  have back : Char.ofNat c.toNat = c := Char.ofNat_toNat c
  unfold encodeChar
  generalize c.toNat = code at scalar back ⊢
  dsimp only
  split
  · rw [List.singleton_append, run_cons, toNat_ofNat_byte (by omega)]
    simp only [step, lead]
    rw [if_pos (by assumption), back]
    rfl
  split
  · have first := toNat_ofNat_byte (n := 0xc0 + code / 64) (by omega)
    have last := toNat_continuation code
    simp only [List.cons_append, List.nil_append]
    rw [run_cons_lead (.inside 1 0x80 0xbf (code / 64)), run_cons_last rfl (by omega), last,
      show code / 64 * 64 + (0x80 + code % 64 - 0x80) = code by omega, back]
    rw [first]
    simp only [lead]
    rw [if_neg (by omega), if_neg (by omega), if_pos (by omega), Nat.add_sub_cancel_left]
  split
  · have first := toNat_ofNat_byte (n := 0xe0 + code / 4096) (by omega)
    have second := toNat_continuation (code / 64)
    have last := toNat_continuation code
    simp only [List.cons_append, List.nil_append]
    rw [run_cons_lead
        (.inside 2 (if 0xe0 + code / 4096 = 0xe0 then 0xa0 else 0x80)
          (if 0xe0 + code / 4096 = 0xed then 0x9f else 0xbf) (code / 4096)),
      run_cons_inside rfl (by split <;> split <;> omega) (by decide),
      run_cons_last rfl (by omega), second, last,
      show (code / 4096 * 64 + (0x80 + code / 64 % 64 - 0x80)) * 64 + (0x80 + code % 64 - 0x80) =
        code by omega, back]
    rw [first]
    simp only [lead]
    rw [if_neg (by omega), if_neg (by omega), if_neg (by omega), if_pos (by omega),
      Nat.add_sub_cancel_left]
  · have first := toNat_ofNat_byte (n := 0xf0 + code / 262144) (by omega)
    have second := toNat_continuation (code / 4096)
    have third := toNat_continuation (code / 64)
    have last := toNat_continuation code
    simp only [List.cons_append, List.nil_append]
    rw [run_cons_lead
        (.inside 3 (if 0xf0 + code / 262144 = 0xf0 then 0x90 else 0x80)
          (if 0xf0 + code / 262144 = 0xf4 then 0x8f else 0xbf) (code / 262144)),
      run_cons_inside rfl (by split <;> split <;> omega) (by decide),
      run_cons_inside rfl (by omega) (by decide), run_cons_last rfl (by omega), second, third, last,
      show ((code / 262144 * 64 + (0x80 + code / 4096 % 64 - 0x80)) * 64 +
        (0x80 + code / 64 % 64 - 0x80)) * 64 + (0x80 + code % 64 - 0x80) = code by omega, back]
    rw [first]
    simp only [lead]
    rw [if_neg (by omega), if_neg (by omega), if_neg (by omega), if_neg (by omega),
      if_pos (by omega), Nat.add_sub_cancel_left]

/-- A written text is read as itself, and reading goes on between characters. -/
theorem run_encodeChars (text : List Char) (rest : Bytes) :
    run .start (encodeChars text ++ rest) = text ++ run .start rest := by
  induction text with
  | nil => rfl
  | cons c text ih =>
      rw [encodeChars, List.flatMap_cons, List.append_assoc, run_encodeChar, List.cons_append]
      exact congrArg (c :: ·) ih

theorem decodeChars_encodeChars (text : List Char) : decodeChars (encodeChars text) = text := by
  have whole := run_encodeChars text []
  rwa [List.append_nil, run, finish, List.append_nil] at whole

theorem decode_encode (text : String) : decode (encode text) = text := by
  rw [decode, encode, decodeChars_encodeChars, String.ofList_toList]

/-- Whole characters start a text exactly if their bytes start its bytes. -/
theorem encode_prefix_iff {front text : String} :
    encode front <+: encode text ↔ front.toList <+: text.toList := by
  constructor
  · rintro ⟨rest, whole⟩
    -- The reader takes the front off both, and reads the rest from between characters.
    refine ⟨run .start rest, ?_⟩
    rw [← run_encodeChars, ← encode, whole]
    exact decodeChars_encodeChars text.toList
  · rintro ⟨rest, whole⟩
    refine ⟨encodeChars rest, ?_⟩
    rw [encode, encode, ← whole, encodeChars, encodeChars, encodeChars, List.flatMap_append]

end NfcTag.Utf8
