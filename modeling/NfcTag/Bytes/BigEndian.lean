/-
# NfcTag.Bytes.BigEndian -- naturals as big-endian words

`encode width n` writes the low `width` bytes of `n`, most significant first;
`decode` reads any byte string as a natural.  A width has `modulus width` words,
256 to the power of the width.  Main statements: `decode_encode` (reading back
gives the number modulo the number of words) and `encode_decode` (every word is
the encoding of the number it reads as).
-/
import NfcTag.Bytes

namespace NfcTag.BigEndian

set_option autoImplicit false

/-- The number of words of a width. -/
def modulus : (width : Nat) → Nat
  | 0 => 1
  | width + 1 => 256 * modulus width

/-- The low `width` bytes of `n`, most significant first; higher bytes are
dropped. -/
def encode : (width n : Nat) → Bytes
  | 0, _ => []
  | width + 1, n => encode width (n / 256) ++ [UInt8.ofNat n]

/-- The natural that a word stands for; the empty word is zero. -/
def decode (word : Bytes) : Nat :=
  word.foldl (fun n b => n * 256 + b.toNat) 0

theorem modulus_pos (width : Nat) : 0 < modulus width := by
  induction width with
  | zero => decide
  | succ width ih => rw [modulus]; omega

theorem modulus_add (width more : Nat) : modulus (width + more) = modulus width * modulus more := by
  induction width with
  | zero => rw [Nat.zero_add, modulus, Nat.one_mul]
  | succ width ih => rw [Nat.succ_add, modulus, modulus, ih, Nat.mul_assoc]

theorem modulus_mono {width most : Nat} (narrow : width ≤ most) :
    modulus width ≤ modulus most := by
  obtain ⟨more, rfl⟩ := Nat.le.dest narrow
  rw [modulus_add]
  exact Nat.le_mul_of_pos_right _ (modulus_pos more)

@[simp] theorem length_encode (width n : Nat) : (encode width n).length = width := by
  induction width generalizing n with
  | zero => rfl
  | succ width ih => simp [encode, ih]

@[simp] theorem decode_nil : decode [] = 0 := rfl

theorem decode_concat (word : Bytes) (b : UInt8) :
    decode (word ++ [b]) = decode word * 256 + b.toNat := by
  simp [decode]

@[simp] theorem decode_singleton (b : UInt8) : decode [b] = b.toNat := by
  simp [decode]

theorem decode_pair (high low : UInt8) : decode [high, low] = high.toNat * 256 + low.toNat := by
  rw [← decode_singleton high]
  exact decode_concat [high] low

theorem decode_encode (width n : Nat) : decode (encode width n) = n % modulus width := by
  induction width generalizing n with
  | zero => simp [encode, modulus, Nat.mod_one]
  | succ width ih =>
      rw [encode, decode_concat, ih, modulus, Nat.mod_mul, UInt8.toNat_ofNat']
      omega

theorem decode_lt (word : Bytes) : decode word < modulus word.length := by
  obtain ⟨digits, rfl⟩ : ∃ digits : Bytes, word = digits.reverse := ⟨word.reverse, by simp⟩
  induction digits with
  | nil => decide
  | cons b digits ih =>
      rw [List.reverse_cons, decode_concat, List.length_append, List.length_singleton, modulus]
      have := b.toNat_lt
      omega

theorem encode_decode (word : Bytes) : encode word.length (decode word) = word := by
  obtain ⟨digits, rfl⟩ : ∃ digits : Bytes, word = digits.reverse := ⟨word.reverse, by simp⟩
  induction digits with
  | nil => rfl
  | cons b digits ih =>
      generalize same : digits.reverse = word at ih
      have high : (decode word * 256 + b.toNat) / 256 = decode word := by
        have := b.toNat_lt
        omega
      have low : UInt8.ofNat (decode word * 256 + b.toNat) = b := by
        apply UInt8.toNat_inj.mp
        rw [UInt8.toNat_ofNat']
        have := b.toNat_lt
        omega
      rw [List.reverse_cons, same, List.length_append, List.length_singleton, encode,
        decode_concat, high, low, ih]

/-- Two numbers give the same word exactly when they agree modulo its range. -/
theorem encode_inj {width m n : Nat} :
    encode width m = encode width n ↔ m % modulus width = n % modulus width := by
  constructor
  · intro same
    rw [← decode_encode, same, decode_encode]
  · intro same
    rw [← decode_encode, ← decode_encode] at same
    have left := encode_decode (encode width m)
    have right := encode_decode (encode width n)
    rw [length_encode] at left right
    rw [← left, ← right, same]

end NfcTag.BigEndian
