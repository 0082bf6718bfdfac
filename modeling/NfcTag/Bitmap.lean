/-
# NfcTag.Bitmap -- single bits of a packed bitmap

Bit `i` lives in byte `i / 8`, at position `i % 8` from the least significant
end; `value` is the natural number whose binary digits the bits are.  An index
is a whole number inside the bitmap, anything else is refused.  Bytes are
addressed by 32-bit indices: bitmaps of more than `2 ^ 29` bytes start over.
-/
import NfcTag.Bytes
import NfcTag.Fault

namespace NfcTag.Bitmap

set_option autoImplicit false

/-- The bitmap as a natural number, its first byte least significant. -/
def value : Bytes → Nat
  | [] => 0
  | b :: rest => b.toNat + 256 * value rest

/-- The bit that `index` names, if the bitmap has it. -/
def bit? (bitmap : Bytes) (index : Binary64) : Option Nat :=
  index.toNat?.filter (· < 8 * bitmap.length)

def byteOf (bit : Nat) : Nat := bit % 0x100000000 / 8

/-- A byte with only the given bit set. -/
def mask (bit : Nat) : UInt8 := UInt8.ofNat (1 <<< (bit % 8))

/-- A byte with one bit set or cleared. -/
def put (bit : Nat) (on : Bool) (byte : UInt8) : UInt8 :=
  if on then byte ||| mask bit else byte &&& ~~~mask bit

def isSet (bitmap : Bytes) (index : Binary64) : Except Fault Bool :=
  match bit? bitmap index with
  | some bit => .ok ((bitmap.getD (byteOf bit) 0).toNat.testBit (bit % 8))
  | none => .error (.bitOutside index bitmap.length)

/-- `isSet` of a bitmap that is held as an array. -/
def isSetArray (bitmap : ByteArray) (index : Binary64) : Except Fault Bool :=
  match index.toNat?.filter (· < 8 * bitmap.size) with
  | some bit => .ok ((bitmap.get! (byteOf bit)).toNat.testBit (bit % 8))
  | none => .error (.bitOutside index bitmap.size)

/-- Set or clear the bit at `index`: the bitmap afterwards. -/
def set (bitmap : Bytes) (index : Binary64) (on : Bool) : Except Fault Bytes :=
  match bit? bitmap index with
  | some bit => .ok (bitmap.modify (byteOf bit) (put bit on))
  | none => .error (.bitOutside index bitmap.length)

theorem bit?_eq_some_iff {bitmap : Bytes} {index : Binary64} {bit : Nat} :
    bit? bitmap index = some bit ↔ index.toNat? = some bit ∧ bit < 8 * bitmap.length := by
  simp [bit?, Option.filter_eq_some_iff]

theorem isSetArray_eq (bitmap : ByteArray) (index : Binary64) :
    isSetArray bitmap index = isSet bitmap.data.toList index := by
  have byte (i : Nat) : bitmap.get! i = bitmap.data.toList.getD i 0 := by
    rw [List.getD_eq_getElem?_getD, Array.getElem?_toList]
    exact getElem!_def ..
  rw [isSetArray, isSet, bit?]
  simp only [byte, Array.length_toList]
  rfl

theorem length_set {bitmap after : Bytes} {index : Binary64} {on : Bool}
    (stored : set bitmap index on = .ok after) : after.length = bitmap.length := by
  unfold set at stored
  split at stored
  · cases stored
    exact List.length_modify _ _ _
  · cases stored

theorem testBit_mask (bit i : Nat) :
    (mask bit).toNat.testBit i = decide (bit % 8 = i) := by
  have position : bit % 8 < 8 := Nat.mod_lt _ (by decide)
  rw [mask, UInt8.toNat_ofNat', Nat.one_shiftLeft,
    Nat.mod_eq_of_lt (Nat.pow_lt_pow_right (by decide) position), Nat.testBit_two_pow]

/-- Of a byte's bits, exactly the one asked for takes the new value. -/
theorem testBit_put (bit : Nat) (on : Bool) (byte : UInt8) (i : Nat) (small : i < 8) :
    (put bit on byte).toNat.testBit i = if bit % 8 = i then on else byte.toNat.testBit i := by
  cases on
  · have flipped : (~~~mask bit).toNat.testBit i = !(mask bit).toNat.testBit i := by
      rw [UInt8.toNat_not, show UInt8.size - 1 - (mask bit).toNat =
        2 ^ 8 - ((mask bit).toNat + 1) from by simp [UInt8.size],
        Nat.testBit_two_pow_sub_succ (mask bit).toNat_lt]
      simp [small]
    simp only [put, Bool.false_eq_true, if_false, UInt8.toNat_and, Nat.testBit_and, flipped,
      testBit_mask bit i]
    by_cases here : bit % 8 = i <;> simp [here]
  · simp only [put, if_true, UInt8.toNat_or, Nat.testBit_or, testBit_mask bit i]
    by_cases here : bit % 8 = i <;> simp [here]

end NfcTag.Bitmap
