/-
# NfcTag.Codec.Bytewise -- values stored and loaded one byte at a time

A `Codec` says which bytes a value takes.  A `Bytewise` says how they get into a buffer
and out of it.  Numbers go through a register of 32 bits: the low byte is masked off and
stored last, the rest is shifted down to be stored in front of it.  Loading makes a
number grow byte by byte, and signed fields shift the sign bit of what was loaded into
place.  Integers of 64 bits are shifted and joined bit by bit without a register.

Nothing here asks whether the bytes lie in the buffer: that is for the caller to know.
-/
import NfcTag.Codec
import NfcTag.Number.Register

namespace NfcTag

set_option autoImplicit false

/-- A way to store values of `α` into `size` bytes of a buffer, and to load them. -/
structure Bytewise (α : Type) where
  size : Nat
  /-- The buffer with the value at a place. -/
  store : α → (place : Nat) → Bytes → Bytes
  /-- The value at a place of a buffer. -/
  load : (place : Nat) → Bytes → α

/-! ## Loops -/

/-- Store `width` bytes of a number from `place` on, the low one last and first. -/
def storeNumber (place : Nat) : (width : Nat) → Binary64 → Bytes → Bytes
  | 0, _, buf => buf
  | width + 1, v, buf =>
      storeNumber place width (v.shiftRightZeros 8) (buf.set (place + width) (v.mask 0xff).toByte)

/-- Load `width` bytes from `place` on as a number without a sign. -/
def loadNumber (place width : Nat) (buf : Bytes) : Binary64 :=
  (List.range width).foldl (fun v i => v.pushByte (buf.getD (place + i) 0)) (Binary64.ofInt 0)

/-- `storeNumber` for bits of any count. -/
def storeBits (place : Nat) : (width bits : Nat) → Bytes → Bytes
  | 0, _, buf => buf
  | width + 1, bits, buf =>
      storeBits place width (bits >>> 8) (buf.set (place + width) (UInt8.ofNat (bits &&& 0xff)))

/-- `loadNumber` for bits of any count. -/
def loadBits (place width : Nat) (buf : Bytes) : Nat :=
  (List.range width).foldl (fun bits i => bits <<< 8 ||| (buf.getD (place + i) 0).toNat) 0

namespace Bytewise

variable {α β : Type}

/-! ## Parts -/

/-- One value after another. -/
def pair (first : Bytewise α) (second : Bytewise β) : Bytewise (α × β) where
  size := first.size + second.size
  store value place buf :=
    second.store value.2 (place + first.size) (first.store value.1 place buf)
  load place buf := (first.load place buf, second.load (place + first.size) buf)

/-- The same bytes, taken for another type. -/
def congr (path : Bytewise α) (toWire : β → α) (ofWire : α → β) : Bytewise β where
  size := path.size
  store value := path.store (toWire value)
  load place buf := ofWire (path.load place buf)

/-! ## Integers -/

/-- A number of one byte, loaded as it stands. -/
def byte : Bytewise Binary64 where
  size := 1
  store v place := storeNumber place 1 v
  load place buf := Binary64.ofInt (buf.getD place 0).toNat

/-- A number of `width` bytes without a sign. -/
def word (width : Nat) : Bytewise Binary64 where
  size := width
  store v place := storeNumber place width v
  load place := loadNumber place width

/-- The same bytes with a sign: the number is shifted up to the top of the register and
down again. -/
def extend (path : Bytewise Binary64) : Bytewise Binary64 where
  size := path.size
  store := path.store
  load place buf :=
    let unused := 32 - 8 * path.size
    ((path.load place buf).shiftLeft unused).shiftRight unused

/-- A number of four bytes with a sign; they fill the register as it is. -/
def signedWord : Bytewise Binary64 where
  size := 4
  store v place := storeNumber place 4 v
  load place buf := (loadNumber place 4 buf).join 0

/-- An integer of 64 bits without a sign. -/
def long : Bytewise Int where
  size := 8
  store n place := storeBits place 8 (Codec.wrap 8 n)
  load place buf := loadBits place 8 buf

def signedLong : Bytewise Int where
  size := 8
  store n place := storeBits place 8 (Codec.wrap 8 n)
  load place buf := Int.bmod (loadBits place 8 buf) (1 <<< 64)

/-! ## Floating point and truth values -/

/-- A single is moved as its pattern. -/
def single : Bytewise Binary64 := (word 4).congr Binary64.singlePattern Binary64.ofSinglePattern

def double : Bytewise Binary64 := long.congr Binary64.doublePattern Binary64.ofDoublePattern

def boolean : Bytewise Bool where
  size := 1
  store b place buf := buf.set place (if b then 1 else 0)
  load place buf := buf.getD place 0 != 0

end Bytewise

end NfcTag
