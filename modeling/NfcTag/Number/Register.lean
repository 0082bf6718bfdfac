/-
# NfcTag.Number.Register -- the bits of a number

Bits are taken of the whole part of a number, in a register of 32 bits and two's
complement: what does not fit is cut off.  A register is read as a number again, with
its sign (`ofSigned`) or without (`ofUnsigned`); only a shift that fills up with zeros
reads it without.
-/
import NfcTag.Number.Binary64

namespace NfcTag.Binary64

set_option autoImplicit false

/-- The low 32 bits of the whole part. -/
def register (v : Binary64) : BitVec 32 := BitVec.ofInt 32 v.truncate

def ofSigned (bits : BitVec 32) : Binary64 := ofInt bits.toInt

def ofUnsigned (bits : BitVec 32) : Binary64 := ofInt bits.toNat

/-! ## Bitwise operations -/

/-- The bits that both have. -/
def mask (v : Binary64) (bits : BitVec 32) : Binary64 := ofSigned (v.register &&& bits)

/-- The bits that one of both has. -/
def join (v : Binary64) (bits : BitVec 32) : Binary64 := ofSigned (v.register ||| bits)

def shiftLeft (v : Binary64) (count : Nat) : Binary64 := ofSigned (v.register <<< count)

/-- The sign comes in from the left. -/
def shiftRight (v : Binary64) (count : Nat) : Binary64 :=
  ofSigned (v.register.sshiftRight count)

/-- Zeros come in from the left. -/
def shiftRightZeros (v : Binary64) (count : Nat) : Binary64 := ofUnsigned (v.register >>> count)

/-! ## Growing by a byte -/

/-- A byte behind the number: 256 times the number and the byte, rounded. -/
def pushByte (v : Binary64) (byte : UInt8) : Binary64 :=
  match v.datum with
  | .finite negative units =>
      let signed : Int := if negative then -units else units
      let sum := signed * 256 + (byte.toNat * Datum.one : Nat)
      ofDatum (.finite (sum < 0) sum.natAbs)
  | _ => v

/-! ## Patterns as numbers -/

/-- The pattern of the single that the number is rounded to. -/
def singlePattern (v : Binary64) : Binary64 := ofInt v.toSingle.toNat

/-- The single whose pattern is in the register. -/
def ofSinglePattern (pattern : Binary64) : Binary64 := ofSingle ⟨pattern.register⟩

def doublePattern (v : Binary64) : Int := v.bits.toNat

/-- The double of a pattern; only its low 64 bits count. -/
def ofDoublePattern (pattern : Int) : Binary64 := ofBits (UInt64.ofInt pattern)

end NfcTag.Binary64
