/-
# NfcTag.Tlv.Scan -- finding blocks in tag memory

`blocks` lists the blocks of a memory area in order: padding bytes are stepped
over, a terminator ends the area, and so does a length field that is cut or
reserved.  A block's value may run past the end of the memory; it is still
listed, as the last one.  Looking for a type is then looking into that list, so
a byte inside a value is never taken for a type, and looks for different types
agree on where blocks begin.
-/
import NfcTag.Bytes.Span
import NfcTag.Tlv

namespace NfcTag.Tlv

set_option autoImplicit false

structure Location where
  type : UInt8
  /-- The place of the first value byte. -/
  offset : Nat
  /-- The declared length of the value. -/
  length : Nat
  deriving Repr, DecidableEq

def Location.span (location : Location) : Span := ⟨location.offset, location.length⟩

/-- The blocks of an area whose first byte is at `offset`, after `skip` bytes
that belong to a block already read. -/
def blocksFrom : (skip offset : Nat) → Bytes → List Location
  | _, _, [] => []
  | skip + 1, offset, _ :: rest => blocksFrom skip (offset + 1) rest
  | 0, offset, type :: rest =>
      if type = null then blocksFrom 0 (offset + 1) rest
      else if type = terminator then []
      else
        match lengthField? rest with
        | none => []
        | some field =>
            ⟨type, offset + 1 + field.width, field.length⟩ ::
              blocksFrom (field.width + field.length) (offset + 1) rest

def blocks (memory : Bytes) : List Location := blocksFrom 0 0 memory

def findByte? (memory : Bytes) (type : UInt8) : Option Location :=
  (blocks memory).find? (·.type = type)

/-- The first block whose type is the given number; a number that is no byte is
no block's type. -/
def find? (memory : Bytes) (type : Binary64) : Option Location :=
  type.toNat?.bind fun code =>
    if code < 256 then findByte? memory (UInt8.ofNat code) else none

/-- Skipping is dropping. -/
theorem blocksFrom_eq_drop (skip offset : Nat) (memory : Bytes) :
    blocksFrom skip offset memory = blocksFrom 0 (offset + skip) (memory.drop skip) := by
  induction memory generalizing skip offset with
  | nil => cases skip <;> simp [blocksFrom]
  | cons b rest ih =>
      cases skip with
      | zero => rfl
      | succ skip =>
          rw [blocksFrom, ih, List.drop_succ_cons]
          congr 1
          omega

end NfcTag.Tlv
