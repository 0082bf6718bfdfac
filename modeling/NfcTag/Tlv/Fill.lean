/-
# NfcTag.Tlv.Fill -- writing blocks into a buffer of their size

A buffer has to be had before it is written, so blocks take two passes.  The first
counts their bytes (`blockSize`, `areaSize`), for values of any length.  The second
stores each block piece by piece, behind the one before it, and refuses a value that
is too long (`blockPieces`, `areaPieces`).  Each pass tells short values from long
ones by itself, so that they agree is a theorem and not a matter of course.
-/
import NfcTag.Tlv

namespace NfcTag.Tlv

set_option autoImplicit false

/-! ## Counting -/

/-- The bytes that the length field of a value takes. -/
def lengthFieldSize (length : Nat) : Nat := if length < longForm.toNat then 1 else 3

def blockSize (entry : Entry) : Nat :=
  1 + lengthFieldSize entry.value.length + entry.value.length

/-- The bytes of all blocks, and one for the terminator. -/
def areaSize (entries : List Entry) : Nat :=
  entries.foldl (fun size entry => size + blockSize entry) 1

/-! ## Storing -/

/-- Bytes to store, and the place for the first of them. -/
structure Piece where
  place : Nat
  run : Bytes
  deriving DecidableEq

namespace Piece

/-- The first place behind the piece. -/
def stop (piece : Piece) : Nat := piece.place + piece.run.length

def store (piece : Piece) (buf : Bytes) : Bytes := buf.overwrite piece.place piece.run

end Piece

/-- The buffer after pieces are stored one after another. -/
def storeAll (buf : Bytes) (pieces : List Piece) : Bytes :=
  pieces.foldl (fun buf piece => piece.store buf) buf

/-- The pieces of a block whose type goes to `place`, and the place behind it. -/
def blockPieces (place : Nat) (entry : Entry) : Except Fault (List Piece × Nat) :=
  let length := entry.value.length
  if maxLength < length then .error (.valueTooLong length maxLength)
  else if length < longForm.toNat then
    .ok ([⟨place, [entry.type.toByte]⟩, ⟨place + 1, [UInt8.ofNat length]⟩,
      ⟨place + 2, entry.value⟩], place + 2 + length)
  else
    .ok ([⟨place, [entry.type.toByte]⟩, ⟨place + 1, [longForm]⟩,
      ⟨place + 2, BigEndian.encode 2 length⟩, ⟨place + 4, entry.value⟩], place + 4 + length)

/-- The pieces of blocks from `place` on, and of the terminator behind them. -/
def areaPieces : (place : Nat) → List Entry → Except Fault (List Piece)
  | place, [] => .ok [⟨place, [terminator]⟩]
  | place, entry :: rest => do
      let (block, next) ← blockPieces place entry
      let others ← areaPieces next rest
      return block ++ others

/-- A block, written into a buffer of its size. -/
def fillBlock (entry : Entry) : Except Fault Bytes := do
  let (pieces, _) ← blockPieces 0 entry
  return storeAll (List.replicate (blockSize entry) 0) pieces

/-- A whole memory area, written into a buffer of its size. -/
def fillArea (entries : List Entry) : Except Fault Bytes := do
  let pieces ← areaPieces 0 entries
  return storeAll (List.replicate (areaSize entries) 0) pieces

end NfcTag.Tlv
