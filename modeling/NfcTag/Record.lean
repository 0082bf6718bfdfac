/-
# NfcTag.Record -- the records of a message

A record has a type name format, a type, an optional id and a payload.  There
are two forms of it: `Record`, as found in a buffer, names its parts by spans;
`Record.Contents`, as handed in for writing, holds their bytes.  A record in a
buffer never has an empty id: a declared id of length zero reads as none.
-/
import NfcTag.Bytes.Span
import NfcTag.Number.Binary64

namespace NfcTag

set_option autoImplicit false

/-- How the type of a record is to be understood. -/
inductive Tnf where
  | empty
  | wellKnown
  | media
  /-- The type is an absolute URI. -/
  | absoluteUri
  | external
  | unknown
  | unchanged
  | reserved
  deriving Repr, DecidableEq

namespace Tnf

def all : List Tnf :=
  [empty, wellKnown, media, absoluteUri, external, unknown, unchanged, reserved]

def code : Tnf → Nat
  | empty => 0
  | wellKnown => 1
  | media => 2
  | absoluteUri => 3
  | external => 4
  | unknown => 5
  | unchanged => 6
  | reserved => 7

/-- The format of a code; only the low three bits count. -/
def ofCode (code : Nat) : Tnf :=
  match code % 8 with
  | 0 => empty
  | 1 => wellKnown
  | 2 => media
  | 3 => absoluteUri
  | 4 => external
  | 5 => unknown
  | 6 => unchanged
  | _ => reserved

/-- The format that a number names: its whole part, modulo 8. -/
def ofNumber (v : Binary64) : Tnf := ofCode (v.truncate % 8).toNat

theorem code_lt (tnf : Tnf) : tnf.code < 8 := by cases tnf <;> decide

theorem ofCode_code (tnf : Tnf) : ofCode tnf.code = tnf := by cases tnf <;> rfl

theorem code_ofCode (code : Nat) : (ofCode code).code = code % 8 := by
  have small : code % 8 < 8 := Nat.mod_lt _ (by decide)
  unfold ofCode
  split <;> simp_all [Tnf.code]
  omega

end Tnf

structure Record where
  tnf : Tnf
  type : Span
  id : Option Span
  payload : Span
  deriving Repr, DecidableEq

namespace Record

/-- The same record seen from `amount` bytes further in front. -/
def shift (record : Record) (amount : Nat) : Record where
  tnf := record.tnf
  type := record.type.shift amount
  id := record.id.map (·.shift amount)
  payload := record.payload.shift amount

/-- The contents of a record to write.  The format is any number, of which
three bits are kept.  An empty id is an id. -/
structure Contents where
  tnf : Binary64
  type : Bytes
  id : Option Bytes
  payload : Bytes
  deriving DecidableEq

/-- Where in its message a record stands. -/
structure Position where
  messageBegin : Bool
  messageEnd : Bool
  deriving Repr, DecidableEq

end Record

end NfcTag
