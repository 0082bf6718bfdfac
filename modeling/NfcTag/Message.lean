/-
# NfcTag.Message -- records back to back

A message is written as its records one after another, the first marked as its
begin and the last as its end; a lone record is both.  `walk` goes the other
way: it reads records as long as it can and answers how far it came, and why it
stopped if bytes are left.
-/
import NfcTag.Record.Encode
import NfcTag.Record.Parse

namespace NfcTag.Message

set_option autoImplicit false

/-! ## Writing -/

/-- The bytes of records of which the last ends the message; the first begins
it if `isFirst`. -/
def encodeFrom (isFirst : Bool) : List Record.Contents → Except Fault Bytes
  | [] => .ok []
  | contents :: rest => do
      let record ← Record.encode contents ⟨isFirst, rest.isEmpty⟩
      let records ← encodeFrom false rest
      return record ++ records

def encode (records : List Record.Contents) : Except Fault Bytes :=
  if records.isEmpty then .error .noRecords else encodeFrom true records

/-! ## Reading -/

/-- How a walk over a buffer ended. -/
structure Walk where
  records : List Record.Parsed
  /-- The place behind the last record read. -/
  stop : Nat
  /-- Why the walk ended there, if that is not the end of the buffer. -/
  fault : Option Fault
  deriving DecidableEq

/-- The records of bytes that start at `offset`, as far as they can be read. -/
def walkFrom (offset : Nat) (bytes : Bytes) : Walk :=
  if bytes = [] then ⟨[], offset, none⟩
  else
    match _found : Record.readFront bytes with
    | .ok parsed =>
        let rest := walkFrom (offset + parsed.size) (bytes.drop parsed.size)
        { rest with records := parsed.shift offset :: rest.records }
    | .error fault => ⟨[], offset, some fault⟩
termination_by bytes.length
decreasing_by
  rename_i nonempty
  have positive := Record.readFront_size_pos _found
  have left := List.length_pos_iff.mpr nonempty
  rw [List.length_drop]
  omega

/-- The records of a buffer from `offset` on, as far as they can be read. -/
def walk (buf : Bytes) (offset : Nat) : Walk := walkFrom offset (buf.drop offset)

end NfcTag.Message
