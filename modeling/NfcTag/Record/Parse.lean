/-
# NfcTag.Record.Parse -- records found in a buffer

`readFront` reads the record at the front of a byte string; a record elsewhere
is read by dropping what lies before it and moving the spans back, so a record
means the same wherever it stands.  The only way to fail is that the bytes end
too early.
-/
import NfcTag.Fault
import NfcTag.Record.Header

namespace NfcTag.Record

set_option autoImplicit false

/-- A record with the number of bytes it takes. -/
structure Parsed where
  record : Record
  size : Nat
  deriving Repr, DecidableEq

/-- The same record seen from `amount` bytes further in front. -/
def Parsed.shift (parsed : Parsed) (amount : Nat) : Parsed :=
  { parsed with record := parsed.record.shift amount }

/-- The record at the front of a byte string. -/
def readFront (bytes : Bytes) : Except Fault Parsed :=
  match Header.read? bytes with
  | none => .error .headerCut
  | some header =>
      if header.recordSize ≤ bytes.length then .ok ⟨header.record, header.recordSize⟩
      else .error (.recordCut header.recordSize bytes.length)

/-- The record at `offset`, with spans of the whole buffer. -/
def parse (buf : Bytes) (offset : Nat) : Except Fault Parsed :=
  (readFront (buf.drop offset)).map (·.shift offset)

theorem readFront_size_pos {bytes : Bytes} {parsed : Parsed}
    (found : readFront bytes = .ok parsed) : 0 < parsed.size := by
  unfold readFront at found
  split at found
  · cases found
  · rename_i header _
    split at found
    · cases found
      exact header.recordSize_pos
    · cases found

end NfcTag.Record
