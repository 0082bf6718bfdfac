/-
# NfcTag.Fault -- why an operation is refused

One type for the whole library, by cause.  Faults of tag contents carry a
status that callers can tell apart by its code; the others say that an
argument is out of range and only have a text.  `message` is the text of both.
-/
import NfcTag.Number.Text

namespace NfcTag

set_option autoImplicit false

/-- What is wrong with a tag's contents. -/
inductive Status where
  /-- Tag memory holds no message, or an empty one, or one that is cut. -/
  | noMessage
  /-- A record declares more bytes than there are. -/
  | truncated
  /-- A record is not one of the application's. -/
  | wrongType
  /-- The data has not the length that its definition requires. -/
  | wrongLength
  deriving Repr, DecidableEq

namespace Status

def all : List Status := [noMessage, truncated, wrongType, wrongLength]

/-- The code of a status.  Codes are negative, so that none is a length. -/
def code : Status → Int
  | noMessage => -10
  | truncated => -20
  | wrongType => -21
  | wrongLength => -30

def ofCode? (code : Int) : Option Status := all.find? (·.code = code)

/-- The text of a status that has nothing more to say. -/
def message : Status → String
  | noMessage => "no NDEF message TLV found"
  | truncated => "record truncated"
  | wrongType => "wrong record type"
  | wrongLength => "data payload has wrong length"

@[simp] theorem ofCode?_code (status : Status) : ofCode? status.code = some status := by
  cases status <;> rfl

end Status

/-- The cause of a refusal. -/
inductive Fault where
  | noMessage
  /-- The bytes end inside a record's header. -/
  | headerCut
  | recordCut (needed available : Nat)
  /-- The first record of an application message is another kind of record. -/
  | dataType
  /-- The second record of an application message is another kind of record. -/
  | metadataType
  | payloadLength (name : String) (expected actual : Nat)
  | fieldOutside (size : Nat) (offset : Binary64) (length : Nat)
  | bufferTooSmall (expected actual : Nat)
  | bitOutside (index : Binary64) (length : Nat)
  | valueTooLong (length limit : Nat)
  | typeTooLong (length limit : Nat)
  | idTooLong (length limit : Nat)
  | noRecords
  deriving DecidableEq

namespace Fault

/-- The status of a fault in tag contents; none if an argument is out of
range. -/
def status? : Fault → Option Status
  | noMessage => some .noMessage
  | headerCut | recordCut .. => some .truncated
  | dataType | metadataType => some .wrongType
  | payloadLength .. => some .wrongLength
  | _ => none

def message : Fault → String
  | noMessage => Status.noMessage.message
  | headerCut => Status.truncated.message
  | recordCut needed available =>
      s!"record truncated: needs {needed} bytes, {available} available"
  | dataType => "data record has wrong type"
  | metadataType => "metadata record has wrong type"
  | payloadLength name expected actual =>
      s!"{name} payload must be {expected} bytes, got {actual}"
  | fieldOutside size offset length =>
      s!"Field of {size} bytes does not fit at offset {offset.text} of a {length}-byte buffer"
  | bufferTooSmall expected actual =>
      s!"Buffer too small: expected {expected} bytes, got {actual}"
  | bitOutside index length =>
      s!"Bit index {index.text} out of range for a {length}-byte bitmap"
  | valueTooLong length limit => s!"TLV value too long: {length} bytes, max {limit}"
  | typeTooLong length limit => s!"Record type too long: {length} bytes, max {limit}"
  | idTooLong length limit => s!"Record id too long: {length} bytes, max {limit}"
  | noRecords => "A message needs at least one record"

end Fault

end NfcTag
