/-
# NfcTag.AppMessage -- a data record and a metadata record

An application message starts with two records: device data, and metadata that
describes it.  Both have an absolute URI as type that starts with the
application's scheme, byte for byte.  The metadata record is only looked at
once the data record has passed.  What follows the two records is not read.
-/
import NfcTag.Message
import NfcTag.Text.Utf8

namespace NfcTag

set_option autoImplicit false

/-- The two records of an application message, and the bytes they take. -/
structure AppMessage where
  data : Record
  metadata : Record
  size : Nat
  deriving Repr, DecidableEq

namespace AppMessage

/-- The scheme that record types start with unless another one is asked for. -/
def defaultScheme : String := "https://pma.inftech.hs-mannheim.de/eput"

/-- Is the record in `buf` one of the application's? -/
def accepts (scheme : String) (buf : Bytes) (record : Record) : Bool :=
  record.tnf = .absoluteUri && (Utf8.encode scheme).isPrefixOf (record.type.bytes buf)

/-- The application's record at `offset`; any other kind of record is refused
with the fault given. -/
def recordAt (scheme : String) (buf : Bytes) (offset : Nat) (otherKind : Fault) :
    Except Fault Record.Parsed := do
  let parsed ← Record.parse buf offset
  if accepts scheme buf parsed.record then return parsed else throw otherKind

/-- The message at the front of a buffer. -/
def parse (scheme : String) (buf : Bytes) : Except Fault AppMessage := do
  let first ← recordAt scheme buf 0 .dataType
  let second ← recordAt scheme buf first.size .metadataType
  return ⟨first.record, second.record, first.size + second.size⟩

/-- The same message seen from `amount` bytes further in front. -/
def shift (message : AppMessage) (amount : Nat) : AppMessage where
  data := message.data.shift amount
  metadata := message.metadata.shift amount
  size := message.size

/-- What a message is made of: each record's type URI and payload. -/
structure Contents where
  dataType : String
  data : Bytes
  metadataType : String
  metadata : Bytes
  deriving DecidableEq

/-- A record with an absolute URI as type and without an id. -/
def uriRecord (type : String) (payload : Bytes) : Record.Contents where
  tnf := Binary64.ofInt Tnf.absoluteUri.code
  type := Utf8.encode type
  id := none
  payload := payload

def encode (contents : Contents) : Except Fault Bytes :=
  Message.encode
    [uriRecord contents.dataType contents.data,
      uriRecord contents.metadataType contents.metadata]

end AppMessage

end NfcTag
