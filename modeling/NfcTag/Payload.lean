/-
# NfcTag.Payload -- the data that a tag's data record carries

A payload is a schema with a name.  Nothing on the wire describes it, so
decoding insists on the exact length and names the payload when it is wrong.
-/
import NfcTag.Schema

namespace NfcTag

set_option autoImplicit false

structure Payload where
  name : String
  schema : Schema
  deriving Repr, DecidableEq

namespace Payload

def size (payload : Payload) : Nat := payload.schema.size

def encode (payload : Payload) (row : Row payload.schema) : Bytes := row.encode

/-- The row that a byte string of exactly the right length holds. -/
def decode (payload : Payload) (bytes : Bytes) : Except Fault (Row payload.schema.wire) :=
  if bytes.length = payload.size then payload.schema.decode bytes
  else .error (.payloadLength payload.name payload.size bytes.length)

end Payload

end NfcTag
