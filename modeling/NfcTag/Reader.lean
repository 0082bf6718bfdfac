/-
# NfcTag.Reader -- application data out of tag memory

A reader has a scheme to insist on and may keep a log.  It locates the message
block of a tag memory, reads the application message inside that block alone,
and decodes the data record's payload.  Spans are answered in coordinates of the
whole memory.  A message that comes without tag memory around it is read by
`bareData`.
-/
import NfcTag.AppMessage
import NfcTag.Fault.Report
import NfcTag.Payload
import NfcTag.Reader.Trace
import NfcTag.Tlv.Scan

namespace NfcTag

set_option autoImplicit false

structure Reader where
  /-- What the record types have to start with. -/
  scheme : String
  /-- Are lines logged? -/
  debug : Bool
  deriving Repr, DecidableEq

/-- What a reader reports in its log. -/
inductive Event where
  | noBlock (memoryLength : Nat)
  | unusableBlock (location : Tlv.Location)
  | located (span : Span)
  | parsed (message : AppMessage)
  | rejected (fault : Fault)
  | decoded (payload : String)
  deriving DecidableEq

def Event.text : Event → String
  | noBlock memoryLength => s!"No NDEF TLV in {memoryLength} bytes"
  | unusableBlock location =>
      s!"Unusable NDEF TLV at {location.offset} (length {location.length})"
  | located span => s!"NDEF message at {span.offset}, {span.length} bytes"
  | parsed message =>
      s!"Parsed data record ({message.data.payload.length} bytes)" ++
        s!" and metadata record ({message.metadata.payload.length} bytes)"
  | rejected fault => s!"Message rejected: {fault.report.line}"
  | decoded payload => s!"Decoded {payload} payload"

def Event.line (event : Event) : String := "[TagReader] " ++ event.text

namespace Reader

/-- A reader with the settings given; by default it insists on the
application's scheme and logs nothing. -/
def ofSettings (scheme? : Option String) (debug? : Option Bool) : Reader :=
  ⟨scheme?.getD AppMessage.defaultScheme, debug?.getD false⟩

def log (reader : Reader) (event : Event) : Traced Unit :=
  Traced.log (if reader.debug then [event.line] else [])

/-- The place of the message in a tag memory: the value of the first message
block, unless it is empty or cut. -/
def find (reader : Reader) (memory : Bytes) : Traced Span := do
  match Tlv.findByte? memory Tlv.ndefMessage with
  | none =>
      reader.log (.noBlock memory.length)
      Traced.fail .noMessage
  | some location =>
      if location.length = 0 ∨ memory.length < location.span.stop then
        reader.log (.unusableBlock location)
        Traced.fail .noMessage
      else
        reader.log (.located location.span)
        return location.span

/-- The application message at the front of a byte string. -/
def parse (reader : Reader) (ndef : Bytes) : Traced AppMessage :=
  match AppMessage.parse reader.scheme ndef with
  | .ok message => do
      reader.log (.parsed message)
      return message
  | .error fault => do
      reader.log (.rejected fault)
      Traced.fail fault

def message (reader : Reader) (memory : Bytes) : Traced AppMessage := do
  let span ← reader.find memory
  let message ← reader.parse (span.bytes memory)
  return message.shift span.offset

/-- The row that payload bytes hold. -/
def decode (reader : Reader) (payload : Payload) (bytes : Bytes) :
    Traced (Row payload.schema.wire) := do
  let row ← Traced.lift (payload.decode bytes)
  reader.log (.decoded payload.name)
  return row

def data (reader : Reader) (payload : Payload) (memory : Bytes) :
    Traced (Row payload.schema.wire) := do
  let message ← reader.message memory
  reader.decode payload (message.data.payload.bytes memory)

/-- The data in a message without tag memory around it. -/
def bareData (reader : Reader) (payload : Payload) (ndef : Bytes) :
    Traced (Row payload.schema.wire) := do
  let message ← reader.parse ndef
  reader.decode payload (message.data.payload.bytes ndef)

end Reader

end NfcTag
