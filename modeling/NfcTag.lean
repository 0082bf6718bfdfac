/-
# NfcTag -- what an NFC tag stores, and reading it

Byte layouts of fields, schemas and payloads, bitmaps, type-length-value blocks
of tag memory, records and messages, and a reader that puts them together.
Under `Proofs` stands what they guarantee.
-/
import NfcTag.Field.Store
import NfcTag.Proofs.AppMessage.Acceptance
import NfcTag.Proofs.AppMessage.Reencode
import NfcTag.Proofs.AppMessage.Scheme
import NfcTag.Proofs.AppMessage.Stability
import NfcTag.Proofs.Bitmap.Runs
import NfcTag.Proofs.Field.Integers
import NfcTag.Proofs.Field.NormalForms
import NfcTag.Proofs.Field.Patterns
import NfcTag.Proofs.Field.Singles
import NfcTag.Proofs.FixedPoint.Exact
import NfcTag.Proofs.Message.Unambiguous
import NfcTag.Proofs.Message.Walk
import NfcTag.Proofs.Payload.Reencode
import NfcTag.Proofs.Reader.Confinement
import NfcTag.Proofs.Reader.Ending
import NfcTag.Proofs.Reader.Paths
import NfcTag.Proofs.Reader.Rewrite
import NfcTag.Proofs.Reader.RoundTrip
import NfcTag.Proofs.Record.Lengths
import NfcTag.Proofs.Record.Places
import NfcTag.Proofs.Record.Reencode
import NfcTag.Proofs.Schema.Order
import NfcTag.Proofs.Schema.RoundTrip
import NfcTag.Proofs.Schema.Stores
import NfcTag.Proofs.Tlv.Cut
import NfcTag.Proofs.Tlv.Disjoint
import NfcTag.Proofs.Tlv.Filled
import NfcTag.Proofs.Tlv.Reencode
import NfcTag.Proofs.TypeUri.Parameters
import NfcTag.Record.Segments
import NfcTag.Text.Utf8.RoundTrip
