/-
# NfcTag.TypeUri -- the type of a record, read as a URI

The type bytes of a record are text; a byte order mark in front of it is not
part of the URI.  What follows the first question mark is a form of parameters,
such as `zip=0` on a metadata record.  One further question mark in front of the
form is dropped.
-/
import NfcTag.Record
import NfcTag.Text.Form

namespace NfcTag

set_option autoImplicit false

namespace TypeUri

/-- The URI that type bytes spell. -/
def ofBytes (type : Bytes) : String := String.ofList (Utf8.dropMark (Utf8.decodeChars type))

/-- The query of a URI: what follows the first question mark. -/
def query (uri : String) : List Char := (uri.toList.dropWhile (· ≠ '?')).drop 1

/-- A query without the question mark that it may start with itself. -/
def dropQuestion : List Char → List Char
  | '?' :: query => query
  | query => query

def parameters (uri : String) : List (String × String) :=
  Form.decode (Utf8.encodeChars (dropQuestion (query uri)))

end TypeUri

def Record.uri (record : Record) (buf : Bytes) : String :=
  TypeUri.ofBytes (record.type.bytes buf)

def Record.parameters (record : Record) (buf : Bytes) : List (String × String) :=
  TypeUri.parameters (record.uri buf)

end NfcTag
