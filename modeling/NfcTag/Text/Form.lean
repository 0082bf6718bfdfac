/-
# NfcTag.Text.Form -- key and value lists in the query of a URI

The `application/x-www-form-urlencoded` form: pairs joined by `&`, key and
value by `=`, a space written as `+` and other special bytes as `%` and two hex
digits.  Reading is lenient: empty pieces are skipped, a piece without `=` is a
key with an empty value, and a `%` that starts no escape stands for itself.
Both directions work on the UTF-8 bytes of the text.
-/
import NfcTag.Text.Utf8

namespace NfcTag.Form

set_option autoImplicit false

/-! ## Characters of the form -/

/-- Between pairs. -/
def pairSeparator : UInt8 := 0x26

/-- Between a key and its value. -/
def valueSeparator : UInt8 := 0x3d

/-- Written for a space. -/
def plus : UInt8 := 0x2b

/-- The space itself. -/
def space : UInt8 := 0x20

/-- The start of an escape. -/
def percent : UInt8 := 0x25

/-- The value of a hex digit, of either case. -/
def hexValue? (b : UInt8) : Option Nat :=
  let n := b.toNat
  if 0x30 ≤ n ∧ n ≤ 0x39 then some (n - 0x30)
  else if 0x41 ≤ n ∧ n ≤ 0x46 then some (n - 0x41 + 10)
  else if 0x61 ≤ n ∧ n ≤ 0x66 then some (n - 0x61 + 10)
  else none

/-- The upper-case hex digit of a value below 16. -/
def hexDigit (n : Nat) : UInt8 := UInt8.ofNat (if n < 10 then 0x30 + n else 0x41 + (n - 10))

/-- Letters, digits and the four marks that are written as they are. -/
def isPlain (b : UInt8) : Bool :=
  let n := b.toNat
  (0x30 ≤ n && n ≤ 0x39) || (0x41 ≤ n && n ≤ 0x5a) || (0x61 ≤ n && n ≤ 0x7a) ||
    n = 0x2a || n = 0x2d || n = 0x2e || n = 0x5f

/-! ## Reading -/

/-- The pieces between separators; one more than there are separators. -/
def pieces (separator : UInt8) : Bytes → List Bytes
  | [] => [[]]
  | b :: rest =>
      if b = separator then [] :: pieces separator rest
      else
        match pieces separator rest with
        | [] => [[b]]
        | piece :: others => (b :: piece) :: others

/-- The byte that three bytes escape, if they are an escape. -/
def escaped? (b high low : UInt8) : Option UInt8 :=
  if b = percent then do
    let x ← hexValue? high
    let y ← hexValue? low
    some (UInt8.ofNat (16 * x + y))
  else none

/-- Resolve escapes; everything else stays. -/
def unescape : Bytes → Bytes
  | b :: high :: low :: behind =>
      match escaped? b high low with
      | some byte => byte :: unescape behind
      | none => b :: unescape (high :: low :: behind)
  | b :: rest => b :: unescape rest
  | [] => []

def decodePart (part : Bytes) : String :=
  Utf8.decode (unescape (part.map fun b => if b = plus then space else b))

def decodePiece (piece : Bytes) : String × String :=
  let key := piece.takeWhile (· != valueSeparator)
  (decodePart key, decodePart (piece.drop (key.length + 1)))

def decode (form : Bytes) : List (String × String) :=
  ((pieces pairSeparator form).filter (! ·.isEmpty)).map decodePiece

/-! ## Writing -/

def encodeByte (b : UInt8) : Bytes :=
  if b = space then [plus]
  else if isPlain b then [b]
  else [percent, hexDigit (b.toNat / 16), hexDigit (b.toNat % 16)]

def encodePart (text : String) : Bytes := (Utf8.encode text).flatMap encodeByte

def encodePair (pair : String × String) : Bytes :=
  encodePart pair.1 ++ valueSeparator :: encodePart pair.2

def encode (pairs : List (String × String)) : Bytes :=
  List.intercalate [pairSeparator] (pairs.map encodePair)

end NfcTag.Form
