/-
# NfcTag.Text.Utf8 -- UTF-8, written strictly and read leniently

`encodeChars` writes characters in one to four bytes.  Reading never fails: a
machine takes one byte at a time and emits characters; where the bytes stop
being a prefix of any encoding, what was taken so far becomes one U+FFFD and
the offending byte is looked at afresh.  So each maximal ill-formed piece gives
one replacement character, and the machine is back between characters after
every whole one.
-/
import NfcTag.Bytes

namespace NfcTag.Utf8

set_option autoImplicit false

/-! ## Writing -/

/-- The continuation byte that holds the low six bits. -/
def continuation (bits : Nat) : UInt8 := UInt8.ofNat (0x80 + bits % 64)

def encodeChar (c : Char) : Bytes :=
  let code := c.toNat
  if code < 0x80 then [UInt8.ofNat code]
  else if code < 0x800 then [UInt8.ofNat (0xc0 + code / 64), continuation code]
  else if code < 0x10000 then
    [UInt8.ofNat (0xe0 + code / 4096), continuation (code / 64), continuation code]
  else
    [UInt8.ofNat (0xf0 + code / 262144), continuation (code / 4096), continuation (code / 64),
      continuation code]

def encodeChars (text : List Char) : Bytes := text.flatMap encodeChar

def encode (text : String) : Bytes := encodeChars text.toList

/-! ## Reading -/

/-- What stands for bytes that encode nothing. -/
def replacement : Char := '\uFFFD'

/-- The reader between two bytes: between characters, or inside one, of which
`more` bytes are missing and the next has to lie in `low … high`. -/
inductive State where
  | start
  | inside (more low high code : Nat)
  deriving Repr, DecidableEq

/-- A byte between characters.  The bounds on the second byte keep overlong
forms, surrogates and code points past U+10FFFF out. -/
def lead (b : Nat) : List Char × State :=
  if b < 0x80 then ([Char.ofNat b], .start)
  else if b < 0xc2 then ([replacement], .start)
  else if b < 0xe0 then ([], .inside 1 0x80 0xbf (b - 0xc0))
  else if b < 0xf0 then
    ([], .inside 2 (if b = 0xe0 then 0xa0 else 0x80) (if b = 0xed then 0x9f else 0xbf) (b - 0xe0))
  else if b < 0xf5 then
    ([], .inside 3 (if b = 0xf0 then 0x90 else 0x80) (if b = 0xf4 then 0x8f else 0xbf) (b - 0xf0))
  else ([replacement], .start)

/-- One byte: the characters that it completes, and the state behind it. -/
def step (b : Nat) : State → List Char × State
  | .start => lead b
  | .inside more low high code =>
      if low ≤ b ∧ b ≤ high then
        let code := code * 64 + (b - 0x80)
        if more ≤ 1 then ([Char.ofNat code], .start)
        else ([], .inside (more - 1) 0x80 0xbf code)
      else
        let (emitted, state) := lead b
        (replacement :: emitted, state)

/-- The end of the bytes: a character that is cut is replaced. -/
def finish : State → List Char
  | .start => []
  | .inside .. => [replacement]

/-- The characters of the bytes that follow in a state. -/
def run (state : State) : Bytes → List Char
  | [] => finish state
  | b :: rest =>
      let (emitted, next) := step b.toNat state
      emitted ++ run next rest

def decodeChars (bytes : Bytes) : List Char := run .start bytes

def decode (bytes : Bytes) : String := String.ofList (decodeChars bytes)

/-- A text without the byte order mark that it may start with. -/
def dropMark : List Char → List Char
  | '\uFEFF' :: text => text
  | text => text

end NfcTag.Utf8
