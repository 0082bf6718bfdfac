/-
# NfcTag.Number.Text -- how a number is written in a message

A number is written with the fewest digits that read back as it.  Values from
`10 ^ -6` up to `10 ^ 21` are positional; smaller and larger ones have one
digit before the point and a signed exponent.  Both zeros are `0`, and NaN and
the infinities are words.
-/
import NfcTag.Number.Binary64
import NfcTag.Number.Shortest

namespace NfcTag

set_option autoImplicit false

/-- Where positional writing ends.  With the point counted from the front of
the digits, it is used for `lowest ≤ point ≤ highest`. -/
structure PositionalRange where
  lowest : Int
  highest : Int
  deriving Repr, DecidableEq

namespace Decimal

/-- Five zeros at most follow the point, and at most 21 digits stand before
it. -/
def positional : PositionalRange := ⟨-5, 21⟩

def text (d : Decimal) : String :=
  let written := Nat.toDigits 10 d.coefficient
  let point : Int := written.length + d.exponent
  let digits := (written.reverse.dropWhile (· = '0')).reverse
  let zeros (count : Int) := List.replicate count.toNat '0'
  String.ofList <|
    if positional.lowest ≤ point ∧ point ≤ 0 then
      '0' :: '.' :: zeros (-point) ++ digits
    else if 0 < point ∧ point ≤ positional.highest then
      if digits.length ≤ point then digits ++ zeros (point - digits.length)
      else digits.take point.toNat ++ '.' :: digits.drop point.toNat
    else
      let exponent := point - 1
      let tail := digits.drop 1
      digits.take 1 ++ (if tail.isEmpty then [] else '.' :: tail) ++
        'e' :: (if exponent < 0 then '-' else '+') :: Nat.toDigits 10 exponent.natAbs

end Decimal

namespace Binary64

def text (v : Binary64) : String :=
  match v.datum with
  | .nan => "NaN"
  | .infinite negative => if negative then "-Infinity" else "Infinity"
  | .finite negative units =>
      if units = 0 then "0"
      else
        let magnitude := v.bits.toNat % Interchange.double.signBit
        (if negative then "-" else "") ++ (Decimal.shortest .double magnitude).text

end Binary64

end NfcTag
