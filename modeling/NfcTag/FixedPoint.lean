/-
# NfcTag.FixedPoint -- decimals with a fixed number of places

A decimal is an unscaled magnitude and a scale that counts the digits behind
the point.  `render` writes the exact value: with a positive scale exactly so
many digits follow the point, and with a negative one zeros take their place
before it.
-/
import NfcTag.Number.Binary64

namespace NfcTag

set_option autoImplicit false

/-- The value `unscaled * 10 ^ -scale`. -/
@[ext] structure FixedPoint (α : Type) where
  unscaled : α
  scale : Int
  deriving DecidableEq

namespace FixedPoint

/-- Zeros in front, up to `width` digits in all. -/
def pad (width : Nat) (digits : List Char) : List Char :=
  List.replicate (width - digits.length) '0' ++ digits

def renderMagnitude (magnitude : Nat) (scale : Int) : List Char :=
  let digits := Nat.toDigits 10 magnitude
  if scale ≤ 0 then
    if magnitude = 0 then ['0'] else digits ++ List.replicate (-scale).toNat '0'
  else
    let places := scale.toNat
    let padded := pad (places + 1) digits
    let whole := padded.length - places
    padded.take whole ++ '.' :: padded.drop whole

def render (value : FixedPoint Int) : String :=
  let digits := renderMagnitude value.unscaled.natAbs value.scale
  String.ofList (if value.unscaled < 0 then '-' :: digits else digits)

/-- The exact value of a decimal whose magnitude is a number.  A magnitude that
is not whole has no text. -/
def render? (value : FixedPoint Binary64) : Option String :=
  value.unscaled.toInt?.map fun unscaled => render ⟨unscaled, value.scale⟩

end FixedPoint

end NfcTag
