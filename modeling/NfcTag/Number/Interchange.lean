/-
# NfcTag.Number.Interchange -- binary floating point, counted in one exact unit

An IEEE 754 interchange format packs a sign, an exponent field and a fraction
into one bit pattern.  Every finite value of the two formats that tags carry,
singles and doubles, is a whole multiple of `2 ^ -1074`, so a value is a sign
and a natural number of those units, and no statement here needs a fraction.

* `decode` reads a pattern as a `Datum`; all NaN patterns read alike.
* `nearest` rounds a count of units to the format, ties to the even fraction;
  beyond the largest finite value it gives infinity.
* `encode` writes a datum back, with one pattern for NaN; that a platform stores no
  other is the choice `NanChoice.canonical`.
-/

namespace NfcTag

set_option autoImplicit false

/-- What a floating-point pattern stands for.  A finite value is `units` times
`2 ^ -1074`, negated when `negative`; zero keeps its sign. -/
inductive Datum where
  | nan
  | infinite (negative : Bool)
  | finite (negative : Bool) (units : Nat)
  deriving Repr, DecidableEq

/-- The number one, in units of `2 ^ -1074`. -/
def Datum.one : Nat := 1 <<< 1074

/-- The quotient `n / d` rounded to the nearest natural, a half to the even
one. -/
def roundHalfEven (n d : Nat) : Nat :=
  let q := n / d
  let twice := 2 * (n % d)
  if twice < d ∨ (twice = d ∧ q % 2 = 0) then q else q + 1

/-- A binary interchange format. -/
structure Interchange where
  fractionBits : Nat
  exponentBits : Nat
  /-- The smallest positive value is `2 ^ quantum` units. -/
  quantum : Nat
  deriving Repr, DecidableEq

namespace Interchange

/-- The 32-bit format; its smallest positive value is `2 ^ -149`. -/
def single : Interchange := ⟨23, 8, 925⟩

/-- The 64-bit format; its smallest positive value is the unit itself. -/
def double : Interchange := ⟨52, 11, 0⟩

def infinity (F : Interchange) : Nat := (1 <<< F.exponentBits - 1) <<< F.fractionBits

def signBit (F : Interchange) : Nat := 1 <<< (F.exponentBits + F.fractionBits)

/-- The NaN that stands for all of them: quiet, positive, no payload. -/
def canonicalNan (F : Interchange) : Nat := F.infinity + 1 <<< (F.fractionBits - 1)

/-- Does the pattern hold a NaN, of either sign and with any payload? -/
def IsNan (F : Interchange) (pattern : Nat) : Prop := F.infinity < pattern % F.signBit

instance (F : Interchange) (pattern : Nat) : Decidable (F.IsNan pattern) :=
  inferInstanceAs (Decidable (_ < _))

/-- The units of a pattern without its sign.  Exponent field zero holds the
subnormal values, which have no implicit leading one. -/
def units (F : Interchange) (magnitude : Nat) : Nat :=
  let leadingOne := 1 <<< F.fractionBits
  let exponent := magnitude / leadingOne
  let fraction := magnitude % leadingOne
  if exponent = 0 then fraction <<< F.quantum
  else (leadingOne + fraction) <<< (F.quantum + exponent - 1)

def decode (F : Interchange) (pattern : Nat) : Datum :=
  let magnitude := pattern % F.signBit
  let negative := pattern / F.signBit % 2 = 1
  if F.IsNan pattern then .nan
  else if magnitude = F.infinity then .infinite negative
  else .finite negative (F.units magnitude)

/-- The spacing of the format at `units`, as a binary logarithm: enough bits
are cut to leave the significand's width, never fewer than the quantum. -/
def spacing (F : Interchange) (units : Nat) : Nat :=
  max F.quantum (units.log2 - F.fractionBits)

/-- The pattern nearest to a count of units, without a sign.  A significand
that rounds up to the next power of two carries into the exponent field, and
past the largest finite value into infinity. -/
def nearest (F : Interchange) (units : Nat) : Nat :=
  let s := F.spacing units
  min F.infinity ((s - F.quantum) <<< F.fractionBits + roundHalfEven units (1 <<< s))

def encode (F : Interchange) : Datum → Nat
  | .nan => F.canonicalNan
  | .infinite negative => (if negative then F.signBit else 0) + F.infinity
  | .finite negative units => (if negative then F.signBit else 0) + F.nearest units

end Interchange

end NfcTag
