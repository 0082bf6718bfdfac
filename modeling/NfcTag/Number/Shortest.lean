/-
# NfcTag.Number.Shortest -- the shortest decimal that reads back

The values that round to a given floating-point pattern form an interval: it
ends halfway to the neighbours, and the ends belong to it when the pattern is
even, since ties go there.  `shortest` takes decimal grids from one significant
digit up to seventeen and answers the first grid point inside that interval; of
two on one grid the nearer, of two equally near the even one.  Seventeen digits
always suffice for a 64-bit pattern.

All comparisons are exact: everything is counted in units of `2 ^ -1074` times
`10 ^ -341`, the step of the finest grid that can be asked for.
-/
import NfcTag.Number.Interchange

namespace NfcTag

set_option autoImplicit false

/-- The decimal number `coefficient * 10 ^ exponent`. -/
structure Decimal where
  coefficient : Nat
  exponent : Int
  deriving Repr, DecidableEq

namespace Decimal

/-- The place of the leading decimal digit of a positive value, counted from one
at `10 ^ -324`; no value lies below that place. -/
def magnitude (units : Nat) : Nat :=
  (Nat.toDigits 10 (units * Nat.pow 10 324 / Datum.one)).length

/-- The steps of the finest grid that make up one. -/
def finest : Nat := Nat.pow 10 341

/-- The step of the grid on which a value has `count` significant digits, scaled
as in this module. -/
def gridStep (units count : Nat) : Nat :=
  Datum.one * Nat.pow 10 (magnitude units + 17 - count)

/-- The ends of the interval of values that round to a positive pattern, in half
units. -/
def reach (F : Interchange) (pattern : Nat) : Nat × Nat :=
  (F.units (pattern - 1) + F.units pattern, F.units pattern + F.units (pattern + 1))

/-- Does a value, scaled as in this module, round to the pattern? -/
def rounds (F : Interchange) (pattern scaled : Nat) : Bool :=
  let low := (reach F pattern).1 * finest
  let high := (reach F pattern).2 * finest
  let twice := 2 * scaled
  (low < twice && twice < high) || (pattern % 2 = 0 && (twice = low || twice = high))

/-- The point with `count` digits that reads back as the pattern, if the grid
has one. -/
def onGrid? (F : Interchange) (pattern count : Nat) : Option Nat :=
  let value := F.units pattern * finest
  let step := gridStep (F.units pattern) count
  let below := value / step
  let under := 2 * (value % step)
  let nearer := if under < step ∨ (under = step ∧ below % 2 = 0) then below else below + 1
  let farther := if nearer = below then below + 1 else below
  if rounds F pattern (nearer * step) then some nearer
  else if rounds F pattern (farther * step) then some farther
  else none

/-- The shortest decimal that reads back as a positive finite pattern. -/
def shortest (F : Interchange) (pattern : Nat) : Decimal :=
  let point (count : Nat) : Option Decimal :=
    (onGrid? F pattern count).map fun coefficient =>
      ⟨coefficient, magnitude (F.units pattern) - 324 - count⟩
  ((List.range 17).findSome? fun i => point (i + 1)).getD ⟨0, 0⟩

end Decimal

end NfcTag
