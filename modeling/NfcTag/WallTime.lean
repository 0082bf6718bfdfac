/-
# NfcTag.WallTime -- the times that a tag stores

Times of day are three plain numbers and are not checked: 24:60:60 is a value
like any other and serves as a sentinel.  Points in time are signed counters
whose unit the device and its reader agree on.
-/
import NfcTag.Number.Binary64

namespace NfcTag

set_option autoImplicit false

@[ext] structure TimeOfDay where
  hours : Binary64
  minutes : Binary64
  seconds : Binary64
  deriving DecidableEq

/-- A range with both its ends. -/
@[ext] structure Range (α : Type) where
  first : α
  last : α
  deriving DecidableEq

/-- A point in time with the offset of its zone. -/
@[ext] structure ZonedTime where
  time : Int
  offset : Binary64
  deriving DecidableEq

end NfcTag
