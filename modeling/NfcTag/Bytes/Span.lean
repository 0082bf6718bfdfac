/-
# NfcTag.Bytes.Span -- a run of bytes inside a buffer

A span names bytes by place and never copies them; it means something only
together with the buffer it was taken from.  `bytes` clamps a span to its
buffer, `shift` moves it when that buffer is itself a slice of a larger one,
and `bytes_shift` says that the two views agree.
-/
import NfcTag.Bytes

namespace NfcTag

set_option autoImplicit false

/-- A run of `length` bytes that starts at `offset`. -/
structure Span where
  offset : Nat
  length : Nat
  deriving Repr, DecidableEq

namespace Span

/-- The first place behind the span. -/
def stop (s : Span) : Nat := s.offset + s.length

/-- The bytes of the span, as many of them as `buf` holds. -/
def bytes (s : Span) (buf : Bytes) : Bytes := (buf.drop s.offset).take s.length

/-- The same bytes seen from `amount` bytes further in front. -/
def shift (s : Span) (amount : Nat) : Span := { s with offset := s.offset + amount }

theorem length_bytes (s : Span) (buf : Bytes) :
    (s.bytes buf).length = min s.length (buf.length - s.offset) := by
  simp [bytes]

/-- A span inside a slice, seen from the buffer that the slice was cut from. -/
theorem bytes_shift {s slice : Span} (inside : s.stop ≤ slice.length) (buf : Bytes) :
    (s.shift slice.offset).bytes buf = s.bytes (slice.bytes buf) := by
  simp only [stop] at inside
  simp only [bytes, shift, List.drop_take, List.drop_drop, List.take_take]
  rw [Nat.min_eq_left (by omega), Nat.add_comm]

end Span

end NfcTag
