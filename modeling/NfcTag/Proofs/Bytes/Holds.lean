/-
# NfcTag.Proofs.Bytes.Holds -- where spans lie and what they hold

A span is clamped to its buffer, so its bytes alone do not say that it lies
inside.  `Span.Holds` says both.  Holding is kept when more bytes come before or
behind the buffer (`Holds.shift`), and when a slice is seen from the buffer that
it was cut from (`Holds.of_slice`).  `Span.Within` compares two spans of one
buffer.
-/
import NfcTag.Bytes.Span

namespace NfcTag.Span

set_option autoImplicit false

/-- The span lies inside `buf`, and these are its bytes. -/
structure Holds (span : Span) (buf bytes : Bytes) : Prop where
  inside : span.stop ≤ buf.length
  bytes_eq : span.bytes buf = bytes

theorem holds_middle (front bytes behind : Bytes) :
    Holds ⟨front.length, bytes.length⟩ (front ++ (bytes ++ behind)) bytes where
  inside := by
    simp only [stop, List.length_append]
    omega
  bytes_eq := by
    simp only [Span.bytes, List.drop_left, List.take_left]

/-- A span that holds bytes of a slice holds them in the whole buffer. -/
theorem Holds.of_slice {span slice : Span} {buf bytes : Bytes}
    (sliced : slice.stop ≤ buf.length) (holds : span.Holds (slice.bytes buf) bytes) :
    (span.shift slice.offset).Holds buf bytes := by
  have inside := holds.inside
  have whole : (slice.bytes buf).length = slice.length := by
    rw [stop] at sliced
    rw [length_bytes]
    omega
  rw [whole] at inside
  constructor
  · simp only [stop, shift] at inside sliced ⊢
    omega
  · rw [bytes_shift inside, holds.bytes_eq]

theorem Holds.shift {span : Span} {buf bytes : Bytes} (holds : span.Holds buf bytes)
    (front behind : Bytes) :
    (span.shift front.length).Holds (front ++ (buf ++ behind)) bytes := by
  have slice := holds_middle front buf behind
  exact of_slice slice.inside (by rwa [slice.bytes_eq])

/-! Byte by byte. -/

theorem getElem?_bytes {span : Span} {i : Nat} (inside : i < span.length) (buf : Bytes) :
    (span.bytes buf)[i]? = buf[span.offset + i]? := by
  rw [Span.bytes, List.getElem?_take_of_lt inside, List.getElem?_drop]

theorem Holds.getElem?_eq {span : Span} {buf bytes : Bytes} (holds : span.Holds buf bytes) {i : Nat}
    (inside : i < span.length) : buf[span.offset + i]? = bytes[i]? := by
  rw [← holds.bytes_eq, getElem?_bytes inside]

theorem holds_of_getElem? {span : Span} {buf bytes : Bytes} (inside : span.stop ≤ buf.length)
    (width : bytes.length = span.length)
    (same : ∀ i < span.length, buf[span.offset + i]? = bytes[i]?) : span.Holds buf bytes := by
  refine ⟨inside, List.ext_getElem? fun i => ?_⟩
  by_cases among : i < span.length
  · rw [getElem?_bytes among, same i among]
  · rw [stop] at inside
    rw [List.getElem?_eq_none (by rw [length_bytes]; omega), List.getElem?_eq_none (by omega)]

/-- The span lies inside another one. -/
structure Within (span outer : Span) : Prop where
  offset_le : outer.offset ≤ span.offset
  stop_le : span.stop ≤ outer.stop

theorem Within.trans {span middle outer : Span} (inner : span.Within middle)
    (outside : middle.Within outer) : span.Within outer :=
  ⟨Nat.le_trans outside.offset_le inner.offset_le, Nat.le_trans inner.stop_le outside.stop_le⟩

theorem Within.shift {span outer : Span} (within : span.Within outer) (amount : Nat) :
    (span.shift amount).Within (outer.shift amount) := by
  obtain ⟨first, last⟩ := within
  constructor <;> simp only [stop, Span.shift] at first last ⊢ <;> omega

theorem Holds.within {span : Span} {buf bytes : Bytes} (holds : span.Holds buf bytes) :
    span.Within ⟨0, buf.length⟩ :=
  ⟨Nat.zero_le _, by simpa only [stop, Nat.zero_add] using holds.inside⟩

/-- A span that lies inside a slice names the same bytes in the whole buffer. -/
theorem Within.bytes_shift {span slice : Span} {buf : Bytes}
    (within : span.Within ⟨0, (slice.bytes buf).length⟩) :
    (span.shift slice.offset).bytes buf = span.bytes (slice.bytes buf) := by
  have inside := within.stop_le
  have clamped := slice.length_bytes buf
  apply Span.bytes_shift
  simp only [stop, Nat.zero_add] at inside ⊢
  omega

end NfcTag.Span
