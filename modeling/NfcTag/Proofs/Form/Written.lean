/-
# NfcTag.Proofs.Form.Written -- forms that were written, and forms that are joined

A written key or value has no separators in it, so a reader cuts a form where the
writer joined it, and two forms joined by a separator are read one after the other
(`decode_append`).  Inside a part the reader turns each `+` into a space before it
resolves escapes; a `+` of the text itself was written as an escape and is not touched
(`unescape_encodeByte`).

Main statement: `decode_encode`.  Any list of pairs is read back from its form.
-/
import NfcTag.Text.Form
import NfcTag.Text.Utf8.RoundTrip

namespace NfcTag.Form

set_option autoImplicit false

/-! ## Bytes of parts -/

/-- What keys and values are written with. -/
def InPart (b : UInt8) : Prop := isPlain b = true ∨ b = plus ∨ b = percent

theorem high_lt (b : UInt8) : b.toNat / 16 < 16 := Nat.div_lt_of_lt_mul b.toNat_lt

theorem low_lt (b : UInt8) : b.toNat % 16 < 16 := Nat.mod_lt _ (by decide)

theorem isPlain_hexDigit : ∀ n < 16, isPlain (hexDigit n) = true := by decide

theorem hexValue?_hexDigit : ∀ n < 16, hexValue? (hexDigit n) = some n := by decide

/-- A byte that is none of those itself is not among them. -/
theorem InPart.ne {b other : UInt8} (part : InPart b)
    (special : isPlain other = false ∧ other ≠ plus ∧ other ≠ percent) : b ≠ other := by
  rintro rfl
  rcases part with letter | rfl | rfl
  · rw [special.1] at letter
    cases letter
  · exact special.2.1 rfl
  · exact special.2.2 rfl

theorem InPart.lt {b : UInt8} (part : InPart b) : b.toNat < 0x80 := by
  rcases part with letter | rfl | rfl
  · simp only [isPlain, Bool.or_eq_true, Bool.and_eq_true, decide_eq_true_eq] at letter
    omega
  · decide
  · decide

theorem inPart_of_mem_encodeByte {b c : UInt8} (member : c ∈ encodeByte b) : InPart c := by
  rw [encodeByte] at member
  split at member
  · exact .inr (.inl (List.mem_singleton.mp member))
  split at member
  · rename_i letter
    rw [List.mem_singleton.mp member]
    exact .inl letter
  · simp only [List.mem_cons, List.not_mem_nil, or_false] at member
    rcases member with rfl | rfl | rfl
    · exact .inr (.inr rfl)
    · exact .inl (isPlain_hexDigit _ (high_lt b))
    · exact .inl (isPlain_hexDigit _ (low_lt b))

theorem inPart_of_mem_encodePart {text : String} {c : UInt8} (member : c ∈ encodePart text) :
    InPart c := by
  obtain ⟨b, -, inside⟩ := List.mem_flatMap.mp member
  exact inPart_of_mem_encodeByte inside

/-! ## Parts -/

/-- What a byte is taken for before escapes are resolved. -/
def unplus (b : UInt8) : UInt8 := if b = plus then space else b

theorem decodePart_eq (part : Bytes) : decodePart part = Utf8.decode (unescape (part.map unplus)) :=
  rfl

theorem unescape_cons {b : UInt8} (ordinary : b ≠ percent) (rest : Bytes) :
    unescape (b :: rest) = b :: unescape rest := by
  rcases rest with _ | ⟨high, _ | ⟨low, rest⟩⟩
  · rfl
  · rfl
  · rw [unescape, escaped?, if_neg ordinary]

theorem unescape_escape (b : UInt8) (rest : Bytes) :
    unescape (percent :: hexDigit (b.toNat / 16) :: hexDigit (b.toNat % 16) :: rest) =
      b :: unescape rest := by
  have whole : 16 * (b.toNat / 16) + b.toNat % 16 = b.toNat := Nat.div_add_mod _ _
  rw [unescape, escaped?, if_pos rfl, hexValue?_hexDigit _ (high_lt b),
    hexValue?_hexDigit _ (low_lt b)]
  simp only [Option.bind_eq_bind, Option.bind_some, whole, UInt8.ofNat_toNat]

/-- A byte that was written is read as itself, whatever follows it. -/
theorem unescape_encodeByte (b : UInt8) (rest : Bytes) :
    unescape ((encodeByte b).map unplus ++ rest) = b :: unescape rest := by
  rw [encodeByte]
  split
  · rename_i blank
    rw [blank]
    exact unescape_cons (by decide) rest
  have kept {c : UInt8} (letter : isPlain c = true) : unplus c = c := by
    apply if_neg
    rintro rfl
    exact absurd letter (by decide)
  split
  · rename_i letter
    have ordinary : b ≠ percent := by
      rintro rfl
      exact absurd letter (by decide)
    rw [List.map_singleton, kept letter]
    exact unescape_cons ordinary rest
  · have high := isPlain_hexDigit _ (high_lt b)
    have low := isPlain_hexDigit _ (low_lt b)
    rw [List.map_cons, List.map_cons, List.map_singleton, kept high, kept low]
    exact unescape_escape b rest

theorem unescape_encodeBytes (bytes rest : Bytes) :
    unescape ((bytes.flatMap encodeByte).map unplus ++ rest) = bytes ++ unescape rest := by
  induction bytes with
  | nil => rfl
  | cons b bytes ih =>
      rw [List.flatMap_cons, List.map_append, List.append_assoc, unescape_encodeByte, ih,
        List.cons_append]

theorem decodePart_encodePart (text : String) : decodePart (encodePart text) = text := by
  have bytes := unescape_encodeBytes (Utf8.encode text) []
  rw [List.append_nil, unescape, List.append_nil] at bytes
  rw [decodePart_eq, encodePart, bytes, Utf8.decode_encode]

/-! ## Pairs -/

theorem decodePiece_encodePair (pair : String × String) : decodePiece (encodePair pair) = pair := by
  have inside : ∀ b ∈ encodePart pair.1, (b != valueSeparator) = true := by
    intro b member
    exact bne_iff_ne.mpr ((inPart_of_mem_encodePart member).ne (by decide))
  have key : (encodePair pair).takeWhile (· != valueSeparator) = encodePart pair.1 := by
    rw [encodePair, List.takeWhile_append_of_pos inside, List.takeWhile_cons_of_neg (by decide),
      List.append_nil]
  have value : (encodePair pair).drop ((encodePart pair.1).length + 1) = encodePart pair.2 := by
    rw [encodePair, ← List.drop_drop, List.drop_left]
    rfl
  rw [decodePiece, key, value, decodePart_encodePart, decodePart_encodePart]

theorem encodePair_ne_nil (pair : String × String) : encodePair pair ≠ [] :=
  List.append_ne_nil_of_right_ne_nil _ (List.cons_ne_nil _ _)

theorem of_mem_encodePair {pair : String × String} {b : UInt8} (member : b ∈ encodePair pair) :
    InPart b ∨ b = valueSeparator := by
  rcases List.mem_append.mp member with key | value
  · exact .inl (inPart_of_mem_encodePart key)
  · rcases List.mem_cons.mp value with same | value
    · exact .inr same
    · exact .inl (inPart_of_mem_encodePart value)

theorem not_mem_encodePair (pair : String × String) : pairSeparator ∉ encodePair pair := by
  intro member
  rcases of_mem_encodePair member with part | same
  · exact part.ne (by decide) rfl
  · exact absurd same (by decide)

/-! ## Forms -/

theorem pieces_ne_nil (separator : UInt8) (form : Bytes) : pieces separator form ≠ [] := by
  cases form with
  | nil => exact List.cons_ne_nil _ _
  | cons b rest =>
      rw [pieces]
      split
      · exact List.cons_ne_nil _ _
      · split <;> exact List.cons_ne_nil _ _

/-- A byte that is no separator belongs to the piece behind it. -/
theorem pieces_cons {separator b : UInt8} (inside : b ≠ separator) {rest piece : Bytes}
    {others : List Bytes} (cut : pieces separator rest = piece :: others) :
    pieces separator (b :: rest) = (b :: piece) :: others := by
  rw [pieces, if_neg inside, cut]

theorem pieces_append (separator : UInt8) (front behind : Bytes) :
    pieces separator (front ++ separator :: behind) =
      pieces separator front ++ pieces separator behind := by
  induction front with
  | nil => simp only [List.nil_append, pieces, if_true, List.cons_append]
  | cons b front ih =>
      by_cases same : b = separator
      · rw [List.cons_append, pieces, pieces, if_pos same, if_pos same, ih, List.cons_append]
      · obtain ⟨piece, others, cut⟩ := List.exists_cons_of_ne_nil (pieces_ne_nil separator front)
        rw [cut, List.cons_append] at ih
        rw [List.cons_append, pieces_cons same ih, pieces_cons same cut, List.cons_append]

theorem pieces_of_not_mem {separator : UInt8} {piece : Bytes} (whole : separator ∉ piece) :
    pieces separator piece = [piece] := by
  induction piece with
  | nil => rfl
  | cons b piece ih =>
      rw [List.mem_cons, not_or] at whole
      exact pieces_cons (Ne.symm whole.1) (ih whole.2)

/-- Two forms joined by a separator are read one after the other. -/
theorem decode_append (front behind : Bytes) :
    decode (front ++ pairSeparator :: behind) = decode front ++ decode behind := by
  rw [decode, decode, decode, pieces_append, List.filter_append, List.map_append]

theorem decode_nil : decode [] = [] := rfl

theorem decode_encodePair (pair : String × String) : decode (encodePair pair) = [pair] := by
  have filled := encodePair_ne_nil pair
  rw [decode, pieces_of_not_mem (not_mem_encodePair pair),
    List.filter_cons_of_pos (by simpa using filled), List.filter_nil, List.map_singleton,
    decodePiece_encodePair]

theorem encode_cons_cons (pair next : String × String) (rest : List (String × String)) :
    encode (pair :: next :: rest) =
      encodePair pair ++ pairSeparator :: encode (next :: rest) := by
  rw [encode, List.map_cons, List.map_cons, List.intercalate_cons_cons, List.append_assoc,
    List.singleton_append, encode, List.map_cons]

theorem encode_singleton (pair : String × String) : encode [pair] = encodePair pair := by
  simp only [encode, List.map_singleton, List.intercalate_singleton]

/-- A form is read back as the pairs that it was written from. -/
theorem decode_encode (pairs : List (String × String)) : decode (encode pairs) = pairs := by
  induction pairs with
  | nil => exact decode_nil
  | cons pair rest ih =>
      cases rest with
      | nil => rw [encode_singleton, decode_encodePair]
      | cons next rest =>
          rw [encode_cons_cons, decode_append, decode_encodePair, ih, List.singleton_append]

/-! ## Forms as text -/

/-- The form as it stands in a URI, a character for each byte. -/
def text (pairs : List (String × String)) : String :=
  String.ofList ((encode pairs).map fun b => Char.ofNat b.toNat)

theorem of_mem_encode {pairs : List (String × String)} {b : UInt8} (member : b ∈ encode pairs) :
    InPart b ∨ b = valueSeparator ∨ b = pairSeparator := by
  induction pairs with
  | nil => cases member
  | cons pair rest ih =>
      cases rest with
      | nil =>
          rw [encode_singleton] at member
          exact (of_mem_encodePair member).imp_right .inl
      | cons next rest =>
          rw [encode_cons_cons] at member
          rcases List.mem_append.mp member with first | later
          · exact (of_mem_encodePair first).imp_right .inl
          · rcases List.mem_cons.mp later with same | later
            · exact .inr (.inr same)
            · exact ih later

theorem lt_of_mem_encode {pairs : List (String × String)} {b : UInt8}
    (member : b ∈ encode pairs) : b.toNat < 0x80 := by
  rcases of_mem_encode member with part | rfl | rfl
  · exact part.lt
  · decide
  · decide

theorem toNat_ofNat_ascii : ∀ n < 0x80, (Char.ofNat n).toNat = n := by decide

theorem encodeChars_ascii {bytes : Bytes} (ascii : ∀ b ∈ bytes, b.toNat < 0x80) :
    Utf8.encodeChars (bytes.map fun b => Char.ofNat b.toNat) = bytes := by
  induction bytes with
  | nil => rfl
  | cons b bytes ih =>
      have small := ascii b List.mem_cons_self
      have front : Utf8.encodeChar (Char.ofNat b.toNat) = [b] := by
        rw [Utf8.encodeChar, toNat_ofNat_ascii _ small]
        simp only [if_pos small, UInt8.ofNat_toNat]
      rw [List.map_cons, Utf8.encodeChars, List.flatMap_cons, front, List.singleton_append]
      exact congrArg (b :: ·) (ih fun c member => ascii c (List.mem_cons_of_mem b member))

theorem encodeChars_text (pairs : List (String × String)) :
    Utf8.encodeChars (text pairs).toList = encode pairs := by
  rw [text, String.toList_ofList, encodeChars_ascii fun b => lt_of_mem_encode]

theorem question_not_mem_text (pairs : List (String × String)) : '?' ∉ (text pairs).toList := by
  rw [text, String.toList_ofList]
  intro member
  obtain ⟨b, inside, same⟩ := List.mem_map.mp member
  have code := toNat_ofNat_ascii _ (lt_of_mem_encode inside)
  rw [same] at code
  obtain rfl : b = 0x3f := UInt8.toNat_inj.mp code.symm
  rcases of_mem_encode inside with part | same | same
  · exact part.ne (by decide) rfl
  · exact absurd same (by decide)
  · exact absurd same (by decide)

end NfcTag.Form
