/-
# NfcTag.Proofs.TypeUri.Parameters -- the parameters of types that were written

A type that was written as a text, a question mark and a form has the pairs of the form
as its parameters (`parameters_read_back`): two layers of UTF-8, a separator each for
URI, pairs and values, and two kinds of escapes are undone.

Of two queries joined by `&` a reader makes the entries of both, but where a query
starts with a question mark it does so only in the middle of the joined one.  At the
front of a query a question mark is dropped, and the first entry is another one, or is
lost (`Form.decode_cons_question`).  So queries compose exactly if the second one does
not start with it (`joined_parameters_iff`).
-/
import NfcTag.Proofs.Form.Written
import NfcTag.Proofs.TypeUri.Text

namespace NfcTag

set_option autoImplicit false

/-! ## Forms that were written -/

namespace Record

/-- **Parameters are read back**, whatever characters are in their keys and values. -/
theorem parameters_read_back {record : Record} {buf : Bytes} {front : String}
    {pairs : List (String × String)} (first : '?' ∉ front.toList)
    (type : record.type.bytes buf = Utf8.encode (front ++ "?" ++ Form.text pairs)) :
    record.parameters buf = pairs := by
  have unmarked : (Form.text pairs).toList.head? ≠ some '?' := by
    intro mark
    exact Form.question_not_mem_text pairs (List.mem_of_head? mark)
  rw [parameters_of_type first type, dropFirst_of_head?_ne unmarked, Form.encodeChars_text,
    Form.decode_encode]

/-- Separators, an escape and a byte order mark inside keys and values, an empty pair, and
a key that comes twice. -/
theorem parameters_read_back_separators :
    let pairs := [("a&b", "c=d?"), ("", ""), ("a&b", "+ %2B"), ("\uFEFF\u00e9", "#\u20ac*")]
    let type := Utf8.encode ("\uFEFF\u00e9:" ++ "?" ++ Form.text pairs)
    let record : Record := ⟨.absoluteUri, ⟨1, type.length⟩, none, ⟨0, 0⟩⟩
    '?' ∉ "\uFEFF\u00e9:".toList ∧ record.type.bytes (0xd3 :: (type ++ [0x2a])) = type ∧
      record.parameters (0xd3 :: (type ++ [0x2a])) = pairs := by
  intro pairs type record
  have first : '?' ∉ "\uFEFF\u00e9:".toList := by decide
  have stands : record.type.bytes (0xd3 :: (type ++ [0x2a])) = type := List.take_left
  exact ⟨first, stands, parameters_read_back first stands⟩

end Record

/-! ## Queries that are joined -/

namespace Form

/-- The question mark; nothing else is special about it than its place. -/
def question : UInt8 := 0x3f

theorem decodePart_cons_question (part : Bytes) :
    decodePart (question :: part) = "?" ++ decodePart part := by
  have unescaped : unescape ((question :: part).map unplus) =
      question :: unescape (part.map unplus) := unescape_cons (by decide) _
  rw [decodePart_eq, unescaped, decodePart_eq, ← String.toList_inj, String.toList_append]
  simp only [Utf8.decode, String.toList_ofList]
  rfl

theorem decodePiece_cons_question (piece : Bytes) :
    decodePiece (question :: piece) = ("?" ++ (decodePiece piece).1, (decodePiece piece).2) := by
  have key : (question :: piece).takeWhile (· != valueSeparator) =
      question :: piece.takeWhile (· != valueSeparator) := List.takeWhile_cons_of_pos (by decide)
  rw [decodePiece, key, decodePart_cons_question]
  rfl

/-- A question mark in front of a form is read as the first character of its first key.  If
the first piece is empty, it is a key by itself. -/
theorem decode_cons_question (form : Bytes) :
    ∃ key value others, decode (question :: form) = ("?" ++ key, value) :: others ∧
      (decode form = (key, value) :: others ∨
        key = "" ∧ value = "" ∧ decode form = others) := by
  obtain ⟨piece, others, cut⟩ :=
    List.exists_cons_of_ne_nil (pieces_ne_nil pairSeparator form)
  have joined : decode (question :: form) = decodePiece (question :: piece) ::
      (others.filter (! ·.isEmpty)).map decodePiece := by
    rw [decode, pieces_cons (by decide) cut]
    rfl
  refine ⟨_, _, _, joined.trans (by rw [decodePiece_cons_question]), ?_⟩
  rw [decode, cut]
  cases piece with
  | nil => exact .inr ⟨rfl, rfl, rfl⟩
  | cons b piece => exact .inl rfl

theorem decode_cons_question_ne (form : Bytes) : decode (question :: form) ≠ decode form := by
  intro same
  obtain ⟨key, value, others, marked, plain | ⟨-, -, plain⟩⟩ := decode_cons_question form
  · rw [marked, plain, List.cons.injEq, Prod.mk.injEq, ← String.toList_inj,
      String.toList_append] at same
    have lengths := congrArg List.length same.1.1
    simp at lengths
  · rw [marked, plain] at same
    exact List.cons_ne_self _ _ same

end Form

namespace Record

/-- **The parameters of two joined queries are those of the one, then those of the other**,
exactly if the second query does not start with a question mark. -/
theorem joined_parameters_iff {front left right : String} {joined one other : Record}
    {buf oneBuf otherBuf : Bytes} (first : '?' ∉ front.toList)
    (type : joined.type.bytes buf = Utf8.encode (front ++ "?" ++ left ++ "&" ++ right))
    (oneType : one.type.bytes oneBuf = Utf8.encode (front ++ "?" ++ left))
    (otherType : other.type.bytes otherBuf = Utf8.encode (front ++ "?" ++ right)) :
    joined.parameters buf = one.parameters oneBuf ++ other.parameters otherBuf ↔
      right.toList.head? ≠ some '?' := by
  have whole : joined.parameters buf =
      one.parameters oneBuf ++ Form.decode (Utf8.encode right) := by
    have query : dropFirst '?' (left ++ "&" ++ right).toList =
        dropFirst '?' left.toList ++ '&' :: right.toList := by
      rw [String.toList_append, String.toList_append, List.append_assoc]
      exact dropFirst_append_cons (by decide) _ _
    have bytes : Utf8.encodeChars (dropFirst '?' left.toList ++ '&' :: right.toList) =
        Utf8.encodeChars (dropFirst '?' left.toList) ++
          Form.pairSeparator :: Utf8.encode right := by
      rw [Utf8.encodeChars, List.flatMap_append]
      rfl
    have regroup : front ++ "?" ++ left ++ "&" ++ right =
        front ++ "?" ++ (left ++ "&" ++ right) := by simp only [String.append_assoc]
    rw [regroup] at type
    rw [parameters_of_type first type, query, bytes, Form.decode_append,
      parameters_of_type first oneType]
  rw [whole, parameters_of_type first otherType, List.append_cancel_left_eq, Utf8.encode]
  by_cases mark : right.toList.head? = some '?'
  · obtain ⟨rest, same⟩ := List.head?_eq_some_iff.mp mark
    have differ := Form.decode_cons_question_ne (Utf8.encodeChars rest)
    rw [same]
    exact iff_of_false differ fun other => other rfl
  · rw [dropFirst_of_head?_ne mark]
    exact iff_of_true rfl mark

/-- An empty piece, escapes that are cut, and question marks at the front of the first query
and inside the second one. -/
theorem joined_parameters_iff_lenient :
    let record (type : Bytes) : Record := ⟨.absoluteUri, ⟨0, type.length⟩, none, ⟨0, 0⟩⟩
    let joined := Utf8.encode ("\uFEFF\u00e9" ++ "?" ++ "?a%2=%zz" ++ "&" ++ "&+?=%e2%82&")
    let one := Utf8.encode ("\uFEFF\u00e9" ++ "?" ++ "?a%2=%zz")
    let other := Utf8.encode ("\uFEFF\u00e9" ++ "?" ++ "&+?=%e2%82&")
    '?' ∉ "\uFEFF\u00e9".toList ∧ (record joined).type.bytes joined = joined ∧
      (record one).type.bytes one = one ∧ (record other).type.bytes other = other ∧
      (record joined).parameters joined =
        (record one).parameters one ++ (record other).parameters other := by
  intro record joined one other
  have first : '?' ∉ "\uFEFF\u00e9".toList := by decide
  have stands (type : Bytes) : (record type).type.bytes type = type := List.take_length
  have unmarked : "&+?=%e2%82&".toList.head? ≠ some '?' := by decide
  exact ⟨first, stands joined, stands one, stands other,
    (joined_parameters_iff first (stands joined) (stands one) (stands other)).mpr unmarked⟩

/-- Alone, the second query is read without its question mark; joined, with it. -/
theorem marked_query_is_not_kept :
    let record (type : Bytes) : Record := ⟨.absoluteUri, ⟨0, type.length⟩, none, ⟨0, 0⟩⟩
    let joined := Utf8.encode ("u" ++ "?" ++ "a=1" ++ "&" ++ "?b=2")
    let one := Utf8.encode ("u" ++ "?" ++ "a=1")
    let other := Utf8.encode ("u" ++ "?" ++ "?b=2")
    (record joined).parameters joined = [("a", "1"), ("?b", "2")] ∧
      (record one).parameters one = [("a", "1")] ∧
      (record other).parameters other = [("b", "2")] ∧
      (record joined).parameters joined ≠
        (record one).parameters one ++ (record other).parameters other := by
  decide +kernel

end Record

end NfcTag
