/-
# NfcTag.Proofs.TypeUri.Text -- URIs of types that start with a text

The bytes of a type may be text as far as they like and anything behind it.  Reading
is between characters where the text ends, so the URI starts with the whole of it, a
byte order mark in front apart (`toList_ofBytes_append`).  A mark is no question mark:
where the text has the first one, there the query begins (`query_of_split`,
`parameters_of_type`).
-/
import NfcTag.Text.Utf8.RoundTrip
import NfcTag.TypeUri

namespace NfcTag

set_option autoImplicit false

/-! ## First characters -/

/-- A text without the character `c` that it may start with. -/
def dropFirst (c : Char) (text : List Char) : List Char :=
  if text.head? = some c then text.tail else text

variable {c d : Char} {text : List Char}

theorem dropFirst_of_head?_ne (other : text.head? ≠ some c) : dropFirst c text = text :=
  if_neg other

/-- What is dropped in front of another character belongs to the text before it. -/
theorem dropFirst_append_cons (other : d ≠ c) (front rest : List Char) :
    dropFirst c (front ++ d :: rest) = dropFirst c front ++ d :: rest := by
  cases front with
  | nil => exact dropFirst_of_head?_ne (mt Option.some.inj other)
  | cons first front =>
      by_cases same : first = c
      · simp [dropFirst, same]
      · simp [dropFirst, same]

theorem mem_of_mem_dropFirst (member : d ∈ dropFirst c text) : d ∈ text := by
  rw [dropFirst] at member
  split at member
  · exact List.mem_of_mem_tail member
  · exact member

theorem Utf8.dropMark_eq (text : List Char) : dropMark text = dropFirst '\uFEFF' text := by
  unfold dropMark
  split
  · rfl
  · rename_i other
    refine (dropFirst_of_head?_ne fun mark => ?_).symm
    obtain ⟨rest, same⟩ := List.head?_eq_some_iff.mp mark
    exact other rest same

theorem TypeUri.dropQuestion_eq (query : List Char) : dropQuestion query = dropFirst '?' query := by
  unfold dropQuestion
  split
  · rfl
  · rename_i other
    refine (dropFirst_of_head?_ne fun mark => ?_).symm
    obtain ⟨rest, same⟩ := List.head?_eq_some_iff.mp mark
    exact other rest same

/-! ## Texts in front -/

namespace TypeUri

theorem toList_ofBytes_append (text : String) (rest : Bytes) :
    (ofBytes (Utf8.encode text ++ rest)).toList =
      dropFirst '\uFEFF' (text.toList ++ Utf8.decodeChars rest) := by
  rw [ofBytes, String.toList_ofList, Utf8.dropMark_eq, Utf8.encode, Utf8.decodeChars,
    Utf8.run_encodeChars]
  rfl

theorem toList_ofBytes_encode (text : String) :
    (ofBytes (Utf8.encode text)).toList = dropFirst '\uFEFF' text.toList := by
  have whole := toList_ofBytes_append text []
  rwa [List.append_nil, Utf8.decodeChars, Utf8.run, Utf8.finish, List.append_nil] at whole

/-! ## Queries -/

theorem query_of_split {uri : String} {front rest : List Char}
    (split : uri.toList = front ++ '?' :: rest) (first : '?' ∉ front) : query uri = rest := by
  have before : ∀ c ∈ front, decide (c ≠ '?') = true := by
    intro c member
    apply decide_eq_true
    rintro rfl
    exact first member
  rw [query, split, List.dropWhile_append_of_pos before, List.dropWhile_cons_of_neg (by decide)]
  rfl

end TypeUri

/-- The parameters of a type that was written, by its query. -/
theorem Record.parameters_of_type {record : Record} {buf : Bytes} {front query : String}
    (first : '?' ∉ front.toList)
    (type : record.type.bytes buf = Utf8.encode (front ++ "?" ++ query)) :
    record.parameters buf =
      Form.decode (Utf8.encodeChars (dropFirst '?' query.toList)) := by
  have uri : (record.uri buf).toList = dropFirst '\uFEFF' front.toList ++ '?' :: query.toList := by
    rw [Record.uri, type, TypeUri.toList_ofBytes_encode, String.toList_append,
      String.toList_append, List.append_assoc]
    exact dropFirst_append_cons (by decide) front.toList query.toList
  rw [parameters, TypeUri.parameters, TypeUri.query_of_split uri (mt mem_of_mem_dropFirst first),
    TypeUri.dropQuestion_eq]

end NfcTag
