/-
# NfcTag.Proofs.Record.Lengths -- whether a written record tells its own lengths

A type or an id that its length field cannot tell is refused.  A payload is not: its
length is written modulo the numbers that four bytes can tell.  So what is written is
in any case a record that tells its lengths, with the rest of the payload behind it
(`encode_eq_front_append`), and a reader finds that record and no more
(`parse_bytes_append`).

Main statement: `tells_lengths_iff`.  There is no such rest exactly if the payload has
less than `2 ^ 32` bytes; at that length a reader finds no payload at all
(`wide_payload_is_not_told`).
-/
import NfcTag.Proofs.Record.Places
import NfcTag.Record.Encode

namespace NfcTag.Record

set_option autoImplicit false

/-! ## What is written -/

/-- The contents that are not refused. -/
structure Contents.Accepted (contents : Contents) : Prop where
  type : contents.type.length ≤ maxByteLength
  id : (contents.id.getD []).length ≤ maxByteLength

instance (contents : Contents) : Decidable contents.Accepted :=
  decidable_of_iff (contents.type.length ≤ maxByteLength ∧
    (contents.id.getD []).length ≤ maxByteLength)
    ⟨fun ⟨type, id⟩ => ⟨type, id⟩, fun accepted => ⟨accepted.type, accepted.id⟩⟩

variable {contents : Contents} {position : Position}

theorem report_encode_of_not_accepted (refused : ¬ contents.Accepted) :
    ∃ text, (encode contents position).mapError Fault.report = .error (.range text) := by
  by_cases type : maxByteLength < contents.type.length
  · rw [encode, if_pos type]
    exact ⟨_, rfl⟩
  · have id : maxByteLength < (contents.id.getD []).length :=
      Nat.lt_of_not_le fun short => refused ⟨Nat.le_of_not_lt type, short⟩
    rw [encode, if_neg type, if_pos id]
    exact ⟨_, rfl⟩

namespace Contents

/-- The payload length that is written: what its field can tell of it. -/
def told (contents : Contents) (position : Position) : Nat :=
  contents.payload.length % BigEndian.modulus (contents.flags position).payloadLengthSize

theorem told_le (contents : Contents) (position : Position) :
    contents.told position ≤ contents.payload.length := Nat.mod_le _ _

/-- The record of the first so many bytes of the payload. -/
def front (contents : Contents) (position : Position) (accepted : contents.Accepted) : Layout where
  flags := contents.flags position
  type := contents.type
  id := contents.id.getD []
  payload := contents.payload.take (contents.told position)
  fits :=
    { type := Nat.lt_succ_of_le accepted.type
      payload := by
        rw [List.length_take_of_le (contents.told_le position)]
        exact Nat.mod_lt _ (BigEndian.modulus_pos _)
      id := by
        have short := accepted.id
        cases given : contents.id with
        | none =>
            simp only [flags, Flags.idLengthSize, given]
            exact BigEndian.modulus_pos 0
        | some id =>
            rw [given] at short
            simp only [flags, Flags.idLengthSize, given]
            exact Nat.lt_succ_of_le short }

/-- The bytes of the payload behind them. -/
def rest (contents : Contents) (position : Position) : Bytes :=
  contents.payload.drop (contents.told position)

theorem length_payload_front (accepted : contents.Accepted) :
    (contents.front position accepted).payload.length = contents.told position :=
  List.length_take_of_le (contents.told_le position)

/-- The field tells the length of every payload that four bytes can count. -/
theorem told_eq_iff :
    contents.told position = contents.payload.length ↔ contents.payload.length < 0x100000000 := by
  have byte : BigEndian.modulus 1 = 0x100 := rfl
  have word : BigEndian.modulus 4 = 0x100000000 := rfl
  have flag : (contents.flags position).payloadLengthSize =
      if contents.payload.length ≤ 0xff then 1 else 4 := by
    simp only [flags, Flags.payloadLengthSize, decide_eq_true_eq]
    rfl
  rw [told, flag]
  split
  · rw [byte]
    omega
  · rw [word]
    omega

theorem rest_eq_nil_iff :
    contents.rest position = [] ↔ contents.payload.length < 0x100000000 := by
  have least := contents.told_le position
  have told : contents.told position = contents.payload.length ↔ _ := told_eq_iff
  rw [← told, rest, List.drop_eq_nil_iff]
  omega

end Contents

theorem encode_eq_front_append (accepted : contents.Accepted) (position : Position) :
    encode contents position =
      .ok ((contents.front position accepted).bytes ++ contents.rest position) := by
  let front := contents.front position accepted
  -- Lengths that agree modulo what a field can tell are written alike.
  have field : BigEndian.encode (contents.flags position).payloadLengthSize
      contents.payload.length =
        BigEndian.encode (contents.flags position).payloadLengthSize front.payload.length := by
    rw [Contents.length_payload_front, Contents.told, BigEndian.encode_inj, Nat.mod_mod]
  have id : (contents.id.map List.length).getD 0 = (contents.id.getD []).length := by
    cases contents.id <;> rfl
  have header : (contents.header position).encode = front.header.encode := by
    simp only [Header.encode, Contents.header, field, id]
    rfl
  rw [encode, if_neg (Nat.not_lt.mpr accepted.type), if_neg (Nat.not_lt.mpr accepted.id), header]
  simp only [Layout.bytes, List.append_assoc, front, Contents.front, Contents.rest,
    List.take_append_drop]

/-! ## Telling lengths -/

/-- The length fields at the front of the bytes tell how long the type, the id and the
payload are, and a reader takes all the bytes for one record. -/
structure TellsLengths (contents : Contents) (bytes : Bytes) : Prop where
  fields : ∃ header : Header, header.StandsAt bytes 0 ∧
    header.typeLength = contents.type.length ∧
    header.idLength = (contents.id.getD []).length ∧
    header.payloadLength = contents.payload.length
  whole : ∃ record, parse bytes 0 = .ok ⟨record, bytes.length⟩

/-- Contents are refused, or what they are written as tells their lengths. -/
inductive Truthful (contents : Contents) (position : Position) : Prop where
  | refused {text : String}
      (range : (encode contents position).mapError Fault.report = .error (.range text))
  | written {bytes : Bytes} (written : encode contents position = .ok bytes)
      (tells : TellsLengths contents bytes)

theorem standsAt_layout_append (layout : Layout) (behind : Bytes) :
    layout.header.StandsAt (layout.bytes ++ behind) 0 := by
  rw [← Header.read?_drop_eq_some_iff, List.drop_zero]
  exact layout.read?_bytes_append behind

theorem tellsLengths_front (accepted : contents.Accepted) (position : Position) :
    TellsLengths contents ((contents.front position accepted).bytes ++ contents.rest position) ↔
      contents.payload.length < 0x100000000 := by
  let front := contents.front position accepted
  have stands := standsAt_layout_append front (contents.rest position)
  have told : front.header.payloadLength = contents.told position :=
    Contents.length_payload_front accepted
  constructor
  · intro tells
    obtain ⟨header, headerStands, -, -, payload⟩ := tells.fields
    rw [headerStands.unique stands, told] at payload
    exact Contents.told_eq_iff.mp payload
  · intro small
    refine ⟨⟨front.header, stands, rfl, rfl, told.trans (Contents.told_eq_iff.mpr small)⟩,
      front.parsed.record, ?_⟩
    rw [Contents.rest_eq_nil_iff.mpr small, parse_bytes_append, List.append_nil,
      Layout.length_bytes]

/-- **What is written tells its own lengths, or it is refused**, exactly if the payload
of what is not refused has less than `2 ^ 32` bytes. -/
theorem tells_lengths_iff (contents : Contents) (position : Position) :
    Truthful contents position ↔
      (contents.type.length ≤ 0xff → (∀ id, contents.id = some id → id.length ≤ 0xff) →
        contents.payload.length < 0x100000000) := by
  have accepted_iff : contents.Accepted ↔ contents.type.length ≤ 0xff ∧
      ∀ id, contents.id = some id → id.length ≤ 0xff := by
    have id : (contents.id.getD []).length ≤ maxByteLength ↔
        ∀ id, contents.id = some id → id.length ≤ 0xff := by
      cases contents.id <;> simp [maxByteLength]
    rw [← id]
    exact ⟨fun accepted => ⟨accepted.type, accepted.id⟩, fun ⟨type, id⟩ => ⟨type, id⟩⟩
  rw [← and_imp, ← accepted_iff]
  constructor
  · intro truthful accepted
    rw [← tellsLengths_front accepted position]
    cases truthful with
    | refused range =>
        rw [encode_eq_front_append accepted] at range
        cases range
    | written written tells =>
        rw [encode_eq_front_append accepted, Except.ok.injEq] at written
        rwa [written]
  · intro small
    by_cases accepted : contents.Accepted
    · exact .written (encode_eq_front_append accepted position)
        ((tellsLengths_front accepted position).mpr (small accepted))
    · obtain ⟨text, range⟩ := report_encode_of_not_accepted accepted
      exact .refused range

/-! ## A payload that is not told -/

/-- A record of one byte of type, no id and this payload. -/
def plain (payload : Bytes) : Contents := ⟨Binary64.ofInt 1, [0x54], none, payload⟩

theorem accepted_plain (payload : Bytes) : (plain payload).Accepted :=
  ⟨(by decide : 1 ≤ 0xff), Nat.zero_le _⟩

/-- With the shortest payload that four bytes cannot count the header tells of none. -/
theorem encode_plain {payload : Bytes} (wide : payload.length = 0x100000000) :
    encode (plain payload) ⟨false, false⟩ =
      .ok ([0x01, 0x01, 0x00, 0x00, 0x00, 0x00, 0x54] ++ payload) := by
  have tnf : Tnf.ofNumber (Binary64.ofInt 1) = .wellKnown := by decide +kernel
  have header : ((plain payload).header ⟨false, false⟩).encode =
      [0x01, 0x01, 0x00, 0x00, 0x00, 0x00] := by
    simp only [Contents.header, Contents.flags, plain, tnf, wide]
    decide
  rw [encode, if_neg (Nat.not_lt.mpr (accepted_plain payload).type),
    if_neg (Nat.not_lt.mpr (accepted_plain payload).id), header]
  rfl

theorem parse_plain (payload : Bytes) :
    parse ([0x01, 0x01, 0x00, 0x00, 0x00, 0x00, 0x54] ++ payload) 0 =
      .ok ⟨⟨.wellKnown, ⟨6, 1⟩, none, ⟨7, 0⟩⟩, 7⟩ := by
  let layout : Layout :=
    ⟨⟨false, false, false, false, false, .wellKnown⟩, [0x54], [], [],
      ⟨by decide, by decide, by decide⟩⟩
  have bytes : layout.bytes = [0x01, 0x01, 0x00, 0x00, 0x00, 0x00, 0x54] := by decide
  rw [← bytes, parse_bytes_append]
  rfl

/-- Four gigabytes of payload are written behind a header that tells of none, and a reader
stops in front of them. -/
theorem wide_payload_is_not_told :
    let contents : Contents := ⟨Binary64.ofInt 1, [0x54], none, List.replicate 0x100000000 0x00⟩
    ∃ bytes, encode contents ⟨false, false⟩ = .ok bytes ∧ bytes.length = 0x100000007 ∧
      parse bytes 0 = .ok ⟨⟨.wellKnown, ⟨6, 1⟩, none, ⟨7, 0⟩⟩, 7⟩ ∧
      ¬ Truthful contents ⟨false, false⟩ := by
  have wide : (List.replicate 0x100000000 (0x00 : UInt8)).length = 0x100000000 :=
    List.length_replicate
  refine ⟨_, encode_plain wide, ?_, parse_plain _, fun truthful => ?_⟩
  · rw [List.length_append, wide]
    rfl
  · cases truthful with
    | refused range =>
        have written := encode_plain wide
        rw [plain] at written
        rw [written] at range
        cases range
    | written written tells =>
        obtain rfl := Except.ok.inj (written.symm.trans (encode_plain wide))
        obtain ⟨record, read⟩ := tells.whole
        rw [parse_plain, List.length_append, wide] at read
        cases read

end NfcTag.Record
