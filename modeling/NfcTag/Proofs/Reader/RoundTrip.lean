/-
# NfcTag.Proofs.Reader.RoundTrip -- reading back a written tag

A message is written as one block of a memory area, with padding and blocks of
other types in front (`Surroundings`).  The scan passes everything in front of
it, so the message block is found where it was written (`messageBlock`); its
bytes are the message, and the message is read back in place.

Main statement: `data_written_is_read_back`, through every layer at once.
-/
import NfcTag.Proofs.AppMessage.Written
import NfcTag.Proofs.Payload
import NfcTag.Proofs.Reader.Outcome
import NfcTag.Proofs.Tlv.Items

namespace NfcTag

set_option autoImplicit false

/-- What stands around the message block of a tag memory. -/
structure Surroundings where
  /-- The padding bytes in front of the area. -/
  padding : Nat
  /-- The blocks in front of the message. -/
  before : List Tlv.Entry
  /-- The blocks behind the message. -/
  after : List Tlv.Entry
  /-- The bytes behind the area. -/
  trailing : Bytes
  beforeFits : ∀ entry ∈ before, entry.Fits
  beforeOrdinary : ∀ entry ∈ before, entry.Ordinary
  /-- The message is the first block of its type. -/
  beforeOthers : ∀ entry ∈ before, entry.type.toByte ≠ Tlv.ndefMessage
  afterFits : ∀ entry ∈ after, entry.Fits

namespace Surroundings

/-- The block of a message. -/
def entry (message : Bytes) : Tlv.Entry := ⟨Binary64.ofInt Tlv.ndefMessage.toNat, message⟩

/-- The memory of a tag with a message. -/
def write (around : Surroundings) (message : Bytes) : Except Fault Bytes := do
  let area ← Tlv.encodeArea (around.before ++ [entry message] ++ around.after)
  return List.replicate around.padding Tlv.null ++ area ++ around.trailing

variable (around : Surroundings) {message : Bytes}

/-- Everything in front of the message block. -/
def front : Bytes := List.replicate around.padding Tlv.null ++ around.before.flatMap Tlv.Entry.bytes

/-- Everything behind the message block. -/
def behind : Bytes := around.after.flatMap Tlv.Entry.bytes ++ Tlv.terminator :: around.trailing

theorem toByte_entry (message : Bytes) : (entry message).type.toByte = Tlv.ndefMessage := by
  rw [entry, Binary64.toByte_ofInt]

theorem entry_ordinary (message : Bytes) : (entry message).Ordinary := by
  rw [Tlv.Entry.Ordinary, toByte_entry]
  decide

theorem write_eq_append (fits : message.length ≤ Tlv.maxLength) :
    around.write message = .ok (around.front ++ ((entry message).bytes ++ around.behind)) := by
  have all : ∀ block ∈ around.before ++ [entry message] ++ around.after, block.Fits := by
    intro block member
    simp only [List.mem_append, List.mem_singleton] at member
    obtain (earlier | rfl) | later := member
    · exact around.beforeFits block earlier
    · exact fits
    · exact around.afterFits block later
  rw [write, Tlv.encodeArea_eq_flatMap all]
  simp only [bind, Except.bind, pure, Except.pure, front, behind, List.flatMap_append,
    List.flatMap_cons, List.append_assoc, List.cons_append, List.nil_append]

/-! ## The message block -/

/-- Where the message itself is written. -/
def span (message : Bytes) : Span :=
  ⟨around.front.length + (entry message).headerSize, message.length⟩

theorem holds_message (message : Bytes) :
    (around.span message).Holds (around.front ++ ((entry message).bytes ++ around.behind))
      message :=
  (entry message).holds_value around.front around.behind

/-- What stands in front of the message block, item by item. -/
def items : List Tlv.Item :=
  List.replicate around.padding .padding ++ around.before.map .block

theorem flatMap_items : around.items.flatMap Tlv.Item.bytes = around.front := by
  rw [items, front, List.flatMap_append, List.flatMap_replicate, List.flatMap_map]
  congr 1
  exact List.flatten_replicate_singleton

theorem items_of_blocks {holds : Tlv.Item → Prop} (padding : holds .padding)
    (blocks : ∀ entry ∈ around.before, holds (.block entry)) :
    ∀ item ∈ around.items, holds item := by
  intro item member
  rcases List.mem_append.mp member with inPadding | inBlocks
  · rw [List.eq_of_mem_replicate inPadding]
    exact padding
  · obtain ⟨entry, earlier, rfl⟩ := List.mem_map.mp inBlocks
    exact blocks entry earlier

/-- The scan finds the message where it was written. -/
theorem messageBlock (fits : message.length ≤ Tlv.maxLength) (nonempty : message ≠ []) :
    MessageBlock (around.front ++ ((entry message).bytes ++ around.behind))
      ⟨Tlv.ndefMessage, (around.span message).offset, message.length⟩ where
  found := by
    have good : ∀ item ∈ around.items, item.Good :=
      around.items_of_blocks trivial fun entry earlier =>
        ⟨around.beforeFits entry earlier, around.beforeOrdinary entry earlier⟩
    have others : ∀ item ∈ around.items, ¬ item.HasType (entry message).type.toByte := by
      rw [toByte_entry]
      exact around.items_of_blocks not_false around.beforeOthers
    have found := Tlv.findByte?_items_append good others fits (entry_ordinary message)
      around.behind
    rwa [toByte_entry, flatMap_items] at found
  nonempty := mt List.length_eq_zero_iff.mp nonempty
  whole := (around.holds_message message).inside

end Surroundings

/-! ## The round trip -/

namespace Reader

/-- The reader finds what was written, all of it. -/
structure ReadsBack (reader : Reader) (memory : Bytes) (span : Span) (message : Bytes)
    (contents : AppMessage.Contents) {payload : Payload} (row : Row payload.schema) : Prop where
  located : (reader.find memory).outcome = .ok span
  holds : span.Holds memory message
  message : ∃ found, (reader.message memory).outcome = .ok found ∧ found.Shows memory contents ∧
    found.size = message.length
  data : (reader.data payload memory).outcome = .ok row.normalize.wire

variable {reader : Reader} {payload : Payload}

/-- A message that can be read is read where it was written, and its data with it. -/
theorem outcomes_of_written (reader : Reader) (around : Surroundings) {message : Bytes}
    {found : AppMessage} (fits : message.length ≤ Tlv.maxLength)
    (read : AppMessage.parse reader.scheme message = .ok found) :
    let memory := around.front ++ ((Surroundings.entry message).bytes ++ around.behind)
    (reader.find memory).outcome = .ok (around.span message) ∧
      (reader.message memory).outcome = .ok (found.shift (around.span message).offset) ∧
      ∀ payload, (reader.data payload memory).outcome =
        (reader.bareData payload message).outcome := by
  intro memory
  have nonempty : message ≠ [] := by
    rintro rfl
    cases read
  have holds := around.holds_message message
  have located : (reader.find memory).outcome = .ok (around.span message) :=
    reader.outcome_find_of_block (around.messageBlock fits nonempty)
  refine ⟨located, ?_, fun payload => ?_⟩
  · rw [reader.outcome_message_of_ok located]
    simp only [memory, holds.bytes_eq, read]
    rfl
  · rw [reader.outcome_data_of_ok payload located]
    simp only [memory, holds.bytes_eq]

theorem readsBack (around : Surroundings) {contents : AppMessage.Contents}
    {row : Row payload.schema} {message : Bytes} (good : contents.OfScheme reader.scheme)
    (encoded : contents.data = payload.encode row)
    (written : AppMessage.encode contents = .ok message) (fits : message.length ≤ Tlv.maxLength) :
    reader.ReadsBack (around.front ++ ((Surroundings.entry message).bytes ++ around.behind))
      (around.span message) message contents row := by
  have short : message.length < 0x100000000 := Nat.lt_of_le_of_lt fits (by decide)
  obtain ⟨found, read, seen, size⟩ := AppMessage.parse_encode good written short
  obtain ⟨located, readMessage, readData⟩ := reader.outcomes_of_written around fits read
  have holds := around.holds_message message
  refine ⟨located, holds, ⟨found.shift (around.span message).offset, readMessage, ?_, size⟩, ?_⟩
  · exact .of_slice holds.inside (by rwa [holds.bytes_eq])
  · have payloadBytes : found.data.payload.bytes message = payload.encode row :=
      seen.data.payload.bytes_eq.trans encoded
    rw [readData, outcome_bareData, read]
    simp only [bind, Except.bind, payloadBytes]
    exact Payload.decode_encode_row row

/-- **Data that is written to a tag is read back from it**: the message block is
found, the message in it shows what was written, and the data has every value in
normal form.  The message can only be too long for its block. -/
theorem data_written_is_read_back (reader : Reader) (around : Surroundings)
    {dataType metadataType : String}
    (dataGood : AppMessage.IsType reader.scheme dataType)
    (metadataGood : AppMessage.IsType reader.scheme metadataType)
    {payload : Payload} (row : Row payload.schema) (metadata : Bytes) :
    let contents : AppMessage.Contents := ⟨dataType, payload.encode row, metadataType, metadata⟩
    ∃ message, AppMessage.encode contents = .ok message ∧
      (message.length ≤ Tlv.maxLength →
        ∃ blocks memory, Tlv.encodeAll around.before = .ok blocks ∧
          around.write message = .ok memory ∧
          reader.ReadsBack memory
            ⟨around.padding + blocks.length + 1 + (Tlv.encodeLength message.length).length,
              message.length⟩
            message contents row) := by
  intro contents
  have good : contents.OfScheme reader.scheme := ⟨dataGood, metadataGood⟩
  obtain ⟨message, written, -, -⟩ := AppMessage.exists_encode good.data.short good.metadata.short
  refine ⟨message, written, fun fits => ?_⟩
  refine ⟨_, _, Tlv.encodeAll_eq_flatMap around.beforeFits, around.write_eq_append fits, ?_⟩
  have back : reader.ReadsBack _ _ message contents row := readsBack around good rfl written fits
  rw [Surroundings.span, Surroundings.front, List.length_append, List.length_replicate,
    Tlv.Entry.headerSize, ← Nat.add_assoc] at back
  exact back

/-- A value that wraps, types beyond ASCII, and a second message block behind the
first. -/
theorem data_written_is_read_back_wrapped :
    let payload : Payload := ⟨"env", [⟨"level", .i16⟩]⟩
    let row : Row payload.schema := ⟨[⟨"level", .i16, Binary64.ofInt 40000⟩], rfl⟩
    let contents : AppMessage.Contents := ⟨"é:d", payload.encode row, "é:m?zip=0", [0xfe, 0x00]⟩
    let around : Surroundings :=
      ⟨2, [⟨Binary64.ofInt 0x1fd, [0x03, 0x01]⟩], [⟨Binary64.ofInt 0x03, []⟩], [0x03],
        by decide +kernel, by decide +kernel, by decide +kernel, by decide +kernel⟩
    AppMessage.IsType "é:" contents.dataType ∧ AppMessage.IsType "é:" contents.metadataType ∧
      ∃ message blocks memory, AppMessage.encode contents = .ok message ∧
        Tlv.encodeAll around.before = .ok blocks ∧ around.write message = .ok memory ∧
        ReadsBack ⟨"é:", false⟩ memory
          ⟨2 + blocks.length + 1 + (Tlv.encodeLength message.length).length, message.length⟩
          message contents row := by
  intro payload row contents around
  have dataGood : AppMessage.IsType "é:" contents.dataType :=
    ⟨by decide +kernel, by decide +kernel⟩
  have metadataGood : AppMessage.IsType "é:" contents.metadataType :=
    ⟨by decide +kernel, by decide +kernel⟩
  obtain ⟨message, written, back⟩ :=
    data_written_is_read_back ⟨"é:", false⟩ around dataGood metadataGood row [0xfe, 0x00]
  have alone : row.wire.cells = row.cells := by
    simp only [row, Row.wire, wireOrder, List.filter]
    cases keyIndex? "level" <;> rfl
  have encoded : payload.encode row = [0x9c, 0x40] := by
    rw [Payload.encode, Row.encode, alone]
    decide +kernel
  have fits : (AppMessage.encode contents).toOption.all (·.length ≤ Tlv.maxLength) = true := by
    simp only [contents, encoded]
    decide +kernel
  rw [written] at fits
  obtain ⟨blocks, memory, front, stored, readBack⟩ := back (of_decide_eq_true fits)
  exact ⟨dataGood, metadataGood, message, blocks, memory, written, front, stored, readBack⟩

end Reader

end NfcTag
