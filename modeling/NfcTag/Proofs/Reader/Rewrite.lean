/-
# NfcTag.Proofs.Reader.Rewrite -- reading a tag and writing it again

A memory that a reader takes may hold its message in a longer form than needed, and
other things around it.  `rewrite` writes the message alone.  The message gets no
longer, and the length field that declared it bounds it (`MessageBlock.length_le`),
so that it always has room in a block.

Main statement: `rewriting_keeps_content`.  What a reader of the same scheme sees is
kept, whatever it looks for, and a rewritten memory is rewritten as itself.
-/
import NfcTag.Proofs.AppMessage.Reencode
import NfcTag.Proofs.Reader.Paths
import NfcTag.Proofs.Reader.RoundTrip

namespace NfcTag

set_option autoImplicit false

theorem MessageBlock.length_le {memory : Bytes} {location : Tlv.Location}
    (block : MessageBlock memory location) : location.length ≤ Tlv.maxLength := by
  have found := block.found
  rw [← Tlv.find?_of_names (Tlv.names_ofInt Tlv.ndefMessage)] at found
  obtain ⟨last, -, header, -⟩ := Tlv.find?_eq_some_iff.mp found
  exact header.length_le

/-- Nothing around the message block. -/
def Surroundings.bare : Surroundings where
  padding := 0
  before := []
  after := []
  trailing := []
  beforeFits := List.forall_mem_nil _
  beforeOrdinary := List.forall_mem_nil _
  beforeOthers := List.forall_mem_nil _
  afterFits := List.forall_mem_nil _

theorem Surroundings.write_bare (message : Bytes) :
    bare.write message = Tlv.encodeArea [entry message] := by
  simp only [write, bare, List.nil_append, List.append_nil, List.replicate_zero]
  cases Tlv.encodeArea [entry message] <;> rfl

namespace Reader

variable (reader : Reader)

/-- The message of a memory as a memory of its own, written afresh. -/
def rewrite (memory : Bytes) : Except Fault Bytes := do
  let message ← (reader.message memory).outcome
  let ndef ← AppMessage.encode (message.contents memory)
  Tlv.encodeArea [Surroundings.entry ndef]

/-- The message of `memory`, written again as `ndef` and stored alone as `image`. -/
structure Rewrites (memory : Bytes) (message : AppMessage) (ndef image : Bytes) : Prop where
  encoded : AppMessage.encode (message.contents memory) = .ok ndef
  length_le : ndef.length ≤ message.size
  stored : Tlv.encodeArea [Surroundings.entry ndef] = .ok image
  message : ∃ again, again.Renews image message memory ∧ ∀ other : Reader,
    other.scheme = reader.scheme → (other.message image).outcome = .ok again
  data : ∀ payload (other : Reader), other.scheme = reader.scheme →
    (other.data payload image).outcome = (reader.data payload memory).outcome
  stable : reader.rewrite image = .ok image

/-- **Writing again what was read keeps it**: the message can be encoded and stored, in no
more bytes than before, every reader of the scheme sees the same types, payloads and
data, and there is nothing left to rewrite. -/
theorem rewriting_keeps_content {memory : Bytes} {message : AppMessage}
    (read : (reader.message memory).outcome = .ok message) (plain : message.PlainTypes memory) :
    ∃ ndef image, reader.Rewrites memory message ndef image := by
  obtain ⟨location, inner, block, parsed, rfl⟩ := reader.exists_of_message read
  have within := AppMessage.within_of_parse parsed
  have sameData := within.data.sameBytes_shift
  have sameMetadata := within.metadata.sameBytes_shift
  have innerPlain : inner.PlainTypes (location.span.bytes memory) :=
    ⟨sameData.type ▸ plain.data, sameMetadata.type ▸ plain.metadata⟩
  obtain ⟨ndef, again, encoded, shorter, reread, renews⟩ :=
    AppMessage.encode_contents_of_parse parsed innerPlain
  have fits : ndef.length ≤ Tlv.maxLength := by
    calc ndef.length ≤ inner.size := shorter
      _ ≤ (location.span.bytes memory).length := AppMessage.size_le_of_parse parsed
      _ = location.length := block.length_bytes
      _ ≤ Tlv.maxLength := block.length_le
  have stored := (Surroundings.write_bare ndef).symm.trans (Surroundings.bare.write_eq_append fits)
  have holds := Surroundings.bare.holds_message ndef
  obtain ⟨-, readAgain, dataAgain⟩ := reader.outcomes_of_written Surroundings.bare fits reread
  have renewed : AppMessage.Renews _ _ (inner.shift location.offset) memory :=
    .of_slice holds.inside (by
      rw [holds.bytes_eq]
      exact ⟨renews.data.of_sameBytes sameData, renews.metadata.of_sameBytes sameMetadata⟩)
  have encodedHere : AppMessage.encode ((inner.shift location.offset).contents memory) =
      .ok ndef := by
    rw [← encoded, AppMessage.contents_congr sameData.type sameData.payload sameMetadata.type
      sameMetadata.payload]
  refine ⟨ndef, _, encodedHere, shorter, stored, ⟨_, renewed, fun other same => ?_⟩,
    fun payload other same => ?_, ?_⟩
  · rw [outcome_message, reader.outcome_find_eq other, same, ← outcome_message, readAgain]
  · have located := reader.outcome_find_of_block block
    rw [(reader.outcomes_of_scheme payload same _).data, dataAgain,
      (reader.agreesAt payload located).data, outcome_bareData, outcome_bareData, reread, parsed]
    exact congrArg payload.decode renews.data.payload.bytes_eq
  · rw [rewrite, readAgain]
    simp only [bind, Except.bind, renewed.contents_eq, encodedHere, stored]

/-- A message in the long form of its block, with stray flags, an id, an empty id, the long
form of a short payload, and bytes behind its records. -/
theorem rewriting_keeps_content_loose :
    let reader : Reader := ⟨"é:", true⟩
    let memory : Bytes :=
      [0x00, 0x01, 0x01, 0x03, 0x03, 0xff, 0x00, 0x15] ++
        [0xab, 0x03, 0x00, 0x00, 0x00, 0x01, 0x02, 0xc3, 0xa9, 0x3a, 0x69, 0x6a, 0x2a] ++
        [0x1b, 0x03, 0x00, 0x00, 0xc3, 0xa9, 0x3a] ++ [0x99, 0xfe]
    ∃ message, (reader.message memory).outcome = .ok message ∧ message.PlainTypes memory ∧
      ∃ ndef image, reader.Rewrites memory message ndef image := by
  intro reader memory
  let message : AppMessage :=
    ⟨⟨.absoluteUri, ⟨15, 3⟩, some ⟨18, 2⟩, ⟨20, 1⟩⟩, ⟨.absoluteUri, ⟨25, 3⟩, none, ⟨28, 0⟩⟩, 20⟩
  have read : (reader.message memory).outcome = .ok message := by decide +kernel
  have type : [0xc3, 0xa9, 0x3a] = Utf8.encode "é:" := by decide +kernel
  have plain : message.PlainTypes memory :=
    ⟨⟨⟨"é:", type.symm⟩, by decide +kernel⟩, ⟨⟨"é:", type.symm⟩, by decide +kernel⟩⟩
  exact ⟨message, read, plain, reader.rewriting_keeps_content read plain⟩

end Reader

end NfcTag
