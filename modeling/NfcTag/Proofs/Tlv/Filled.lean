/-
# NfcTag.Proofs.Tlv.Filled -- areas written into a buffer of their size

The pieces that are stored for an area lie side by side (`SideBySide`) and end where
the count of its bytes says.  So none goes outside the buffer, none of its bytes is
left out, and what is stored is all that comes to stand in it
(`storeAll_sideBySide`): the blocks one behind the other, and the terminator.

Main statement: `area_fills_its_size`, which also says which lists are refused and
that the bytes tell the list, whatever its types are.
-/
import NfcTag.Fault.Report
import NfcTag.Proofs.Bytes.Rows
import NfcTag.Proofs.Number.Exact
import NfcTag.Proofs.Tlv.Written
import NfcTag.Tlv.Fill

namespace NfcTag.Tlv

set_option autoImplicit false

/-! ## Pieces side by side -/

/-- The first piece begins at `place`, each other one where the one before it ends,
and the last one ends at `stop`. -/
inductive SideBySide : (place : Nat) → List Piece → (stop : Nat) → Prop where
  | none (place : Nat) : SideBySide place [] place
  | piece (place : Nat) (run : Bytes) {rest : List Piece} {stop : Nat}
      (onward : SideBySide (place + run.length) rest stop) :
      SideBySide place (⟨place, run⟩ :: rest) stop

namespace SideBySide

variable {place middle stop : Nat} {pieces more : List Piece}

theorem append (front : SideBySide place pieces middle) (behind : SideBySide middle more stop) :
    SideBySide place (pieces ++ more) stop := by
  induction front with
  | none => exact behind
  | piece place run _ ih => exact .piece place run (ih behind)

theorem place_le (pieced : SideBySide place pieces stop) : place ≤ stop := by
  induction pieced with
  | none => exact Nat.le_refl _
  | piece _ _ _ ih => exact Nat.le_trans (Nat.le_add_right _ _) ih

theorem stop_le (pieced : SideBySide place pieces stop) : ∀ piece ∈ pieces, piece.stop ≤ stop := by
  induction pieced with
  | none => exact fun _ member => nomatch member
  | piece place run onward ih =>
      intro piece member
      rcases List.mem_cons.mp member with rfl | later
      · exact onward.place_le
      · exact ih piece later

/-- Every place in between belongs to one of the pieces. -/
theorem exists_piece (pieced : SideBySide place pieces stop) {i : Nat} (behind : place ≤ i)
    (before : i < stop) : ∃ piece ∈ pieces, piece.place ≤ i ∧ i < piece.stop := by
  induction pieced with
  | none => omega
  | piece place run _ ih =>
      by_cases here : i < place + run.length
      · exact ⟨_, List.mem_cons_self, behind, here⟩
      · obtain ⟨piece, member, among⟩ := ih (Nat.le_of_not_lt here) before
        exact ⟨piece, List.mem_cons_of_mem _ member, among⟩

end SideBySide

/-- Pieces that reach from the end of `front` to the end of the buffer replace all
that was there. -/
theorem storeAll_sideBySide {place stop : Nat} {pieces : List Piece}
    (pieced : SideBySide place pieces stop) {front blank : Bytes} (starts : front.length = place)
    (ends : (front ++ blank).length = stop) :
    storeAll (front ++ blank) pieces = front ++ pieces.flatMap Piece.run := by
  induction pieced generalizing front blank with
  | none place =>
      have nothing : blank = [] := by
        rw [List.length_append] at ends
        exact List.length_eq_zero_iff.mp (by omega)
      rw [nothing]
      rfl
  | piece place run onward ih =>
      have room := onward.place_le
      rw [List.length_append] at ends
      have stored : Piece.store ⟨place, run⟩ (front ++ blank) =
          (front ++ run) ++ blank.drop run.length := by
        rw [Piece.store, Bytes.overwrite, ← starts, List.take_left, List.drop_length_add_append]
      have rest := @ih (front ++ run) (blank.drop run.length)
        (by rw [List.length_append, starts])
        (by simp only [List.length_append, List.length_drop]; omega)
      rw [storeAll, List.foldl_cons, stored, ← storeAll, rest, List.flatMap_cons,
        List.append_assoc]

/-- Pieces that reach from one end of a blank buffer to the other fill it. -/
theorem storeAll_blank {pieces : List Piece} {size : Nat} (pieced : SideBySide 0 pieces size) :
    storeAll (List.replicate size 0) pieces = pieces.flatMap Piece.run := by
  show storeAll ([] ++ List.replicate size 0) pieces = [] ++ pieces.flatMap Piece.run
  exact storeAll_sideBySide pieced rfl List.length_replicate

/-! ## The count -/

theorem blockSize_eq_length (entry : Entry) : blockSize entry = entry.bytes.length := by
  rw [blockSize, lengthFieldSize, entry.length_bytes, Entry.headerSize, encodeLength]
  split <;> simp only [List.length_cons, BigEndian.length_encode]

theorem foldl_blockSize (entries : List Entry) (size : Nat) :
    entries.foldl (fun size entry => size + blockSize entry) size =
      size + (entries.flatMap Entry.bytes).length := by
  induction entries generalizing size with
  | nil => rfl
  | cons entry entries ih =>
      rw [List.foldl_cons, ih, blockSize_eq_length, List.flatMap_cons, List.length_append,
        Nat.add_assoc]

/-- The count is that of the bytes, for values of any length. -/
theorem areaSize_eq_length (entries : List Entry) :
    areaSize entries = (entries.flatMap Entry.bytes ++ [terminator]).length := by
  rw [areaSize, foldl_blockSize, List.length_append, List.length_singleton, Nat.add_comm]

/-! ## The pieces of blocks that fit -/

theorem exists_blockPieces {entry : Entry} (fits : entry.Fits) (place : Nat) :
    ∃ pieces, blockPieces place entry = .ok (pieces, place + entry.bytes.length) ∧
      SideBySide place pieces (place + entry.bytes.length) ∧
      pieces.flatMap Piece.run = entry.bytes := by
  have size := entry.length_bytes
  rw [entry.headerSize_eq] at size
  by_cases short : entry.value.length < longForm.toNat
  · have brief : entry.value.length < 255 := short
    rw [if_pos brief] at size
    have made : blockPieces place entry = .ok ([⟨place, [entry.type.toByte]⟩,
        ⟨place + 1, [UInt8.ofNat entry.value.length]⟩, ⟨place + 2, entry.value⟩],
        place + entry.bytes.length) := by
      rw [blockPieces, if_neg (Nat.not_lt.mpr fits), if_pos short, size, Nat.add_assoc]
    refine ⟨_, made, .piece _ _ (.piece _ _ (.piece _ _ ?_)), ?_⟩
    · rw [size, ← Nat.add_assoc]
      exact .none _
    · rw [Entry.bytes, encodeLength, if_pos short]
      simp only [List.flatMap_cons, List.flatMap_nil, List.append_nil]
      rfl
  · have long : ¬ entry.value.length < 255 := short
    rw [if_neg long] at size
    have made : blockPieces place entry = .ok ([⟨place, [entry.type.toByte]⟩,
        ⟨place + 1, [longForm]⟩, ⟨place + 2, BigEndian.encode 2 entry.value.length⟩,
        ⟨place + 4, entry.value⟩], place + entry.bytes.length) := by
      rw [blockPieces, if_neg (Nat.not_lt.mpr fits), if_neg short, size, Nat.add_assoc]
    refine ⟨_, made, .piece _ _ (.piece _ _ (.piece _ _ (.piece _ _ ?_))), ?_⟩
    · rw [size, ← Nat.add_assoc]
      exact .none _
    · rw [Entry.bytes, encodeLength, if_neg short]
      simp only [List.flatMap_cons, List.flatMap_nil, List.append_nil]
      rfl

theorem exists_areaPieces {entries : List Entry} (fits : ∀ entry ∈ entries, entry.Fits)
    (place : Nat) :
    ∃ pieces, areaPieces place entries = .ok pieces ∧
      SideBySide place pieces (place + (entries.flatMap Entry.bytes ++ [terminator]).length) ∧
      pieces.flatMap Piece.run = entries.flatMap Entry.bytes ++ [terminator] := by
  induction entries generalizing place with
  | nil => exact ⟨_, rfl, .piece _ _ (.none _), rfl⟩
  | cons entry entries ih =>
      obtain ⟨block, made, pieced, runs⟩ := exists_blockPieces (fits entry List.mem_cons_self) place
      obtain ⟨others, othersMade, othersPieced, othersRuns⟩ :=
        ih (fun later member => fits later (List.mem_cons_of_mem _ member))
          (place + entry.bytes.length)
      refine ⟨block ++ others, ?_, ?_, ?_⟩
      · rw [areaPieces, made]
        show (areaPieces _ entries >>= _) = _
        rw [othersMade]
        rfl
      · rw [List.flatMap_cons, List.append_assoc, List.length_append, ← Nat.add_assoc]
        exact pieced.append othersPieced
      · rw [List.flatMap_append, runs, othersRuns, List.flatMap_cons, List.append_assoc]

theorem fillBlock_of_fits {entry : Entry} (fits : entry.Fits) :
    fillBlock entry = .ok entry.bytes := by
  obtain ⟨pieces, made, pieced, runs⟩ := exists_blockPieces fits 0
  rw [Nat.zero_add, ← blockSize_eq_length] at pieced
  rw [fillBlock, made, ← runs, ← storeAll_blank pieced]
  rfl

theorem fillArea_of_fits {entries : List Entry} (fits : ∀ entry ∈ entries, entry.Fits) :
    fillArea entries = .ok (entries.flatMap Entry.bytes ++ [terminator]) := by
  obtain ⟨pieces, made, pieced, runs⟩ := exists_areaPieces fits 0
  rw [Nat.zero_add, ← areaSize_eq_length] at pieced
  rw [fillArea, made, ← runs, ← storeAll_blank pieced]
  rfl

theorem mapM_fillBlock_of_fits {entries : List Entry} (fits : ∀ entry ∈ entries, entry.Fits) :
    entries.mapM fillBlock = .ok (entries.map Entry.bytes) := by
  induction entries with
  | nil => rfl
  | cons entry entries ih =>
      rw [List.mapM_cons, fillBlock_of_fits (fits entry List.mem_cons_self),
        ih fun later member => fits later (List.mem_cons_of_mem _ member)]
      rfl

/-! ## Values that are too long -/

/-- Of the blocks whose values are too long this is the first one. -/
def FirstTooLong (entries : List Entry) (entry : Entry) : Prop :=
  ∃ before after, entries = before ++ entry :: after ∧ (∀ earlier ∈ before, earlier.Fits) ∧
    ¬ entry.Fits

theorem fits_or_firstTooLong (entries : List Entry) :
    (∀ entry ∈ entries, entry.Fits) ∨ ∃ entry, FirstTooLong entries entry := by
  cases found : entries.find? (¬ Entry.Fits ·) with
  | none =>
      left
      simpa [List.find?_eq_none] using found
  | some entry =>
      right
      obtain ⟨long, before, after, split, earlier⟩ := List.find?_eq_some_iff_append.mp found
      exact ⟨entry, before, after, split, by simpa using earlier, of_decide_eq_true long⟩

variable {entries : List Entry} {entry : Entry}

theorem areaPieces_of_firstTooLong (first : FirstTooLong entries entry) (place : Nat) :
    areaPieces place entries = .error (.valueTooLong entry.value.length maxLength) := by
  obtain ⟨before, after, rfl, fits, long⟩ := first
  induction before generalizing place with
  | nil =>
      rw [List.nil_append, areaPieces, blockPieces, if_pos (Nat.lt_of_not_le long)]
      rfl
  | cons earlier before ih =>
      obtain ⟨block, made, -⟩ := exists_blockPieces (fits earlier List.mem_cons_self) place
      rw [List.cons_append, areaPieces, made]
      show (areaPieces _ (before ++ entry :: after) >>= _) = _
      rw [ih _ fun other member => fits other (List.mem_cons_of_mem _ member)]
      rfl

theorem fillArea_of_firstTooLong (first : FirstTooLong entries entry) :
    fillArea entries = .error (.valueTooLong entry.value.length maxLength) := by
  rw [fillArea, areaPieces_of_firstTooLong first]
  rfl

theorem encodeAll_of_firstTooLong (first : FirstTooLong entries entry) :
    encodeAll entries = .error (.valueTooLong entry.value.length maxLength) := by
  obtain ⟨before, after, rfl, fits, long⟩ := first
  induction before with
  | nil =>
      rw [List.nil_append, encodeAll, encode, if_pos (Nat.lt_of_not_le long)]
      rfl
  | cons earlier before ih =>
      rw [List.cons_append, encodeAll, encode_eq_bytes (fits earlier List.mem_cons_self),
        ih fun other member => fits other (List.mem_cons_of_mem _ member)]
      rfl

/-! ## Both ways of writing -/

theorem fillBlock_eq_encode (entry : Entry) : fillBlock entry = encode entry := by
  by_cases fits : entry.Fits
  · rw [fillBlock_of_fits fits, encode_eq_bytes fits]
  · rw [fillBlock, blockPieces, encode, if_pos (Nat.lt_of_not_le fits),
      if_pos (Nat.lt_of_not_le fits)]
    rfl

theorem fillArea_eq_encodeArea (entries : List Entry) : fillArea entries = encodeArea entries := by
  rcases fits_or_firstTooLong entries with fits | ⟨entry, first⟩
  · rw [fillArea_of_fits fits, encodeArea_eq_flatMap fits]
  · rw [fillArea_of_firstTooLong first, encodeArea, encodeAll_of_firstTooLong first]
    rfl

/-! ## What the bytes tell -/

/-- The blocks agree in all that is written of them: the type modulo 256, and the
value. -/
structure Entry.Agrees (entry other : Entry) : Prop where
  type : entry.type.truncate % 256 = other.type.truncate % 256
  value : entry.value = other.value

theorem toByte_eq_iff {v w : Binary64} :
    v.toByte = w.toByte ↔ v.truncate % 256 = w.truncate % 256 := by
  rw [← Binary64.toNat_toByte, ← Binary64.toNat_toByte, Int.natCast_inj, UInt8.toNat_inj]

theorem Entry.bytes_ne_nil (entry : Entry) : entry.bytes ≠ [] := List.cons_ne_nil _ _

theorem Entry.Agrees.bytes_eq {other : Entry} (agrees : entry.Agrees other) :
    entry.bytes = other.bytes := by
  rw [bytes, bytes, toByte_eq_iff.mpr agrees.type, agrees.value]

/-- Two blocks that begin the same bytes agree, and the same follows them. -/
theorem Entry.append_inj {other : Entry} (rest otherRest : Bytes) (fits : entry.Fits)
    (otherFits : other.Fits) (same : entry.bytes ++ rest = other.bytes ++ otherRest) :
    entry.Agrees other ∧ rest = otherRest := by
  simp only [bytes, List.cons_append, List.append_assoc] at same
  obtain ⟨type, fields⟩ := List.cons.inj same
  -- The length field is read off both, and says where the value ends.
  have read := lengthField?_encodeLength_append fits (entry.value ++ rest)
  rw [fields, lengthField?_encodeLength_append otherFits] at read
  simp only [Option.some.injEq, LengthField.mk.injEq] at read
  obtain ⟨-, length⟩ := read
  rw [length] at fields
  obtain ⟨value, rests⟩ := List.append_inj (List.append_cancel_left fields) length.symm
  exact ⟨⟨toByte_eq_iff.mp type, value⟩, rests⟩

theorem flatMap_bytes_eq_iff {others : List Entry} (fits : ∀ entry ∈ entries, entry.Fits)
    (otherFits : ∀ other ∈ others, other.Fits) :
    entries.flatMap Entry.bytes = others.flatMap Entry.bytes ↔
      List.Forall₂ Entry.Agrees entries others := by
  constructor
  · exact Bytes.forall₂_of_flatMap_eq Entry.bytes_ne_nil
      (fun entry other rest otherRest => Entry.append_inj rest otherRest) fits otherFits
  · intro agree
    induction agree with
    | nil => rfl
    | cons first _ ih =>
        rw [List.flatMap_cons, List.flatMap_cons, first.bytes_eq, ih]
        · exact fun entry member => fits entry (List.mem_cons_of_mem _ member)
        · exact fun other member => otherFits other (List.mem_cons_of_mem _ member)

theorem fits_of_fillArea {bytes : Bytes} (written : fillArea entries = .ok bytes) :
    ∀ entry ∈ entries, entry.Fits := by
  rcases fits_or_firstTooLong entries with fits | ⟨entry, first⟩
  · exact fits
  · rw [fillArea_of_firstTooLong first] at written
    cases written

/-! ## All of it -/

/-- What comes of writing a list of blocks into a buffer of their size. -/
structure Filled (entries : List Entry) : Prop where
  /-- A list is refused if a value in it is too long, and the first such one is named. -/
  refused_iff : ∀ report, (fillArea entries).mapError Fault.report = .error report ↔
    ∃ before entry after, entries = before ++ entry :: after ∧
      (∀ earlier ∈ before, earlier.value.length ≤ 0xfffe) ∧ 0xfffe < entry.value.length ∧
      report = .range s!"TLV value too long: {entry.value.length} bytes, max {0xfffe}"
  /-- Any other list is written as its blocks are, one behind the other, and a
  terminator behind them. -/
  written : (∀ entry ∈ entries, entry.value.length ≤ 0xfffe) →
    ∃ blocks, entries.mapM fillBlock = .ok blocks ∧
      fillArea entries = .ok (blocks.flatten ++ [0xfe])
  /-- Nothing is stored outside the bytes that were counted. -/
  inside : ∀ pieces, areaPieces 0 entries = .ok pieces →
    ∀ piece ∈ pieces, piece.place + piece.run.length ≤ areaSize entries
  /-- In every one of them something is stored. -/
  covered : ∀ pieces, areaPieces 0 entries = .ok pieces → ∀ i < areaSize entries,
    ∃ piece ∈ pieces, piece.place ≤ i ∧ i < piece.place + piece.run.length
  /-- The bytes are those of the list that agrees, and of no other one. -/
  bytes_eq_iff : ∀ others bytes otherBytes, fillArea entries = .ok bytes →
    fillArea others = .ok otherBytes →
    (bytes = otherBytes ↔ List.Forall₂ Entry.Agrees entries others)

theorem sideBySide_of_areaPieces {pieces : List Piece}
    (made : areaPieces 0 entries = .ok pieces) : SideBySide 0 pieces (areaSize entries) := by
  rcases fits_or_firstTooLong entries with fits | ⟨entry, first⟩
  · obtain ⟨others, othersMade, pieced, -⟩ := exists_areaPieces fits 0
    rw [Nat.zero_add, ← areaSize_eq_length] at pieced
    rwa [Except.ok.inj (made.symm.trans othersMade)]
  · rw [areaPieces_of_firstTooLong first] at made
    cases made

theorem report_fillArea_eq_error_iff {report : Report} :
    (fillArea entries).mapError Fault.report = .error report ↔
      ∃ entry, FirstTooLong entries entry ∧
        report = (Fault.valueTooLong entry.value.length maxLength).report := by
  constructor
  · intro refused
    rcases fits_or_firstTooLong entries with fits | ⟨entry, first⟩
    · rw [fillArea_of_fits fits] at refused
      cases refused
    · rw [fillArea_of_firstTooLong first] at refused
      cases refused
      exact ⟨entry, first, rfl⟩
  · rintro ⟨entry, first, rfl⟩
    rw [fillArea_of_firstTooLong first]
    rfl

/-- **An area fills the buffer of its size**, with its blocks one behind the other and
a terminator, and no other list gives the same bytes. -/
theorem area_fills_its_size (entries : List Entry) : Filled entries where
  refused_iff report := by
    rw [report_fillArea_eq_error_iff]
    constructor
    · rintro ⟨entry, ⟨before, after, split, fits, long⟩, rfl⟩
      exact ⟨before, entry, after, split, fits, Nat.lt_of_not_le long, rfl⟩
    · rintro ⟨before, entry, after, split, fits, long, rfl⟩
      exact ⟨entry, ⟨before, after, split, fits, Nat.not_le.mpr long⟩, rfl⟩
  written fits := by
    refine ⟨_, mapM_fillBlock_of_fits fits, ?_⟩
    rw [fillArea_of_fits fits, List.flatMap_def]
    rfl
  inside pieces made := (sideBySide_of_areaPieces made).stop_le
  covered pieces made i within := (sideBySide_of_areaPieces made).exists_piece (Nat.zero_le i) within
  bytes_eq_iff := by
    intro others bytes otherBytes written otherWritten
    have fits := fits_of_fillArea written
    have otherFits := fits_of_fillArea otherWritten
    obtain rfl := Except.ok.inj (written.symm.trans (fillArea_of_fits fits))
    obtain rfl := Except.ok.inj (otherWritten.symm.trans (fillArea_of_fits otherFits))
    rw [List.append_left_inj, flatMap_bytes_eq_iff fits otherFits]

/-- A block of the terminator's type has a length field like any other. -/
example : fillArea [⟨Binary64.ofInt 0xfe, []⟩] = .ok [0xfe, 0x00, 0xfe] := by decide +kernel

end NfcTag.Tlv
