/-
# NfcTag.Proofs.Message.Walk -- walking over a message that is cut anywhere

A walk reads record after record from where the last one ended (`walk_eq`).  Over
whole records it answers each of them and goes on behind them (`walk_layouts`);
what is left of a message that is cut is the front of one more record, which is
refused as truncated, or nothing.

Main statement: `walk_cut_message`.  Wherever a message is cut, a walk reads the
records that end at or before the cut, with their contents, and none besides.
-/
import Mathlib.Data.List.Forall2
import NfcTag.Proofs.Message.Layouts

namespace NfcTag.Message

set_option autoImplicit false

open Record (Contents Layout Parsed Cut)

/-! ## One step of a walk -/

/-- A walk is a loop over the parser, as long as bytes are left. -/
theorem walk_eq (buf : Bytes) (offset : Nat) :
    walk buf offset =
      if buf.length ≤ offset then ⟨[], offset, none⟩
      else
        match Record.parse buf offset with
        | .ok parsed =>
            let rest := walk buf (offset + parsed.size)
            { rest with records := parsed :: rest.records }
        | .error fault => ⟨[], offset, some fault⟩ := by
  rw [walk, walkFrom]
  by_cases past : buf.length ≤ offset
  · rw [if_pos (List.drop_eq_nil_of_le past), if_pos past]
  · rw [if_neg (mt List.drop_eq_nil_iff.mp past), if_neg past, Record.parse]
    cases read : Record.readFront (buf.drop offset) with
    | error fault => rfl
    | ok parsed =>
        simp only [Except.map, walk, List.drop_drop]
        rfl

/-- The records in front of what another walk read. -/
def Walk.behind (walk : Walk) (records : List Parsed) : Walk :=
  { walk with records := records ++ walk.records }

theorem walk_end (buf : Bytes) : walk buf buf.length = ⟨[], buf.length, none⟩ := by
  rw [walk_eq, if_pos (Nat.le_refl _)]

theorem walk_cut {bytes : Bytes} {fault : Fault} (cut : Cut bytes fault) (nonempty : bytes ≠ [])
    (front : Bytes) :
    walk (front ++ bytes) front.length = ⟨[], front.length, some fault⟩ := by
  have inside : ¬ (front ++ bytes).length ≤ front.length := by
    have some := List.length_pos_iff.mpr nonempty
    rw [List.length_append]
    omega
  rw [walk_eq, if_neg inside, Record.parse_append, Record.readFront_eq_error_iff.mpr cut]
  rfl

theorem walk_layout (layout : Layout) (front rest : Bytes) :
    walk (front ++ (layout.bytes ++ rest)) front.length =
      (walk (front ++ (layout.bytes ++ rest)) (front.length + layout.bytes.length)).behind
        [layout.parsed.shift front.length] := by
  have inside : ¬ (front ++ (layout.bytes ++ rest)).length ≤ front.length := by
    have positive : 0 < layout.parsed.size := layout.header.recordSize_pos
    rw [List.length_append, List.length_append, layout.length_bytes]
    omega
  conv => lhs; rw [walk_eq]
  rw [if_neg inside, Record.parse_append, Record.readFront_bytes_append, layout.length_bytes]
  rfl

/-! ## Whole records -/

/-- The records that layouts back to back are read as. -/
def located : (offset : Nat) → List Layout → List Parsed
  | _, [] => []
  | offset, layout :: rest =>
      layout.parsed.shift offset :: located (offset + layout.bytes.length) rest

/-- Whole records are read one by one, and the walk goes on behind them. -/
theorem walk_layouts (whole : List Layout) (front rest : Bytes) :
    walk (front ++ (whole.flatMap Layout.bytes ++ rest)) front.length =
      (walk (front ++ (whole.flatMap Layout.bytes ++ rest))
        (front.length + (whole.flatMap Layout.bytes).length)).behind
          (located front.length whole) := by
  induction whole generalizing front with
  | nil => rfl
  | cons layout whole ih =>
      have later := ih (front ++ layout.bytes)
      simp only [List.append_assoc, List.length_append] at later
      rw [List.flatMap_cons, List.append_assoc, walk_layout, later, List.length_append,
        ← Nat.add_assoc]
      rfl

theorem map_size_located (offset : Nat) (whole : List Layout) :
    (located offset whole).map Parsed.size = whole.map (·.bytes.length) := by
  induction whole generalizing offset with
  | nil => rfl
  | cons layout whole ih =>
      rw [located, List.map_cons, ih, List.map_cons, layout.length_bytes]
      rfl

/-- What is read of the first records of a message shows their contents. -/
theorem shows_located {records : List Contents} (isFirst : Bool)
    (fits : ∀ contents ∈ records, contents.Fits) {whole rest : List Layout}
    (split : layouts isFirst records fits = whole ++ rest) (front behind : Bytes) :
    List.Forall₂
      (fun (parsed : Parsed) contents => parsed.record.Shows
        (front ++ (whole.flatMap Layout.bytes ++ behind)) contents)
      (located front.length whole) (records.take whole.length) := by
  induction records generalizing isFirst whole front with
  | nil =>
      obtain ⟨rfl, -⟩ := List.append_eq_nil_iff.mp split.symm
      exact .nil
  | cons contents records ih =>
      cases whole with
      | nil => exact .nil
      | cons layout whole =>
          rw [layouts, List.cons_append, List.cons.injEq] at split
          obtain ⟨rfl, later⟩ := split
          have own := fits contents List.mem_cons_self
          have here := (Record.shows_layout own ⟨isFirst, records.isEmpty⟩ []).shift front
            (whole.flatMap Layout.bytes ++ behind)
          have others := ih false _ later
            (front ++ (contents.layout ⟨isFirst, records.isEmpty⟩ own).bytes)
          rw [List.append_nil] at here
          simp only [List.append_assoc, List.length_append] at others
          rw [List.flatMap_cons, List.append_assoc]
          exact .cons here others

/-! ## Boundaries -/

/-- Where the first `count` of several parts end. -/
def boundary (parts : List Bytes) (count : Nat) : Nat := (parts.take count).flatten.length

theorem boundary_mono (parts : List Bytes) {m n : Nat} (le : m ≤ n) :
    boundary parts m ≤ boundary parts n := by
  obtain ⟨more, longer⟩ := List.take_prefix_take_left le (l := parts)
  rw [boundary, boundary, ← longer, List.flatten_append, List.length_append]
  exact Nat.le_add_right _ _

theorem boundary_append (whole rest : List Bytes) :
    boundary (whole ++ rest) whole.length = whole.flatten.length := by
  rw [boundary, List.take_left]

/-- A cut leaves some parts whole, and of the next one not all. -/
theorem exists_whole (parts : List Bytes) {cut : Nat} (inside : cut ≤ parts.flatten.length) :
    ∃ whole rest left, parts = whole ++ rest ∧ parts.flatten.take cut = whole.flatten ++ left ∧
      left <+: rest.flatten ∧ ∀ part ∈ rest.head?, left.length < part.length := by
  induction parts generalizing cut with
  | nil => exact ⟨[], [], [], rfl, List.take_nil, List.prefix_rfl, fun _ none => by cases none⟩
  | cons part parts ih =>
      rw [List.flatten_cons, List.length_append] at inside
      by_cases short : cut < part.length
      · refine ⟨[], part :: parts, (part ++ parts.flatten).take cut, rfl, rfl,
          List.take_prefix _ _, ?_⟩
        rintro _ ⟨⟩
        rw [List.length_take]
        omega
      · obtain ⟨cut, rfl⟩ := Nat.exists_eq_add_of_le (Nat.le_of_not_lt short)
        have within : cut ≤ parts.flatten.length := by omega
        obtain ⟨whole, rest, left, rfl, kept, starts, cutOff⟩ := ih within
        refine ⟨part :: whole, rest, left, rfl, ?_, starts, cutOff⟩
        rw [List.flatten_cons, List.take_length_add_append, kept, List.flatten_cons,
          List.append_assoc]

/-- The parts that are left whole are those that end at or before the cut. -/
theorem boundary_le_iff {whole rest : List Bytes} {left : Bytes}
    (cutOff : ∀ part ∈ rest.head?, left.length < part.length) {count : Nat}
    (listed : count ≤ (whole ++ rest).length) :
    boundary (whole ++ rest) count ≤ whole.flatten.length + left.length ↔
      count ≤ whole.length := by
  constructor
  · intro before
    by_contra further
    cases rest with
    | nil =>
        rw [List.append_nil] at listed
        exact further listed
    | cons part rest =>
        have next := boundary_mono (whole ++ part :: rest)
          (show whole.length + 1 ≤ count by omega)
        have ends : boundary (whole ++ part :: rest) (whole.length + 1) =
            whole.flatten.length + part.length := by
          rw [List.append_cons, ← List.length_singleton (a := part), ← List.length_append,
            boundary_append, List.flatten_append, List.length_append, List.flatten_singleton]
        have short := cutOff part rfl
        omega
  · intro among
    have earlier := boundary_mono (whole ++ rest) among
    rw [boundary_append] at earlier
    omega

/-- A cut is at a boundary exactly if it is at the last one that is not behind it. -/
theorem boundary_eq_iff {parts : List Bytes} {count total cut : Nat} (listed : count ≤ total)
    (inside_iff : ∀ n ≤ total, boundary parts n ≤ cut ↔ n ≤ count) :
    boundary parts count = cut ↔ ∃ n ≤ total, boundary parts n = cut := by
  constructor
  · intro reached
    exact ⟨count, listed, reached⟩
  · rintro ⟨n, among, rfl⟩
    apply Nat.le_antisymm
    · exact (inside_iff count listed).mpr (Nat.le_refl _)
    · exact boundary_mono parts ((inside_iff n among).mp (Nat.le_refl _))

theorem drop_boundary (parts : List Bytes) (count : Nat) :
    parts.flatten.drop (boundary parts count) = (parts.drop count).flatten := by
  conv => lhs; rw [← List.take_append_drop count parts, List.flatten_append]
  rw [List.take_append_drop, boundary, List.drop_left]

theorem boundary_layouts (whole rest : List Layout) :
    boundary ((whole ++ rest).map Layout.bytes) whole.length =
      (whole.flatMap Layout.bytes).length := by
  rw [List.map_append, ← List.length_map Layout.bytes, boundary_append, List.flatMap_def]

theorem boundary_layouts_le_iff {whole rest : List Layout} {left : Bytes}
    (cutOff : ∀ part ∈ (rest.map Layout.bytes).head?, left.length < part.length) {count : Nat}
    (listed : count ≤ (whole ++ rest).length) :
    boundary ((whole ++ rest).map Layout.bytes) count ≤
        (whole.flatMap Layout.bytes ++ left).length ↔ count ≤ whole.length := by
  rw [← List.length_map Layout.bytes, List.map_append] at listed
  rw [List.map_append, List.length_append, List.flatMap_def, boundary_le_iff cutOff listed,
    List.length_map]

/-- At every boundary stand the flags of the next record. -/
theorem getElem?_boundary {all : List Layout} {i : Nat} {layout : Layout}
    (listed : all[i]? = some layout) :
    (all.flatMap Layout.bytes)[boundary (all.map Layout.bytes) i]? = some layout.flags.toByte := by
  obtain ⟨inside, rfl⟩ := List.getElem?_eq_some_iff.mp listed
  rw [← List.head?_drop, List.flatMap_def, drop_boundary, ← List.map_drop,
    List.drop_eq_getElem_cons inside, List.map_cons, List.flatten_cons]
  rfl

/-! ## Cut messages -/

/-- A walk over layouts that are cut reads the whole ones; what is left, if anything,
is a record that is truncated. -/
theorem walk_take (all : List Layout) {cut : Nat}
    (inside : cut ≤ (all.flatMap Layout.bytes).length) :
    ∃ whole rest left ending, all = whole ++ rest ∧
      (all.flatMap Layout.bytes).take cut = whole.flatMap Layout.bytes ++ left ∧
      (∀ part ∈ (rest.map Layout.bytes).head?, left.length < part.length) ∧
      walk (whole.flatMap Layout.bytes ++ left) 0 =
        ⟨located 0 whole, (whole.flatMap Layout.bytes).length, ending⟩ ∧
      (ending = none ↔ left = []) ∧
      ∀ fault, ending = some fault → fault.status? = some .truncated := by
  rw [List.flatMap_def] at inside
  obtain ⟨wholeParts, restParts, left, parts, kept, starts, cutOff⟩ := exists_whole _ inside
  obtain ⟨whole, rest, rfl, rfl, rfl⟩ := List.map_eq_append_iff.mp parts
  rw [← List.flatMap_def, ← List.flatMap_def] at kept
  have onward := walk_layouts whole [] left
  simp only [List.nil_append, List.length_nil, Nat.zero_add] at onward
  by_cases nothing : left = []
  · refine ⟨whole, rest, left, none, rfl, kept, cutOff, ?_, by simp [nothing], by simp⟩
    rw [onward, nothing, List.append_nil, walk_end]
    simp only [Walk.behind, List.append_nil]
  · -- A byte that is left belongs to the record behind the whole ones.
    cases rest with
    | nil => exact absurd (List.prefix_nil.mp starts) nothing
    | cons layout rest =>
        rw [List.map_cons, List.flatten_cons] at starts
        obtain ⟨fault, refused⟩ := layout.exists_cut starts (cutOff layout.bytes rfl)
        refine ⟨whole, layout :: rest, left, some fault, rfl, kept, cutOff, ?_, by simp [nothing],
          fun _ same => Option.some.inj same ▸ refused.status⟩
        rw [onward, walk_cut refused nothing]
        simp only [Walk.behind, List.append_nil]

/-- The bytes of a message part by part, one part a record. -/
structure Parts (records : List Contents) (bytes : Bytes) (parts : List Bytes) : Prop where
  flatten_eq : parts.flatten = bytes
  length_eq : parts.length = records.length
  encoded : ∀ i contents, records[i]? = some contents → ∃ part, parts[i]? = some part ∧
    Record.encode contents ⟨i = 0, i + 1 = records.length⟩ = .ok part
  /-- The first part alone has the flag that begins a message, and the last part
  alone the one that ends it. -/
  flags : ∀ i < records.length, ∃ byte, bytes[boundary parts i]? = some byte ∧
    (Record.Flags.ofByte byte).messageBegin = decide (i = 0) ∧
    (Record.Flags.ofByte byte).messageEnd = decide (i + 1 = records.length)

/-- A walk over `buf`, the front of a message, finds the first `count` records of
the message. -/
structure Finds (records : List Contents) (parts : List Bytes) (buf : Bytes) (count : Nat)
    (walk : Walk) : Prop where
  count_le : count ≤ records.length
  /-- Those are the ones that end inside. -/
  ends_inside_iff : ∀ n ≤ records.length, boundary parts n ≤ buf.length ↔ n ≤ count
  shows : List.Forall₂ (fun parsed contents => parsed.record.Shows buf contents) walk.records
    (records.take count)
  sizes : walk.records.map Parsed.size = (parts.take count).map List.length
  /-- The walk ends behind the last of them. -/
  stop_eq : walk.stop = boundary parts count
  /-- That is the end of the front exactly if the message was cut between two records. -/
  reached_iff : walk.stop = buf.length ↔ ∃ n ≤ records.length, boundary parts n = buf.length
  fault_iff : walk.fault = none ↔ walk.stop = buf.length
  truncated : ∀ fault, walk.fault = some fault → fault.status? = some .truncated

theorem parts_layouts {records : List Contents} (fits : ∀ contents ∈ records, contents.Fits) :
    Parts records ((layouts true records fits).flatMap Layout.bytes)
      ((layouts true records fits).map Layout.bytes) where
  flatten_eq := List.flatMap_def.symm
  length_eq := by rw [List.length_map, length_layouts]
  encoded i contents listed := by
    obtain ⟨own, found⟩ := getElem?_layouts true fits listed
    rw [Bool.true_and] at found
    refine ⟨_, by rw [List.getElem?_map, found]; rfl, Record.encode_eq_layout own _⟩
  flags i inside := by
    obtain ⟨own, found⟩ := getElem?_layouts true fits (List.getElem?_eq_getElem inside)
    rw [Bool.true_and] at found
    have first := getElem?_boundary found
    refine ⟨_, first, ?_, ?_⟩ <;> rw [Record.Flags.ofByte_toByte] <;> rfl

/-- Wherever the layouts of a message are cut, a walk finds those that are whole. -/
theorem finds_of_cut {records : List Contents} (fits : ∀ contents ∈ records, contents.Fits)
    {cut : Nat} (inside : cut ≤ ((layouts true records fits).flatMap Layout.bytes).length) :
    ∃ count, Finds records ((layouts true records fits).map Layout.bytes)
      (((layouts true records fits).flatMap Layout.bytes).take cut) count
      (walk (((layouts true records fits).flatMap Layout.bytes).take cut) 0) := by
  obtain ⟨whole, rest, left, ending, split, kept, cutOff, walked, ended, truncated⟩ :=
    walk_take _ inside
  have total := length_layouts true fits
  rw [split, List.length_append] at total
  have listed : whole.length ≤ records.length := by omega
  have shows := shows_located true fits split [] left
  rw [kept, walked, split]
  have inside_iff (n : Nat) (among : n ≤ records.length) :
      boundary ((whole ++ rest).map Layout.bytes) n ≤
        (whole.flatMap Layout.bytes ++ left).length ↔ n ≤ whole.length :=
    boundary_layouts_le_iff cutOff (by rw [List.length_append]; omega)
  refine ⟨whole.length, ?_⟩
  constructor
  case count_le => exact listed
  case ends_inside_iff => exact inside_iff
  case shows => exact shows
  case sizes =>
    rw [map_size_located, List.map_append, List.take_left' (List.length_map _), List.map_map]
    rfl
  case stop_eq => exact (boundary_layouts whole rest).symm
  case reached_iff =>
    rw [← boundary_eq_iff listed inside_iff, boundary_layouts]
  case fault_iff =>
    show ending = none ↔ (whole.flatMap Layout.bytes).length = _
    rw [ended, List.length_append, ← List.length_eq_zero_iff]
    omega
  case truncated => exact truncated

/-- **Wherever a written message is cut, a walk finds the records that end at or
before the cut**, shows their contents and stops behind the last of them: at the
cut, or because the next record is truncated.  A message that is not cut is found
as a whole. -/
theorem walk_cut_message {records : List Contents} {bytes : Bytes}
    (written : encode records = .ok bytes)
    (small : ∀ contents ∈ records, contents.payload.length < 0x100000000) :
    ∃ parts, Parts records bytes parts ∧
      (∀ cut ≤ bytes.length, ∃ count,
        Finds records parts (bytes.take cut) count (walk (bytes.take cut) 0)) ∧
      (walk bytes 0).stop = bytes.length ∧ (walk bytes 0).fault = none ∧
      List.Forall₂ (fun parsed contents => parsed.record.Shows bytes contents)
        (walk bytes 0).records records := by
  obtain ⟨nonempty, fits⟩ := fits_of_encode written small
  obtain rfl := Except.ok.inj (written.symm.trans (encode_eq_flatMap nonempty fits))
  have parts := parts_layouts fits
  refine ⟨_, parts, fun cut inside => finds_of_cut fits inside, ?_⟩
  -- The whole message is the cut at its end, which is the last boundary.
  obtain ⟨count, found⟩ := finds_of_cut fits (Nat.le_refl _)
  rw [List.take_length] at found
  have last : boundary ((layouts true records fits).map Layout.bytes) records.length =
      ((layouts true records fits).flatMap Layout.bytes).length := by
    rw [boundary, ← parts.length_eq, List.take_length, parts.flatten_eq]
  have all : records.length ≤ count :=
    (found.ends_inside_iff _ (Nat.le_refl _)).mp (Nat.le_of_eq last)
  have reached := found.reached_iff.mpr ⟨_, Nat.le_refl _, last⟩
  have shows := found.shows
  rw [List.take_of_length_le all] at shows
  exact ⟨reached, found.fault_iff.mpr reached, shows⟩

/-- A long record with an empty id, and a record with an id and no payload. -/
theorem walk_cut_message_long :
    let records : List Contents :=
      [⟨Binary64.ofInt 11, [0x61], some [], List.replicate 256 0x2a⟩,
        ⟨Binary64.ofInt (-2), [0x62], some [0x69], []⟩]
    let bytes : Bytes := [0x8b, 0x01, 0x00, 0x00, 0x01, 0x00, 0x00, 0x61] ++
      List.replicate 256 0x2a ++ [0x5e, 0x01, 0x00, 0x01, 0x62, 0x69]
    encode records = .ok bytes ∧
      (∀ contents ∈ records, contents.payload.length < 0x100000000) ∧
      ∃ parts, Parts records bytes parts ∧
        (∀ cut ≤ bytes.length, ∃ count,
          Finds records parts (bytes.take cut) count (walk (bytes.take cut) 0)) ∧
        (walk bytes 0).stop = bytes.length ∧ (walk bytes 0).fault = none ∧
        List.Forall₂ (fun parsed contents => parsed.record.Shows bytes contents)
          (walk bytes 0).records records := by
  intro records bytes
  have written : encode records = .ok bytes := by decide +kernel
  have small : ∀ contents ∈ records, contents.payload.length < 0x100000000 := by decide +kernel
  exact ⟨written, small, walk_cut_message written small⟩

end NfcTag.Message
