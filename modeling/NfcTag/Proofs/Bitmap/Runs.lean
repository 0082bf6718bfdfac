/-
# NfcTag.Proofs.Bitmap.Runs -- setting and clearing bits one after another

The bits of a bitmap are the binary digits of one number, `value`.  Setting or
clearing a bit gives one of them a new value and leaves all others alone
(`testBit_value_after`).  Which one that is, `address` says: the bit that the
caller's number names, as long as its index has 32 bits.  What a whole run leaves
behind follows by induction over its calls.

Main statement: `last_switch_wins_iff`.  In a bitmap every bit is what it was last
given, whatever the run, exactly if there are 32-bit indices for all bits; in a
longer one, two indices lead to one bit.
-/
import Mathlib.Algebra.BigOperators.Fin
import NfcTag.Bitmap
import NfcTag.Fault.Report
import NfcTag.Proofs.Number.Exact

namespace NfcTag.Bitmap

set_option autoImplicit false

variable {bitmap : Bytes} {index : Binary64} {bit : Nat} {on : Bool}

/-! ## One number for all bits -/

theorem value_eq_sum (bitmap : Bytes) :
    value bitmap = ∑ j : Fin bitmap.length, bitmap[j].toNat * 256 ^ j.val := by
  induction bitmap with
  | nil => rfl
  | cons b rest ih =>
      have first := Fin.sum_univ_succ fun j : Fin (rest.length + 1) =>
        (b :: rest)[j].toNat * 256 ^ j.val
      rw [value, ih, Finset.mul_sum]
      refine Eq.trans ?_ first.symm
      congr 1
      · exact (Nat.mul_one _).symm
      · refine Finset.sum_congr rfl fun j _ => ?_
        show 256 * (rest[j].toNat * 256 ^ j.val) = rest[j].toNat * 256 ^ (j.val + 1)
        rw [pow_succ, Nat.mul_left_comm, Nat.mul_comm 256]

theorem testBit_value (bitmap : Bytes) (i : Nat) :
    (value bitmap).testBit i = (bitmap.getD (i / 8) 0).toNat.testBit (i % 8) := by
  induction bitmap generalizing i with
  | nil => simp [value]
  | cons b rest ih =>
      rw [value, Nat.add_comm, show 256 = 2 ^ 8 from rfl,
        Nat.testBit_two_pow_mul_add _ b.toNat_lt]
      by_cases low : i < 8
      · rw [if_pos low, Nat.div_eq_of_lt low, Nat.mod_eq_of_lt low]
        rfl
      · obtain ⟨k, rfl⟩ : ∃ k, i = k + 8 := ⟨i - 8, by omega⟩
        rw [if_neg low, Nat.add_sub_cancel, ih, Nat.add_div_right _ (by decide),
          Nat.add_mod_right, List.getD_cons_succ]

/-! ## Indices -/

/-- In a bitmap of `length` bytes the number is the index of this bit. -/
structure Names (length : Nat) (index : Binary64) (bit : Nat) : Prop where
  whole : index.toNat? = some bit
  inside : bit < 8 * length

/-- The bit at which an index is looked up: bytes are addressed by 32-bit indices. -/
def address (bit : Nat) : Nat := bit % 0x100000000

theorem Names.unique {length other : Nat} (names : Names length index bit)
    (otherNames : Names length index other) : bit = other :=
  Option.some.inj (names.whole.symm.trans otherNames.whole)

theorem Names.bit?_eq (names : Names bitmap.length index bit) : bit? bitmap index = some bit :=
  bit?_eq_some_iff.mpr ⟨names.whole, names.inside⟩

theorem bit?_eq_none (nameless : ¬ ∃ bit, Names bitmap.length index bit) :
    bit? bitmap index = none := by
  cases found : bit? bitmap index with
  | none => rfl
  | some bit =>
      obtain ⟨whole, inside⟩ := bit?_eq_some_iff.mp found
      exact absurd ⟨bit, whole, inside⟩ nameless

theorem address_eq_self (small : bit < 0x100000000) : address bit = bit := Nat.mod_eq_of_lt small

theorem Names.byteOf_lt {length : Nat} (names : Names length index bit) : byteOf bit < length := by
  have inside := names.inside
  have below : bit % 0x100000000 ≤ bit := Nat.mod_le _ _
  rw [byteOf]
  omega

theorem isSet_of_names (names : Names bitmap.length index bit) :
    isSet bitmap index = .ok ((value bitmap).testBit (address bit)) := by
  have low : address bit % 8 = bit % 8 := by
    rw [address]
    omega
  rw [isSet, names.bit?_eq, testBit_value, low]
  rfl

/-! ## One call -/

/-- Of all bits only the one at the address changes. -/
theorem testBit_value_modify (inside : byteOf bit < bitmap.length) (on : Bool) (i : Nat) :
    (value (bitmap.modify (byteOf bit) (put bit on))).testBit i =
      if address bit = i then on else (value bitmap).testBit i := by
  have split : address bit = i ↔ byteOf bit = i / 8 ∧ bit % 8 = i % 8 := by
    rw [address, byteOf]
    omega
  rw [testBit_value, testBit_value, List.getD_eq_getElem?_getD, List.getElem?_modify]
  by_cases here : byteOf bit = i / 8
  · rw [← here, List.getD_eq_getElem?_getD, List.getElem?_eq_getElem inside]
    simp only [split, here, if_true, true_and, Option.map_eq_map, Option.map_some,
      Option.getD_some]
    exact testBit_put bit on _ _ (Nat.mod_lt _ (by decide))
  · simp only [split, here, if_false, false_and, id_map', List.getD_eq_getElem?_getD]

/-- A bit to set or to clear, and the number by which a caller names it. -/
structure Switch where
  index : Binary64
  on : Bool

namespace Switch

/-- The bitmap with the bit set or cleared, unless that is refused. -/
def apply (switch : Switch) (bitmap : Bytes) : Except Fault Bytes :=
  set bitmap switch.index switch.on

/-- The bitmap after a call that may have been refused. -/
def after (switch : Switch) (bitmap : Bytes) : Bytes :=
  match switch.apply bitmap with
  | .ok switched => switched
  | .error _ => bitmap

variable {switch : Switch}

theorem apply_of_names (names : Names bitmap.length switch.index bit) :
    switch.apply bitmap = .ok (bitmap.modify (byteOf bit) (put bit switch.on)) := by
  rw [apply, set, names.bit?_eq]

theorem apply_of_nameless (nameless : ¬ ∃ bit, Names bitmap.length switch.index bit) :
    switch.apply bitmap = .error (.bitOutside switch.index bitmap.length) := by
  rw [apply, set, bit?_eq_none nameless]

/-- A call is refused if its number is the index of no bit, and for no other reason. -/
theorem apply_eq_error_iff {fault : Fault} :
    switch.apply bitmap = .error fault ↔
      (¬ ∃ bit, Names bitmap.length switch.index bit) ∧
        fault = .bitOutside switch.index bitmap.length := by
  constructor
  · intro refused
    have nameless : ¬ ∃ bit, Names bitmap.length switch.index bit := by
      rintro ⟨bit, names⟩
      rw [apply_of_names names] at refused
      cases refused
    rw [apply_of_nameless nameless] at refused
    cases refused
    exact ⟨nameless, rfl⟩
  · rintro ⟨nameless, rfl⟩
    exact apply_of_nameless nameless

theorem after_of_names (names : Names bitmap.length switch.index bit) :
    switch.after bitmap = bitmap.modify (byteOf bit) (put bit switch.on) := by
  rw [after, apply_of_names names]

theorem after_of_nameless (nameless : ¬ ∃ bit, Names bitmap.length switch.index bit) :
    switch.after bitmap = bitmap := by
  rw [after, apply_of_nameless nameless]

@[simp] theorem length_after (switch : Switch) (bitmap : Bytes) :
    (switch.after bitmap).length = bitmap.length := by
  rw [after]
  split
  · rename_i switched stored
    exact length_set stored
  · rfl

/-- In a bitmap of `length` bytes the call reaches bit `i`. -/
def Reaches (switch : Switch) (length i : Nat) : Prop :=
  ∃ bit, Names length switch.index bit ∧ address bit = i

theorem testBit_value_after_of_reaches {i : Nat} (reaches : switch.Reaches bitmap.length i) :
    (value (switch.after bitmap)).testBit i = switch.on := by
  obtain ⟨bit, names, here⟩ := reaches
  rw [after_of_names names, testBit_value_modify names.byteOf_lt, if_pos here]

theorem testBit_value_after_of_not_reaches {i : Nat} (aside : ¬ switch.Reaches bitmap.length i) :
    (value (switch.after bitmap)).testBit i = (value bitmap).testBit i := by
  by_cases named : ∃ bit, Names bitmap.length switch.index bit
  · obtain ⟨bit, names⟩ := named
    rw [after_of_names names, testBit_value_modify names.byteOf_lt, if_neg]
    exact fun here => aside ⟨bit, names, here⟩
  · rw [after_of_nameless named]

/-! ## Runs -/

/-- The bitmap after calls one after another, of which any may be refused. -/
def run (bitmap : Bytes) (switches : List Switch) : Bytes :=
  switches.foldl (fun bitmap switch => switch.after bitmap) bitmap

theorem run_cons (bitmap : Bytes) (switch : Switch) (switches : List Switch) :
    run bitmap (switch :: switches) = run (switch.after bitmap) switches := rfl

theorem run_append (bitmap : Bytes) (switches more : List Switch) :
    run bitmap (switches ++ more) = run (run bitmap switches) more := List.foldl_append

@[simp] theorem length_run (bitmap : Bytes) (switches : List Switch) :
    (run bitmap switches).length = bitmap.length := by
  induction switches generalizing bitmap with
  | nil => rfl
  | cons switch switches ih => rw [run_cons, ih, length_after]

theorem testBit_value_run_of_not_reaches {i : Nat} {switches : List Switch}
    (aside : ∀ switch ∈ switches, ¬ switch.Reaches bitmap.length i) :
    (value (run bitmap switches)).testBit i = (value bitmap).testBit i := by
  induction switches generalizing bitmap with
  | nil => rfl
  | cons switch switches ih =>
      have rest : ∀ later ∈ switches, ¬ later.Reaches (switch.after bitmap).length i := by
        intro later member
        rw [length_after]
        exact aside later (List.mem_cons_of_mem _ member)
      rw [run_cons, ih rest,
        testBit_value_after_of_not_reaches (aside switch List.mem_cons_self)]

/-- The last call that reaches a bit decides it. -/
theorem testBit_value_run_of_last {i : Nat} {later : List Switch} (before : List Switch)
    (reaches : switch.Reaches bitmap.length i)
    (last : ∀ other ∈ later, ¬ other.Reaches bitmap.length i) :
    (value (run bitmap (before ++ switch :: later))).testBit i = switch.on := by
  rw [run_append, run_cons, testBit_value_run_of_not_reaches (by simpa using last)]
  exact testBit_value_after_of_reaches (by rwa [length_run])

/-! ## The law of runs -/

/-- What a run of calls makes of a bitmap. -/
structure LastWins (bitmap : Bytes) (switches : List Switch) : Prop where
  length_eq : (run bitmap switches).length = bitmap.length
  /-- A call is refused exactly if its number is not the index of a bit. -/
  refused_iff : ∀ before switch later, switches = before ++ switch :: later → ∀ report,
    (switch.apply (run bitmap before)).mapError Fault.report = .error report ↔
      (¬ ∃ bit, Names bitmap.length switch.index bit) ∧
        report = .range (Fault.bitOutside switch.index bitmap.length).message
  /-- It then changes nothing. -/
  refused_keeps : ∀ before switch later, switches = before ++ switch :: later →
    (¬ ∃ bit, Names bitmap.length switch.index bit) →
    run bitmap (before ++ [switch]) = run bitmap before
  /-- A bit that no call names is what it was. -/
  untouched : ∀ index bit, Names bitmap.length index bit →
    (∀ switch ∈ switches, ¬ Names bitmap.length switch.index bit) →
    isSet (run bitmap switches) index =
      .ok ((∑ j : Fin bitmap.length, bitmap[j].toNat * 256 ^ j.val).testBit bit)
  /-- Any other bit is what the last call that names it makes it. -/
  last : ∀ before switch later index bit, switches = before ++ switch :: later →
    Names bitmap.length index bit → Names bitmap.length switch.index bit →
    (∀ other ∈ later, ¬ Names bitmap.length other.index bit) →
    isSet (run bitmap switches) index = .ok switch.on

/-- With 32-bit indices for all bits, a call reaches the bit that it names. -/
theorem reaches_iff_names {length : Nat} (small : 8 * length ≤ 0x100000000) :
    switch.Reaches length bit ↔ Names length switch.index bit := by
  constructor
  · rintro ⟨named, names, rfl⟩
    rwa [address_eq_self (Nat.lt_of_lt_of_le names.inside small)]
  · intro names
    exact ⟨bit, names, address_eq_self (Nat.lt_of_lt_of_le names.inside small)⟩

theorem lastWins_of_small (small : 8 * bitmap.length ≤ 0x100000000) (switches : List Switch) :
    LastWins bitmap switches where
  length_eq := length_run bitmap switches
  refused_iff := by
    rintro before switch later rfl report
    rw [mapError_report_eq_error_iff fun _ => apply_eq_error_iff]
    simp only [Fault.report, Fault.status?, length_run]
  refused_keeps := by
    rintro before switch later rfl nameless
    rw [run_append, run_cons, after_of_nameless (by rwa [length_run])]
    rfl
  untouched index bit names aside := by
    have same : address bit = bit := address_eq_self (Nat.lt_of_lt_of_le names.inside small)
    rw [← value_eq_sum, isSet_of_names (by rwa [length_run]), same,
      testBit_value_run_of_not_reaches]
    exact fun switch member reaches => aside switch member ((reaches_iff_names small).mp reaches)
  last := by
    rintro before switch later index bit rfl names switchNames others
    have same : address bit = bit := address_eq_self (Nat.lt_of_lt_of_le names.inside small)
    rw [isSet_of_names (by rwa [length_run]), same, testBit_value_run_of_last]
    · exact (reaches_iff_names small).mpr switchNames
    · exact fun other member reaches => others other member ((reaches_iff_names small).mp reaches)

/-! ## Indices of more than 32 bits -/

/-- The first index that needs 33 bits. -/
def wide : Binary64 := Binary64.ofInt 0x100000000

theorem names_wide {length : Nat} (long : 0x100000000 < 8 * length) :
    Names length wide 0x100000000 :=
  ⟨Binary64.toNat?_ofInt (by decide), long⟩

/-- It is looked up where the first bit of all is. -/
theorem isSet_wide (long : 0x100000000 < 8 * bitmap.length) :
    isSet bitmap wide = .ok ((value bitmap).testBit 0) :=
  isSet_of_names (names_wide long)

/-- In a bitmap with more bits, a call for the first of them changes another one, too. -/
theorem small_of_lastWins (wins : ∀ switches, LastWins bitmap switches) :
    8 * bitmap.length ≤ 0x100000000 := by
  refine Nat.le_of_not_lt fun long => ?_
  have first : Names bitmap.length (Binary64.ofInt 0) 0 :=
    ⟨Binary64.toNat?_ofInt (by decide), Nat.lt_of_le_of_lt (Nat.zero_le _) long⟩
  have other : ¬ Names bitmap.length (Binary64.ofInt 0) 0x100000000 := fun names =>
    absurd (first.unique names) (by decide)
  have flipped (on : Bool) : on = (value bitmap).testBit 0x100000000 := by
    let switch : Switch := ⟨Binary64.ofInt 0, on⟩
    have kept := (wins [switch]).untouched wide 0x100000000 (names_wide long) fun call member => by
      rwa [List.mem_singleton.mp member]
    have changed : (value (run bitmap [switch])).testBit 0 = on :=
      testBit_value_after_of_reaches ⟨0, first, rfl⟩
    rw [← value_eq_sum, isSet_wide (by rwa [length_run]), changed] at kept
    exact Except.ok.inj kept
  exact Bool.false_ne_true ((flipped false).trans (flipped true).symm)

/-- **After any run every bit is what the last call that named it made it**, exactly in
the bitmaps in which all indices have 32 bits. -/
theorem last_switch_wins_iff (bitmap : Bytes) :
    (∀ switches, LastWins bitmap switches) ↔ 8 * bitmap.length ≤ 0x100000000 :=
  ⟨small_of_lastWins, lastWins_of_small⟩

/-- Of a bitmap that begins with a one and has zeros behind it only the first bit is set. -/
theorem testBit_value_one_zeros (count i : Nat) :
    (value (0x01 :: List.replicate count 0x00)).testBit i = decide (0 = i) := by
  have rest : value (List.replicate count 0x00) = 0 := by
    induction count with
    | zero => rfl
    | succ count ih => rw [List.replicate_succ, value, ih]; rfl
  rw [value, rest, ← Nat.testBit_two_pow]
  rfl

/-- The shortest bitmap that is too long, with its first bit set: its last byte is zero,
and the first bit of that byte reads as set. -/
theorem last_byte_reads_as_first :
    let bitmap : Bytes := 0x01 :: List.replicate 0x20000000 0x00
    Names bitmap.length wide 0x100000000 ∧
      isSet bitmap wide = .ok true ∧
      (∑ j : Fin bitmap.length, bitmap[j].toNat * 256 ^ j.val).testBit 0x100000000 = false ∧
      ¬ LastWins bitmap [] := by
  intro bitmap
  have long : 0x100000000 < 8 * bitmap.length := by
    rw [List.length_cons, List.length_replicate]
    decide
  have read : isSet bitmap wide = .ok true := by
    rw [isSet_wide long, testBit_value_one_zeros, decide_eq_true rfl]
  have zero : (∑ j : Fin bitmap.length, bitmap[j].toNat * 256 ^ j.val).testBit 0x100000000 =
      false := by
    rw [← value_eq_sum, testBit_value_one_zeros]
    decide
  refine ⟨names_wide long, read, zero, fun wins => ?_⟩
  have kept := wins.untouched wide _ (names_wide long) fun _ member => by
    cases member
  rw [zero] at kept
  exact absurd (read.symm.trans kept) (by decide)

end Switch

end NfcTag.Bitmap
