/-
# NfcTag.Proofs.Field.Runs -- many stores into one buffer

Callers store values one after another, each at a place that they name by any
number at all.  A store that is refused changes nothing; an accepted one gives
every place of its own field a byte (`getElem?_after_of_liesAt`) and leaves all
others alone (`getElem?_after_of_not_covers`).  What a whole run leaves behind
follows by induction over its calls, of which the last one that reaches a place
decides.

Main statement: `last_store_wins`.
-/
import NfcTag.Fault.Report
import NfcTag.Field.Normal
import NfcTag.Field.Store
import NfcTag.Proofs.Bytes.Holds

namespace NfcTag

set_option autoImplicit false

/-- A value to store, and the number by which a caller names the place for it. -/
structure Store where
  field : Field
  value : field.Value
  offset : Binary64

namespace Store

/-! ## One store -/

def bytes (store : Store) : Bytes := store.field.encode store.value

/-- The buffer with the value stored, unless that is refused. -/
def apply (store : Store) (buf : Bytes) : Except Fault Bytes :=
  store.field.write store.value buf store.offset

/-- The buffer after a store that may have been refused. -/
def after (store : Store) (buf : Bytes) : Bytes :=
  match store.apply buf with
  | .ok stored => stored
  | .error _ => buf

/-- In a buffer of `length` bytes the field comes to stand at `place`. -/
structure LiesAt (store : Store) (length place : Nat) : Prop where
  named : store.offset.toNat? = some place
  fits : place + store.field.size ≤ length

/-- In a buffer of `length` bytes the store is accepted and gives place `i` a byte. -/
def Covers (store : Store) (length i : Nat) : Prop :=
  ∃ place, store.LiesAt length place ∧ place ≤ i ∧ i < place + store.field.size

/-- In a buffer of `length` bytes no place is given a byte by both stores. -/
def Apart (length : Nat) (one other : Store) : Prop :=
  ∀ i, ¬ (one.Covers length i ∧ other.Covers length i)

variable {store : Store} {buf : Bytes} {place i : Nat}

@[simp] theorem length_bytes (store : Store) : store.bytes.length = store.field.size :=
  store.field.length_encode store.value

theorem LiesAt.unique {length other : Nat} (lies : store.LiesAt length place)
    (otherLies : store.LiesAt length other) : place = other :=
  Option.some.inj (lies.named.symm.trans otherLies.named)

theorem apply_of_liesAt (lies : store.LiesAt buf.length place) :
    store.apply buf = .ok (buf.overwrite place store.bytes) :=
  Field.write_of_place store.value lies.named lies.fits

theorem apply_of_outside (outside : ¬ ∃ place, store.LiesAt buf.length place) :
    store.apply buf = .error (store.field.outside buf store.offset) := by
  have nowhere : store.field.place? buf store.offset = none := by
    cases found : store.field.place? buf store.offset with
    | none => rfl
    | some place =>
        obtain ⟨named, fits⟩ := Field.place?_eq_some_iff.mp found
        exact absurd ⟨place, named, fits⟩ outside
  rw [apply, Field.write, nowhere]

/-- A store is refused if no place for it was named, and for no other reason. -/
theorem apply_eq_error_iff {fault : Fault} :
    store.apply buf = .error fault ↔
      (¬ ∃ place, store.LiesAt buf.length place) ∧
        fault = store.field.outside buf store.offset := by
  constructor
  · intro refused
    have outside : ¬ ∃ place, store.LiesAt buf.length place := by
      rintro ⟨place, lies⟩
      rw [apply_of_liesAt lies] at refused
      cases refused
    rw [apply_of_outside outside] at refused
    cases refused
    exact ⟨outside, rfl⟩
  · rintro ⟨outside, rfl⟩
    exact apply_of_outside outside

theorem after_of_liesAt (lies : store.LiesAt buf.length place) :
    store.after buf = buf.overwrite place store.bytes := by
  rw [after, apply_of_liesAt lies]

theorem after_of_outside (outside : ¬ ∃ place, store.LiesAt buf.length place) :
    store.after buf = buf := by
  rw [after, apply_of_outside outside]

@[simp] theorem length_after (store : Store) (buf : Bytes) :
    (store.after buf).length = buf.length := by
  rw [after]
  split
  · rename_i stored accepted
    exact Field.length_write accepted
  · rfl

/-! ### The bytes after it -/

theorem getElem?_after_of_liesAt (lies : store.LiesAt buf.length place) (behind : place ≤ i)
    (before : i < place + store.field.size) :
    (store.after buf)[i]? = store.bytes[i - place]? := by
  rw [after_of_liesAt lies, Bytes.getElem?_overwrite (by simpa using lies.fits), if_pos]
  simpa using ⟨behind, before⟩

theorem getElem?_after_of_not_covers (aside : ¬ store.Covers buf.length i) :
    (store.after buf)[i]? = buf[i]? := by
  by_cases inside : ∃ place, store.LiesAt buf.length place
  · obtain ⟨place, lies⟩ := inside
    rw [after_of_liesAt lies, Bytes.getElem?_overwrite (by simpa using lies.fits), if_neg]
    rintro ⟨behind, before⟩
    rw [length_bytes] at before
    exact aside ⟨place, lies, behind, before⟩
  · rw [after_of_outside inside]

/-- Stores that are apart may be made in either order. -/
theorem after_comm {one other : Store} (apart : Apart buf.length one other) :
    other.after (one.after buf) = one.after (other.after buf) := by
  apply List.ext_getElem?
  intro i
  by_cases first : one.Covers buf.length i
  · have second : ¬ other.Covers buf.length i := fun second => apart i ⟨first, second⟩
    obtain ⟨place, lies, behind, before⟩ := first
    rw [getElem?_after_of_not_covers (by rwa [length_after]),
      getElem?_after_of_liesAt lies behind before,
      getElem?_after_of_liesAt (by rwa [length_after]) behind before]
  · have kept : (one.after (other.after buf))[i]? = (other.after buf)[i]? :=
      getElem?_after_of_not_covers (by rwa [length_after])
    rw [kept]
    by_cases second : other.Covers buf.length i
    · obtain ⟨place, lies, behind, before⟩ := second
      rw [getElem?_after_of_liesAt lies behind before,
        getElem?_after_of_liesAt (by rwa [length_after]) behind before]
    · rw [getElem?_after_of_not_covers second,
        getElem?_after_of_not_covers (by rwa [length_after]),
        getElem?_after_of_not_covers first]

/-! ## Runs -/

/-- The buffer after stores one after another, of which any may be refused. -/
def run (buf : Bytes) (stores : List Store) : Bytes :=
  stores.foldl (fun buf store => store.after buf) buf

/-- The buffer after stores one after another, unless one of them is refused. -/
def runAll (buf : Bytes) (stores : List Store) : Except Fault Bytes :=
  stores.foldlM (fun buf store => store.apply buf) buf

theorem run_cons (buf : Bytes) (store : Store) (stores : List Store) :
    run buf (store :: stores) = run (store.after buf) stores := rfl

theorem run_append (buf : Bytes) (stores more : List Store) :
    run buf (stores ++ more) = run (run buf stores) more := List.foldl_append

@[simp] theorem length_run (buf : Bytes) (stores : List Store) :
    (run buf stores).length = buf.length := by
  induction stores generalizing buf with
  | nil => rfl
  | cons store stores ih => rw [run_cons, ih, length_after]

/-- A run of which no store is refused. -/
theorem runAll_eq_run {stores : List Store}
    (accepted : ∀ store ∈ stores, ∃ place, store.LiesAt buf.length place) :
    runAll buf stores = .ok (run buf stores) := by
  induction stores generalizing buf with
  | nil => rfl
  | cons store stores ih =>
      obtain ⟨place, lies⟩ := accepted store List.mem_cons_self
      have rest : ∀ later ∈ stores, ∃ place, later.LiesAt (store.after buf).length place := by
        intro later member
        rw [length_after]
        exact accepted later (List.mem_cons_of_mem _ member)
      have onward := ih rest
      rw [after_of_liesAt lies] at onward
      rw [run_cons, after_of_liesAt lies, ← onward, runAll, List.foldlM_cons, apply_of_liesAt lies]
      rfl

theorem getElem?_run_of_not_covers {stores : List Store}
    (aside : ∀ store ∈ stores, ¬ store.Covers buf.length i) : (run buf stores)[i]? = buf[i]? := by
  induction stores generalizing buf with
  | nil => rfl
  | cons store stores ih =>
      have rest : ∀ later ∈ stores, ¬ later.Covers (store.after buf).length i := by
        intro later member
        rw [length_after]
        exact aside later (List.mem_cons_of_mem _ member)
      rw [run_cons, ih rest, getElem?_after_of_not_covers (aside store List.mem_cons_self)]

/-- The last store that reaches a place decides its byte. -/
theorem getElem?_run_of_last {later : List Store} (before : List Store)
    (lies : store.LiesAt buf.length place) (behind : place ≤ i)
    (inside : i < place + store.field.size) (last : ∀ other ∈ later, ¬ other.Covers buf.length i) :
    (run buf (before ++ store :: later))[i]? = store.bytes[i - place]? := by
  rw [run_append, run_cons]
  rw [getElem?_run_of_not_covers (by simpa using last)]
  exact getElem?_after_of_liesAt (by rwa [length_run]) behind inside

/-- Stores of what stands in `bytes` make a place what it is there, once one of them
has reached it. -/
theorem getElem?_run_of_holds {stores : List Store} {bytes : Bytes}
    (agree : ∀ store ∈ stores, ∀ place, store.LiesAt buf.length place →
      Span.Holds ⟨place, store.field.size⟩ bytes store.bytes)
    (reached : buf[i]? = bytes[i]? ∨ ∃ store ∈ stores, store.Covers buf.length i) :
    (run buf stores)[i]? = bytes[i]? := by
  induction stores generalizing buf with
  | nil =>
      rcases reached with same | ⟨store, member, _⟩
      · exact same
      · cases member
  | cons store stores ih =>
      rw [run_cons]
      apply ih
      · intro later member place lies
        rw [length_after] at lies
        exact agree later (List.mem_cons_of_mem _ member) place lies
      · by_cases covers : store.Covers buf.length i
        · obtain ⟨place, lies, behind, inside⟩ := covers
          have holds := agree store List.mem_cons_self place lies
          have byte := holds.getElem?_eq (Nat.sub_lt_left_of_lt_add behind inside)
          rw [Nat.add_sub_cancel' behind] at byte
          exact .inl ((getElem?_after_of_liesAt lies behind inside).trans byte.symm)
        · rw [getElem?_after_of_not_covers covers, length_after]
          rcases reached with same | ⟨other, member, reaches⟩
          · exact .inl same
          · rcases List.mem_cons.mp member with rfl | later
            · exact absurd reaches covers
            · exact .inr ⟨other, later, reaches⟩

end Store

/-! ## Reading -/

namespace Field

variable {field : Field} {value : field.Value} {buf : Bytes} {offset : Binary64} {place : Nat}

/-- Where a value's bytes stand, its normal form is read. -/
theorem decode_of_holds (holds : Span.Holds ⟨place, field.size⟩ buf (field.encode value)) :
    field.decode (buf.drop place) = field.normalize value := by
  have split := List.take_append_drop field.size (buf.drop place)
  have front : (buf.drop place).take field.size = field.encode value := holds.bytes_eq
  rw [front] at split
  rw [← split, decode_encode]

end Field

namespace Store

theorem read_of_last {store : Store} {buf : Bytes} {place : Nat} {later : List Store}
    (before : List Store) (lies : store.LiesAt buf.length place)
    (apart : ∀ other ∈ later, Apart buf.length store other) :
    store.field.read (run buf (before ++ store :: later)) store.offset =
      .ok (store.field.normalize store.value) := by
  have fits : place + store.field.size ≤ (run buf (before ++ store :: later)).length := by
    rw [length_run]
    exact lies.fits
  have holds : Span.Holds ⟨place, store.field.size⟩ (run buf (before ++ store :: later))
      store.bytes := by
    refine Span.holds_of_getElem? ?_ store.length_bytes fun i inside => ?_
    · exact fits
    · have last : ∀ other ∈ later, ¬ other.Covers buf.length (place + i) := by
        intro other member covers
        have own : store.Covers buf.length (place + i) :=
          ⟨place, lies, Nat.le_add_right _ _, Nat.add_lt_add_left inside _⟩
        exact apart other member _ ⟨own, covers⟩
      rw [getElem?_run_of_last before lies (Nat.le_add_right _ _) (Nat.add_lt_add_left inside _)
        last, Nat.add_sub_cancel_left]
  rw [Field.read_of_place lies.named fits, Field.decode_of_holds holds]

/-! ## The law of runs -/

/-- What a run of stores makes of a buffer. -/
structure LastWins (buf : Bytes) (stores : List Store) : Prop where
  length_eq : (run buf stores).length = buf.length
  /-- A store is refused exactly if its number is no place at which the field fits. -/
  refused_iff : ∀ before store later, stores = before ++ store :: later → ∀ report,
    (store.apply (run buf before)).mapError Fault.report = .error report ↔
      (¬ ∃ place, store.LiesAt buf.length place) ∧
        report = .range (store.field.outside buf store.offset).message
  /-- It then changes nothing. -/
  refused_keeps : ∀ before store later, stores = before ++ store :: later →
    (¬ ∃ place, store.LiesAt buf.length place) → run buf (before ++ [store]) = run buf before
  /-- A place that no store reaches keeps its byte. -/
  untouched : ∀ i, (∀ store ∈ stores, ¬ store.Covers buf.length i) →
    (run buf stores)[i]? = buf[i]?
  /-- Any other place has the byte that the last store to reach it gives. -/
  last : ∀ before store later place i, stores = before ++ store :: later →
    store.LiesAt buf.length place → place ≤ i → i < place + store.field.size →
    (∀ other ∈ later, ¬ other.Covers buf.length i) →
    (run buf stores)[i]? = (store.field.encode store.value)[i - place]?
  /-- A stored value is read back until a later store reaches into its field. -/
  read_eq : ∀ before store later place, stores = before ++ store :: later →
    store.LiesAt buf.length place → (∀ other ∈ later, Apart buf.length store other) →
    store.field.read (run buf stores) store.offset = .ok (store.field.normalize store.value)
  /-- Neighbours that are apart may change places. -/
  swap : ∀ before one other later, stores = before ++ one :: other :: later →
    Apart buf.length one other → run buf (before ++ other :: one :: later) = run buf stores

/-- **After any run of stores every byte is that of the last store that reached it.** -/
theorem last_store_wins (buf : Bytes) (stores : List Store) : LastWins buf stores where
  length_eq := length_run buf stores
  refused_iff := by
    rintro before store later rfl report
    rw [mapError_report_eq_error_iff fun _ => apply_eq_error_iff]
    simp only [Fault.report, Fault.status?, Field.outside, length_run]
  refused_keeps := by
    rintro before store later rfl outside
    rw [run_append, run_cons, after_of_outside (by rwa [length_run])]
    rfl
  untouched i aside := getElem?_run_of_not_covers aside
  last := by
    rintro before store later place i rfl lies behind inside others
    exact getElem?_run_of_last before lies behind inside others
  read_eq := by
    rintro before store later place rfl lies apart
    exact read_of_last before lies apart
  swap := by
    rintro before one other later rfl apart
    have order : other.after (one.after (run buf before)) =
        one.after (other.after (run buf before)) := after_comm (by rwa [length_run])
    simp only [run_append, run_cons, order]

end Store

end NfcTag
