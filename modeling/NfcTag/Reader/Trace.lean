/-
# NfcTag.Reader.Trace -- computations that leave a log

A traced computation has an outcome and the lines it logged on the way.  A
fault ends the computation but not the log: lines logged before it stay.
Computations in sequence form a lawful monad, and `outcome_andThen` says that
the log has no influence on the outcome.
-/
import NfcTag.Fault

namespace NfcTag

set_option autoImplicit false

/-- An outcome with the lines logged on the way to it. -/
structure Traced (α : Type) where
  lines : List String
  outcome : Except Fault α

namespace Traced

variable {α β : Type}

def lift (outcome : Except Fault α) : Traced α := ⟨[], outcome⟩

/-- Go on after a success; a fault is the end. -/
def andThen (first : Traced α) (next : α → Traced β) : Traced β :=
  match first.outcome with
  | .ok value => ⟨first.lines ++ (next value).lines, (next value).outcome⟩
  | .error fault => ⟨first.lines, .error fault⟩

instance : Monad Traced where
  pure value := lift (.ok value)
  bind := andThen

theorem bind_eq_andThen (first : Traced α) (next : α → Traced β) :
    first >>= next = first.andThen next := rfl

theorem lift_ok_andThen (value : α) (next : α → Traced β) :
    (lift (.ok value)).andThen next = next value := by
  simp [andThen, lift]

theorem andThen_lift_ok (first : Traced α) :
    (first.andThen fun value => lift (.ok value)) = first := by
  obtain ⟨lines, outcome⟩ := first
  cases outcome <;> simp [andThen, lift]

theorem andThen_assoc {γ : Type} (first : Traced α) (second : α → Traced β)
    (third : β → Traced γ) :
    (first.andThen second).andThen third =
      first.andThen fun value => (second value).andThen third := by
  obtain ⟨lines, outcome⟩ := first
  cases outcome with
  | error fault => rfl
  | ok value =>
      simp only [andThen]
      cases (second value).outcome <;> simp

/-- The outcome of a chain is the chain of outcomes: logging decides nothing. -/
theorem outcome_andThen (first : Traced α) (next : α → Traced β) :
    (first.andThen next).outcome = first.outcome >>= fun value => (next value).outcome := by
  obtain ⟨lines, outcome⟩ := first
  cases outcome <;> rfl

/-- Chains are equal if they go on alike behind every success that there is. -/
theorem andThen_congr {first : Traced α} {next other : α → Traced β}
    (same : ∀ value, first.outcome = .ok value → next value = other value) :
    first.andThen next = first.andThen other := by
  obtain ⟨lines, outcome⟩ := first
  cases outcome with
  | error fault => rfl
  | ok value => simp only [andThen, same value rfl]

theorem lines_andThen_of_ok {first : Traced α} {value : α} (ended : first.outcome = .ok value)
    (next : α → Traced β) : (first.andThen next).lines = first.lines ++ (next value).lines := by
  simp only [andThen, ended]

theorem lines_andThen_of_error {first : Traced α} {fault : Fault}
    (ended : first.outcome = .error fault) (next : α → Traced β) :
    (first.andThen next).lines = first.lines := by
  simp only [andThen, ended]

theorem lines_andThen_eq_nil {first : Traced α} {next : α → Traced β} (quiet : first.lines = [])
    (later : ∀ value, (next value).lines = []) : (first.andThen next).lines = [] := by
  cases ended : first.outcome with
  | error fault => rw [lines_andThen_of_error ended, quiet]
  | ok value => rw [lines_andThen_of_ok ended, quiet, later, List.append_nil]

instance : LawfulMonad Traced :=
  LawfulMonad.mk' _ andThen_lift_ok lift_ok_andThen andThen_assoc

def log (lines : List String) : Traced Unit := ⟨lines, .ok ()⟩

def fail (fault : Fault) : Traced α := lift (.error fault)

end Traced

end NfcTag
