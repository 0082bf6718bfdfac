/-
# NfcTag.Fault.Report -- what a refusal looks like from outside

A report is what callers get to see of a fault: its kind, its text and, for
faults of tag contents, a status code.  Callers may also make reports of their
own, with any code and any text.
-/
import NfcTag.Fault

namespace NfcTag

set_option autoImplicit false

/-- A refusal as callers see it. -/
inductive Report where
  | tag (code : Int) (message : String)
  | range (message : String)
  | plain (message : String)
  deriving Repr, DecidableEq

namespace Report

/-- A report with a status code.  Without a text of its own it has the text of
that status, and none if no status has the code. -/
def ofCode (code : Int) (message? : Option String) : Report :=
  .tag code (message?.getD (((Status.ofCode? code).map Status.message).getD ""))

def name : Report → String
  | tag .. => "TagError"
  | range _ => "RangeError"
  | plain _ => "Error"

def message : Report → String
  | tag _ message | range message | plain message => message

/-- The status code, if the report has one. -/
def code? : Report → Option Int
  | tag code _ => some code
  | _ => none

/-- The kind and the text in one line; the kind alone if there is no text. -/
def line (report : Report) : String :=
  if report.message.isEmpty then report.name else report.name ++ ": " ++ report.message

/-- Does the report concern tag contents, and does it have the wanted code, if
one is wanted? -/
def isTag (report : Report) (wanted : Option Int) : Bool :=
  match report.code?, wanted with
  | none, _ => false
  | some _, none => true
  | some code, some wanted => code = wanted

end Report

def Fault.report (fault : Fault) : Report :=
  match fault.status? with
  | some status => .tag status.code fault.message
  | none => .range fault.message

/-- What is refused for one reason only is reported for that reason. -/
theorem mapError_report_eq_error_iff {α : Type} {result : Except Fault α} {reason : Fault}
    {refused : Prop} (only : ∀ fault, result = .error fault ↔ refused ∧ fault = reason)
    {report : Report} :
    result.mapError Fault.report = .error report ↔ refused ∧ report = reason.report := by
  constructor
  · intro shown
    cases result with
    | ok value => cases shown
    | error fault =>
        cases shown
        obtain ⟨why, rfl⟩ := (only fault).mp rfl
        exact ⟨why, rfl⟩
  · rintro ⟨why, rfl⟩
    rw [(only reason).mpr ⟨why, rfl⟩]
    rfl

end NfcTag
