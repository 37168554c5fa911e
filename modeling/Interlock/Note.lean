import Interlock.Access.Extraction
import Interlock.Fault

/-!
# Notes

Remarks about the analysis itself, reported next to the findings: accesses that were
skipped, methods whose locks could not be tracked, methods without a summary.
-/

namespace Interlock

/-- How much a note matters. -/
inductive Severity where
  | info
  | warning
  deriving DecidableEq, Repr, Ord

/-- What a note is about. -/
inductive NoteKind where
  | skippedAccess
  | budgetExceeded
  | analysisIncomplete
  deriving DecidableEq, Repr, Ord

/-- A remark about the analysis. -/
structure Note where
  method : Option MethodId
  severity : Severity
  kind : NoteKind
  message : String
  deriving DecidableEq, Repr

namespace Note

/-- Notes are listed by method, those without one first, then by severity, kind and message. -/
def order : Note → Note → Ordering :=
  compareLex (compareOn method) <| compareLex (compareOn severity) <|
    compareLex (compareOn kind) (compareOn message)

/-- Notes in order. -/
def sort (notes : List Note) : List Note := notes.mergeSort fun a b => (a.order b).isLE

/-- An access was skipped. -/
def ofSkipped (methodName : String) (s : SkippedAccess) : Note where
  method := some s.location.method
  severity := .info
  kind := .skippedAccess
  message := methodName ++ ": access to `" ++ s.expr ++ "` on line " ++ s.location.line.toNat.repr
    ++ " is ignored, " ++ s.reason

/-- Lock tracking gave up on a method. -/
def ofBudget (methodName : String) (fault : Fault) : Note where
  method := fault.methods.head?
  severity := .warning
  kind := .budgetExceeded
  message := methodName ++ ": " ++ fault.message ++ ", no locks are assumed to be held"

/-- A method has no summary. -/
def ofIncomplete (method : MethodId) (methodName : String) (fault : Fault) : Note where
  method := some method
  severity := .warning
  kind := .analysisIncomplete
  message := methodName ++ ": analysis incomplete, " ++ fault.message

/-- The note as a line of text. -/
def render (n : Note) : String :=
  let severity := match n.severity with
    | .info => "info"
    | .warning => "warning"
  severity ++ ": " ++ n.message

end Note

end Interlock
