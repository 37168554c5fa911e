import Interlock.Program.Text
import Interlock.Session

/-!
# Reports as text

The JSON form of reports, and their plain form with a line for each finding and note.
-/

namespace Interlock

namespace Location

/-- The JSON form. -/
def toJson (l : Location) : Json :=
  .ofMembers [
    ("method", l.method.toJson),
    ("line", .ofNat l.line.toNat),
    ("block", .ofNat l.block),
    ("op", .ofNat l.op)]

end Location

namespace Finding

/-- The JSON form. -/
def toJson (f : Finding) : Json :=
  .ofMembers [
    ("kind", .ofString "RaceCandidate"),
    ("class", .ofString f.className),
    ("accessPath", .ofString f.path.render),
    ("locationA", f.locationA.toJson),
    ("locationB", f.locationB.toJson),
    ("kindA", .ofString f.kindA.render),
    ("kindB", .ofString f.kindB.render),
    ("methodA", f.methodA.toJson),
    ("methodB", f.methodB.toJson),
    ("confidence", .ofString f.confidence.jsonName),
    ("message", .ofString f.message)]

end Finding

namespace Note

/-- The name of a severity in JSON. -/
def severityName : Severity → String
  | .info => "Info"
  | .warning => "Warning"

/-- The name of a kind of note in JSON. -/
def kindName : NoteKind → String
  | .skippedAccess => "SkippedAccess"
  | .budgetExceeded => "BudgetExceeded"
  | .analysisIncomplete => "AnalysisIncomplete"

/-- The JSON form; the method is left out where there is none. -/
def toJson (n : Note) : Json :=
  .ofMembers ((n.method.map fun m => ("method", m.toJson)).toList ++ [
    ("severity", .ofString (severityName n.severity)),
    ("kind", .ofString (kindName n.kind)),
    ("message", .ofString n.message)])

end Note

namespace Report

/-- The JSON form. -/
def toJson (r : Report) : Json :=
  .ofMembers [
    ("findings", .ofList Finding.toJson r.findings),
    ("notes", .ofList Note.toJson r.notes)]

/-- A line for each finding, then one for each note. -/
def lines (r : Report) : List String := r.findings.map Finding.render ++ r.notes.map Note.render

end Report

end Interlock
