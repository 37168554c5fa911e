import Interlock.Race.Candidate

/-!
# Findings

A race as it is reported.
-/

namespace Interlock

/-- A reported race. -/
structure Finding where
  className : String
  path : AccessPath
  locationA : Location
  locationB : Location
  kindA : AccessKind
  kindB : AccessKind
  methodA : MethodId
  methodB : MethodId
  confidence : Confidence
  message : String
  deriving DecidableEq

namespace Finding

/-- Findings are listed by class, path and locations. -/
def order : Finding → Finding → Ordering :=
  compareLex (compareOn className) <| compareLex (compareOn path) <|
    compareLex (compareOn locationA) (compareOn locationB)

/-- What one access does; `name` names methods. -/
def describe (name : MethodId → String) (e : AccessEvent) : String :=
  let verb := match e.kind with
    | .read => "reads"
    | .write => "writes"
  let via := match e.via with
    | some callee => " via `" ++ name callee ++ "`"
    | none => ""
  let holding := if e.locks.isEmpty then "" else " holding " ++ e.locks.render
  "`" ++ name e.owner ++ "` " ++ verb ++ " it on line " ++ e.location.line.toNat.repr ++ via
    ++ holding

/-- The finding for a candidate. -/
def ofCandidate (name : MethodId → String) (c : Candidate) : Finding :=
  let title := if c.isWriteWrite then "Unprotected write" else "Read/Write race"
  { className := c.className
    path := c.first.path
    locationA := c.first.location
    locationB := c.second.location
    kindA := c.first.kind
    kindB := c.second.kind
    methodA := c.first.owner
    methodB := c.second.owner
    confidence := c.confidence
    message := title ++ " on `" ++ c.first.path.render ++ "`: " ++ describe name c.first ++ ", "
      ++ describe name c.second }

/-- The finding as a line of text. -/
def render (f : Finding) : String :=
  f.className ++ ": " ++ f.message ++ " (" ++ f.confidence.render ++ " confidence)"

end Finding

end Interlock
