import Interlock.Fault
import Interlock.Summary.CallGraph
import Interlock.Summary.Event

/-!
# Summaries of a component

The summaries of the methods of one strongly connected component of the call graph,
given the finished summaries of the methods they call outside of it.

A method that is not recursive is summarized once. Recursive methods start from
empty summaries, which are recomputed round after round until a round changes
nothing. The number of rounds is capped; without a given cap it is derived from the
number of events that the component can have and the number of locks that each
event can lose, in arithmetic that stops at the greatest 64-bit number.

- `ComponentSummaries`, `Outcome`: the result.
- `roundCap`: the derived cap.
- `iterate`: the rounds.
- `summarizeComponent`: the outcome of a component.
-/

namespace Interlock

/-- The finished summaries of a component. -/
structure ComponentSummaries where
  summaries : SortedMap MethodId Summary
  /-- Number of rounds taken; one if the methods are not recursive. -/
  rounds : Nat
  deriving DecidableEq

/-- The summaries of a component, or why there are none. -/
abbrev Outcome := Except Fault ComponentSummaries

/-! ## The cap on rounds -/

/-- Addition that stops at the greatest number of 64 bits. -/
def saturatingAdd (a b : Nat) : Nat := min (a + b) wordMax

/-- Multiplication that stops at the greatest number of 64 bits. -/
def saturatingMul (a b : Nat) : Nat := min (a * b) wordMax

/-- The methods that a component calls outside of itself, in call order. -/
def outsideCallees (members : List MethodFacts) : List MethodId :=
  members.flatMap fun f => f.callees.filter fun callee => !members.any (·.method = callee)

/-- The accesses of finished methods outside of the component that its methods call. -/
def outsideEvents (members : List MethodFacts) (finished : MethodId → Option Summary) :
    List AccessEvent :=
  (outsideCallees members).flatMap fun callee => ((finished callee).map (·.accesses)).getD []

/-- The paths that the events of a component can have. -/
def visiblePaths (members : List MethodFacts) (finished : MethodId → Option Summary) :
    SortedSet AccessPath :=
  .ofList (members.flatMap (fun f => f.tagged.accesses.map (·.access.path))
    ++ (outsideEvents members finished).map (·.path))

/-- The locks that the events of a component can have. -/
def visibleLocks (members : List MethodFacts) (finished : MethodId → Option Summary) : LockSet :=
  .ofList (members.flatMap (fun f =>
      f.tagged.accesses.flatMap (·.locks.toList) ++ f.tagged.calls.flatMap (·.locks.toList))
    ++ (outsideEvents members finished).flatMap (·.locks.toList))

/-- The number of accesses and calls of a component. -/
def locationCount (members : List MethodFacts) : Nat :=
  (members.flatMap fun f =>
    f.tagged.accesses.map (·.access.location) ++ f.tagged.calls.map (·.call.location)).length

/-- The cap on the rounds of a component: each round but the last one adds an event, takes a lock
from an event or raises a thread context. -/
def roundCap (members : List MethodFacts) (finished : MethodId → Option Summary) : Nat :=
  let paths := (visiblePaths members finished).size
  let keys := saturatingMul (saturatingMul (saturatingMul paths 2) (locationCount members)) 3
  let locks := (visibleLocks members finished).size
  saturatingAdd (saturatingAdd (saturatingMul keys (locks + 2)) (saturatingMul members.length 2)) 1

/-! ## Rounds -/

/-- The summary of a callee: the current one inside the component, the finished one outside. -/
def calleeSummary (current : SortedMap MethodId Summary) (finished : MethodId → Option Summary)
    (m : MethodId) : Option Summary :=
  (current.get? m).or (finished m)

/-- One round: recompute each summary in turn, later ones from those recomputed before. -/
def runRound (finished : MethodId → Option Summary) (members : List MethodFacts)
    (current : SortedMap MethodId Summary) : SortedMap MethodId Summary :=
  members.foldl
    (fun current f => current.insert f.method (f.summarize (calleeSummary current finished)))
    current

/-- Run at most `left` further rounds, until one changes nothing. -/
def iterate (finished : MethodId → Option Summary) (members : List MethodFacts)
    (left done : Nat) (current : SortedMap MethodId Summary) : Option ComponentSummaries :=
  match left with
  | 0 => none
  | left + 1 =>
    let next := runRound finished members current
    if next = current then some ⟨next, done + 1⟩
    else iterate finished members left (done + 1) next

/-- The outcome of a component with the given members in ascending order. -/
def summarizeComponent (cyclic : Bool) (maxRounds : Option Nat)
    (finished : MethodId → Option Summary) (members : List MethodFacts) : Outcome :=
  if cyclic then
    let ordered := calleeFirst members
    let cap := maxRounds.getD (roundCap ordered finished)
    let initial := SortedMap.ofList (ordered.map fun f => (f.method, f.emptySummary))
    match iterate finished ordered cap 0 initial with
    | some summaries => .ok summaries
    | none => .error (.unstable (members.map (·.method)) cap)
  else
    .ok ⟨.ofList (members.map fun f => (f.method, f.summarize finished)), 1⟩

end Interlock
