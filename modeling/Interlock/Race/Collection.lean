import Interlock.Hierarchy
import Interlock.Race.Finding

/-!
# Collecting races

The accesses of the methods that a class exposes are paired up. A path and a pair of
methods are reported once, by the best of their candidates; on equal rank the class
with fewer ancestors wins, then the one that comes first.

- `RaceKey`: a path and an unordered pair of methods.
- `Collection.candidates`: all candidates, class by class.
- `Collection.best`: the candidate kept for each key.
- `Collection.findings`: the findings in order.
-/

namespace Interlock

/-- A path with an unordered pair of methods. -/
structure RaceKey where
  path : AccessPath
  low : MethodId
  high : MethodId
  deriving DecidableEq

namespace RaceKey

/-- Keys are ordered by path, then methods. -/
def order : RaceKey → RaceKey → Ordering :=
  compareLex (compareOn path) (compareLex (compareOn low) (compareOn high))

instance : Ord RaceKey := ⟨order⟩

instance : Std.TransOrd RaceKey := inferInstanceAs (Std.TransCmp (compareLex _ (compareLex _ _)))

instance : Std.LawfulEqOrd RaceKey where
  eq_of_compare {a b} h := by
    obtain ⟨h₁, h⟩ := compareLex_eq_eq.1 h
    obtain ⟨h₂, h₃⟩ := compareLex_eq_eq.1 h
    have h₁ : compare a.path b.path = .eq := h₁
    have h₂ : compare a.low b.low = .eq := h₂
    have h₃ : compare a.high b.high = .eq := h₃
    cases a; cases b
    simp_all

/-- The key of two methods in either order. -/
def of (path : AccessPath) (a b : MethodId) : RaceKey :=
  if (compare a b).isLE then ⟨path, a, b⟩ else ⟨path, b, a⟩

end RaceKey

/-- Every element of a list paired with itself and with those after it. -/
def pairsUp {α : Type} : List α → List (α × α)
  | [] => []
  | a :: rest => (a :: rest).map (fun b => (a, b)) ++ pairsUp rest

/-- What races are collected from. -/
structure Collection where
  hierarchy : Hierarchy
  summaryOf : MethodId → Option Summary
  strict : Bool

namespace Collection

variable (c : Collection)

/-- The accesses that a class exposes: those of its visible methods that are reported under their
own name. -/
def exposed (className : String) : List AccessEvent :=
  let roots := (c.hierarchy.visibleMethods className).filter (·.isReportingRoot)
  (roots.filterMap fun m => c.summaryOf m.id).flatMap (·.accesses)

/-- The candidates among accesses to one path. -/
def candidatesOn (className : String) (ancestors : Nat) (events : List AccessEvent) :
    List (RaceKey × Candidate) :=
  (pairsUp events).filterMap fun (a, b) =>
    if a.conflictsWith c.strict b then
      some (.of a.path a.owner b.owner, .of className ancestors a b)
    else none

/-- The candidates of a class, path by path. -/
def candidatesIn (className : String) : List (RaceKey × Candidate) :=
  let events := c.exposed className
  let ancestors := (c.hierarchy.ancestors className).length
  (SortedSet.ofList (events.map (·.path))).toList.flatMap fun path =>
    c.candidatesOn className ancestors (events.filter (·.path = path))

/-- All candidates. -/
def candidates : List (RaceKey × Candidate) := c.hierarchy.classNames.flatMap c.candidatesIn

/-- Keep a candidate for its key unless one that ranks at least as well is there. -/
def keep (best : SortedMap RaceKey Candidate) (entry : RaceKey × Candidate) :
    SortedMap RaceKey Candidate :=
  best.alter entry.1 fun
    | some kept => if entry.2.order kept = .lt then entry.2 else kept
    | none => entry.2

/-- The best candidate for each key. -/
def best : SortedMap RaceKey Candidate := c.candidates.foldl keep ∅

/-- The name of a method; one that no class declares goes by its number. -/
def nameOf (m : MethodId) : String :=
  let declared := c.hierarchy.classNames.flatMap c.hierarchy.declaredMethods
  match (declared.filter (·.id = m)).getLast? with
  | some method => method.qualifiedName
  | none => m.render

/-- The findings of at least the given confidence, in order. -/
def findings (minConfidence : Confidence) : List Finding :=
  let kept := c.best.values.filter fun candidate => (compare minConfidence candidate.confidence).isLE
  (kept.map (Finding.ofCandidate c.nameOf)).mergeSort fun a b => (a.order b).isLE

end Collection

end Interlock
