import Interlock.Summary.Event

/-!
# Race candidates

Two accesses to the same path that may happen at the same time.

- `AccessEvent.conflictsWith`: when two accesses race.
- `Candidate.of`: a pair of accesses in order, with the confidence in it.
- `Candidate.order`: which of several candidates to report.
-/

namespace Interlock

/-- How sure a finding is. -/
inductive Confidence where
  | low
  | high
  deriving DecidableEq, Repr, Ord

/-- The confidence as text. -/
def Confidence.render : Confidence → String
  | low => "low"
  | high => "high"

/-- Whether two accesses to the same path race: one of them writes, they may run in parallel, and
no lock is held at both. -/
def AccessEvent.conflictsWith (strict : Bool) (a b : AccessEvent) : Bool :=
  (a.kind.isWrite || b.kind.isWrite) && a.thread.mayRunInParallel strict b.thread
    && a.locks.isDisjoint b.locks

/-- The order of the two accesses of a candidate: by location, then kind. -/
def AccessEvent.order : AccessEvent → AccessEvent → Ordering :=
  compareLex (compareOn AccessEvent.location) (compareOn AccessEvent.kind)

/-- Two accesses that race, as seen from a class that exposes both. -/
structure Candidate where
  className : String
  /-- Number of ancestors of the class. -/
  ancestors : Nat
  first : AccessEvent
  second : AccessEvent
  deriving DecidableEq

namespace Candidate

/-- The candidate of two accesses, in order. -/
def of (className : String) (ancestors : Nat) (a b : AccessEvent) : Candidate :=
  if (a.order b).isLE then ⟨className, ancestors, a, b⟩ else ⟨className, ancestors, b, a⟩

/-- A candidate is sure if both accesses are known to run in the background. -/
def confidence (c : Candidate) : Confidence :=
  if c.first.thread = .background ∧ c.second.thread = .background then .high else .low

/-- Whether both accesses write. -/
def isWriteWrite (c : Candidate) : Bool := c.first.kind.isWrite && c.second.kind.isWrite

/-- Which candidate to report, the smallest first: high confidence before low, two writes before
others, then by the locations, then by the number of ancestors of the class. -/
def order : Candidate → Candidate → Ordering :=
  compareLex (compareOn fun c : Candidate => decide (c.confidence = .low)) <|
    compareLex (compareOn fun c => !c.isWriteWrite) <|
      compareLex (compareOn fun c => c.first.location) <|
        compareLex (compareOn fun c => c.second.location) (compareOn ancestors)

end Candidate

end Interlock
