import Interlock.FactSet
import Interlock.Flow.Solver

/-!
# Gen/kill problems

The plainest dataflow problems: an operation makes one numbered fact true or false.
Over sets of facts the solution holds the facts true on *some* path; over the dual,
those true on *every* path.
-/

namespace Interlock

/-- An operation that makes a fact true or false. -/
inductive FactChange where
  | gen (fact : Nat)
  | kill (fact : Nat)
  deriving DecidableEq, Repr

namespace FactChange

/-- The fact that changes. -/
def fact : FactChange → Nat
  | gen i => i
  | kill i => i

/-- The effect on a set of facts. -/
def apply {n : Nat} : FactChange → FactSet n → FactSet n
  | gen i, s => s.insert i
  | kill i, s => s.erase i

/-- The operation as `Gen(0)` or `Kill(0)`. -/
def render : FactChange → String
  | gen i => "Gen(" ++ i.repr ++ ")"
  | kill i => "Kill(" ++ i.repr ++ ")"

end FactChange

/-- A gen/kill problem over `n` facts. -/
structure GenKill (n : Nat) where
  graph : FlowGraph FactChange
  seed : FactSet n
  /-- The effect of an operation; it may also be ignored. -/
  effect : FactChange → FactSet n → FactSet n := FactChange.apply
  /-- The infeasible edges. -/
  blocked : List (Nat × Nat) := []

namespace GenKill

variable {n : Nat}

/-- What an edge brings: nothing, if it is blocked. -/
def edge {D : Type} (p : GenKill n) (a b : Nat) (d : D) : Option D :=
  if (a, b) ∈ p.blocked then none else some d

/-- The effect of an operation on the dual. -/
def dualEffect (p : GenKill n) (op : FactChange) (d : Dual (FactSet n)) : Dual (FactSet n) :=
  ⟨p.effect op d.val⟩

/-- The problem of the facts that hold on some path. -/
def may (p : GenKill n) : Problem FactChange (FactSet n) :=
  .ofOperations p.graph p.seed p.effect p.edge

/-- The problem of the facts that hold on every path. -/
def must (p : GenKill n) : Problem FactChange (Dual (FactSet n)) :=
  .ofOperations p.graph ⟨p.seed⟩ p.dualEffect p.edge

/-- Whether every operation of the blocks that a solver reached changes one of the `n` facts. -/
def inRange {D : Type} (p : GenKill n) (s : Solution D) : Bool :=
  (List.range p.graph.size).all fun b =>
    !s.isReached b || (p.graph.operations b).all fun op => op.fact < n

end GenKill

end Interlock
