import Interlock.Flow.Worklist
import Interlock.Lattice

/-!
# Solving dataflow problems

A dataflow problem gives a state for the entry of a control-flow graph, the effect
of each block on a state and the effect of each edge, which may turn out to be
infeasible. Its solution gives each reached block a state before and after, such
that the state before a block joins what its incoming edges bring.

The solver visits waiting blocks in reverse post-order until none waits or a limit
on the number of visits is used up.

- `Problem`, `Problem.ofOperations`: the problem, also from the effect of single
  operations.
- `Problem.visit`, `Problem.run`: one visit, a number of visits.
- `Problem.solveWithin`: the solution, if the given number of visits is enough.
- `Problem.runOut`, `Problem.solveUnlimited`: the solver without any limit, which may
  run forever.
- `Problem.visitBound`, `Problem.solve`: a number of visits that is enough for
  monotone problems over states of bounded height, and the solver that uses it where
  no limit is set.
- `Solution.replay`: the state before every operation of the reached blocks.
-/

namespace Interlock

/-- A dataflow problem over a control-flow graph. -/
structure Problem (Op D : Type) where
  graph : FlowGraph Op
  /-- The state on entry to block 0. -/
  seed : D
  /-- The effect of a block. -/
  block : Nat → D → D
  /-- The effect of the edge between two blocks, `none` where it is infeasible. -/
  edge : Nat → Nat → D → Option D

/-- The effect of running the operations of a list in turn. -/
def runOperations {Op D : Type} (effect : Op → D → D) (ops : List Op) (d : D) : D :=
  ops.foldl (fun d op => effect op d) d

/-- The problem in which each operation has the given effect. -/
def Problem.ofOperations {Op D : Type} (graph : FlowGraph Op) (seed : D) (effect : Op → D → D)
    (edge : Nat → Nat → D → Option D) : Problem Op D where
  graph
  seed
  block b := runOperations effect (graph.operations b)
  edge

/-- The states around each block, and the work it took to find them. -/
structure Solution (D : Type) where
  /-- The state before each block; bottom for a block that was not reached. -/
  pre : Array D
  /-- The state after each block; bottom for a block that was not reached. -/
  post : Array D
  reached : Array Bool
  /-- Number of block visits. -/
  steps : Nat
  deriving DecidableEq

/-- The limit on block visits was used up while blocks still waited. -/
structure LimitReached where
  limit : Nat
  deriving DecidableEq, Repr

/-- The message for users. -/
def LimitReached.message (e : LimitReached) : String :=
  "the solver did not converge within " ++ e.limit.repr ++ " block visits"

/-- A solver under way. -/
structure Progress (D : Type) where
  solution : Solution D
  worklist : Worklist

namespace Solution

variable {D : Type}

/-- Whether block `b` was reached. -/
def isReached (s : Solution D) (b : Nat) : Bool := s.reached[b]?.getD false

/-- The state before each operation of the reached blocks, in block order. -/
def replay {Op : Type} (s : Solution D) (graph : FlowGraph Op) (effect : Op → D → D) :
    List (OpPos × Op × D) :=
  (List.range graph.size).flatMap fun b =>
    match s.pre[b]? with
    | some pre =>
      if s.isReached b then
        (graph.operations b).mapIdx fun i op =>
          (⟨b, i⟩, op, runOperations effect ((graph.operations b).take i) pre)
      else []
    | none => []

end Solution

namespace Problem

variable {Op D : Type} [JoinSemilattice D] [DecidableEq D]

/-- Before any visit: every state is bottom, and the entry waits. -/
def start (p : Problem Op D) : Progress D where
  solution :=
    { pre := .replicate p.graph.size bottom
      post := .replicate p.graph.size bottom
      reached := .replicate p.graph.size false
      steps := 0 }
  worklist := if p.graph.size = 0 then p.graph.worklist else p.graph.worklist.push 0

/-- The state before block `b`: the seed, if it is the entry, joined with what the feasible edges
from reached predecessors bring. The entry may be the head of a loop, so its seed takes part. -/
def entryState (p : Problem Op D) (s : Solution D) (b : Nat) : D :=
  (p.graph.predecessors b).foldl
    (fun d a =>
      if s.isReached a then
        match s.post[a]?.bind (p.edge a b) with
        | some brought => join d brought
        | none => d
      else d)
    (if b = 0 then p.seed else bottom)

/-- Visit block `b`: bring its states up to date and, if the block is new or its state after has
changed, let its successors wait. -/
def visit (p : Problem Op D) (r : Progress D) (b : Nat) : Progress D :=
  let s := r.solution
  let pre := p.entryState s b
  let post := p.block b pre
  let s' := { s with pre := s.pre.setIfInBounds b pre, steps := s.steps + 1 }
  if s.isReached b ∧ s.post[b]? = some post then { r with solution := s' }
  else
    { solution :=
        { s' with post := s.post.setIfInBounds b post, reached := s.reached.setIfInBounds b true }
      worklist := r.worklist.pushAll (p.graph.successors b) }

/-- Visit waiting blocks until none waits, at most `limit` times. -/
def run (p : Problem Op D) : Nat → Progress D → Progress D
  | 0, r => r
  | limit + 1, r =>
    match r.worklist.pop? with
    | none => r
    | some (b, worklist) => p.run limit (p.visit { r with worklist } b)

/-- The solution, if at most `limit` visits leave no block waiting. -/
def solveWithin (p : Problem Op D) (limit : Nat) : Except LimitReached (Solution D) :=
  let r := p.run limit p.start
  if r.worklist.isEmpty then .ok r.solution else .error ⟨limit⟩

/-- Visit waiting blocks until none waits. There is no answer if that never happens. -/
def runOut (p : Problem Op D) (r : Progress D) : Option (Progress D) :=
  match r.worklist.pop? with
  | none => some r
  | some (b, worklist) => p |>.runOut (p.visit { r with worklist } b)
partial_fixpoint

/-- The solution without a limit on visits, if they come to an end. -/
def solveUnlimited (p : Problem Op D) : Option (Solution D) := (p.runOut p.start).map (·.solution)

/-- A number of visits that is enough whenever the effects are monotone: the entry is visited
once, and each edge causes a visit of its target at most when its source is new and each time the
state after its source rises. -/
def visitBound [Height D] (p : Problem Op D) : Nat :=
  1 + (Height.height D + 1) * (p.graph.blocks.toList.flatMap (·.successors)).length

/-- The solution under an optional limit on block visits. -/
def solve [Height D] (p : Problem Op D) (limit : Option Nat) : Except LimitReached (Solution D) :=
  p.solveWithin (limit.getD p.visitBound)

end Problem

end Interlock
