import Interlock.Graph.Condensation
import Interlock.Summary.Facts

/-!
# Call graphs

The calls between methods that have facts, condensed into strongly connected
components. Calls of other methods are left out.

- `CallGraph.of`: nodes are the methods in ascending order, edges the calls in call
  order.
- `calleeFirst`: an order of methods that puts callees before callers wherever no
  recursion forbids it.
-/

namespace Interlock

/-- The call graph of a table of facts. -/
structure CallGraph where
  /-- The methods in ascending order; a method's place is its node. -/
  methods : List MethodId
  condensation : Condensation

namespace CallGraph

/-- The calls between the given methods, as edges between their places. -/
def callEdges (facts : FactTable) (methods : List MethodId) : List (Nat × Nat) :=
  facts.values.flatMap fun f =>
    (f.callees.filter (· ∈ methods)).map fun callee =>
      (methods.idxOf f.method, methods.idxOf callee)

/-- The call graph of a table of facts. -/
def of (facts : FactTable) : CallGraph :=
  let methods := facts.keys
  ⟨methods, .of ⟨methods.length, callEdges facts methods⟩⟩

/-- Number of components. -/
def size (g : CallGraph) : Nat := g.condensation.size

/-- The number of the component of a method. -/
def componentOf? (g : CallGraph) (m : MethodId) : Option Nat :=
  if m ∈ g.methods then some (g.condensation.componentOf (g.methods.idxOf m)) else none

/-- The methods of a component in ascending order. -/
def members (g : CallGraph) (component : Nat) : List MethodId :=
  (g.condensation.members component).filterMap (g.methods[·]?)

/-- Whether the methods of a component are recursive. -/
def isCyclic (g : CallGraph) (component : Nat) : Bool := g.condensation.isCyclic component

/-- The condensed graph as text for drawing; `name` labels the methods. -/
def draw (g : CallGraph) (name : MethodId → String) : String :=
  (g.condensation.drawing fun node => ((g.methods[node]?).map name).getD "").render

end CallGraph

/-- The callees of a method among the listed ones, in call order. -/
def calleesAmong (facts : List MethodFacts) (m : MethodId) : List MethodId :=
  match facts.find? (·.method = m) with
  | some f => f.callees.filter fun callee => facts.any (·.method = callee)
  | none => []

/-- Methods ordered so that callees come before callers wherever no recursion forbids it: the
post-order of a depth-first search that starts from each of them in turn. -/
def calleeFirst (facts : List MethodFacts) : List MethodFacts :=
  (postOrder (calleesAmong facts) facts.length (facts.map (·.method))).filterMap fun m =>
    facts.find? (·.method = m)

end Interlock
