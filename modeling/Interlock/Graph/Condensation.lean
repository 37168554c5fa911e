import Interlock.Graph.Drawing

/-!
# Condensation of a directed graph

The strongly connected components of a directed graph, numbered so that an edge
between different components goes from a larger number to a smaller one. On a
call graph this puts callees before callers.

One depth-first search finds them. It numbers the nodes as it enters them and keeps
those without a component on a stack. The low link of a node is its own number, or a
smaller one of a node on the stack that an edge from it, or from one entered after it,
leads to. A node that is its own low link completes a component: itself and all above it
on the stack.

- `Digraph`: a number of nodes and a list of edges.
- `ComponentSearch`: the search under way, with its steps `enter`, `follow` and `leave`.
- `Digraph.components`: the components, each in ascending order.
- `Condensation`: components with their successors and levels.
-/

namespace Interlock

/-- A directed graph on the numbers below `size`, with its edges in the order in which they
were added. -/
structure Digraph where
  size : Nat
  edges : List (Nat × Nat)

namespace Digraph

/-- Every edge joins two nodes of the graph. -/
def WellFormed (g : Digraph) : Prop := ∀ e ∈ g.edges, e.1 < g.size ∧ e.2 < g.size

instance (g : Digraph) : Decidable g.WellFormed :=
  inferInstanceAs (Decidable (∀ e ∈ g.edges, e.1 < g.size ∧ e.2 < g.size))

/-- The nodes. -/
def nodes (g : Digraph) : List Nat := List.range g.size

/-- The targets of the edges that leave `v`, the newest edge first. -/
def successors (g : Digraph) (v : Nat) : List Nat :=
  (g.edges.filterMap fun e => if e.1 = v then some e.2 else none).reverse

end Digraph

/-- A search for components under way. -/
structure ComponentSearch where
  /-- The nodes entered so far, the latest first. -/
  entered : List Nat := []
  /-- The nodes entered that have no component yet, the latest first. -/
  stack : List Nat := []
  /-- The components found so far, in order. -/
  found : List (List Nat) := []

namespace ComponentSearch

/-- The number of a node that was entered; the first one has number one. -/
def number (s : ComponentSearch) (v : Nat) : Nat := s.entered.length - s.entered.idxOf v

/-- Enter a node. -/
def enter (s : ComponentSearch) (v : Nat) : ComponentSearch :=
  { s with entered := v :: s.entered, stack := v :: s.stack }

/-- Follow an edge to `w`, given the low link so far. `visit` searches from a new node. -/
def follow (visit : Nat → ComponentSearch → Nat × ComponentSearch) :
    Nat × ComponentSearch → Nat → Nat × ComponentSearch
  | (low, s), w =>
    if w ∉ s.entered then
      let (below, s) := visit w s
      (min low below, s)
    else if w ∈ s.stack then (min low (s.number w), s)
    else (low, s)

/-- Leave `v` when all its edges were followed. If `v` is its own low link, the nodes on the stack
down to `v` form a component. -/
def leave (g : Digraph) (v : Nat) : Nat × ComponentSearch → Nat × ComponentSearch
  | (low, s) =>
    if low = s.number v then
      let members := s.stack.takeWhile (· ≠ v) ++ [v]
      (low, { s with
        stack := (s.stack.dropWhile (· ≠ v)).tail
        found := s.found ++ [g.nodes.filter (· ∈ members)] })
    else (low, s)

/-- Search from the new node `v`, and return its low link. The first argument bounds the number of
nodes on the current path; the number of nodes of the graph is enough. -/
def visit (g : Digraph) : Nat → Nat → ComponentSearch → Nat × ComponentSearch
  | 0, _, s => (0, s)
  | depth + 1, v, s =>
    leave g v ((g.successors v).foldl (follow (visit g depth)) (s.entered.length + 1, s.enter v))

/-- Search from `v` unless it was entered before. -/
def visitNew (g : Digraph) (s : ComponentSearch) (v : Nat) : ComponentSearch :=
  if v ∈ s.entered then s else (visit g g.size v s).2

end ComponentSearch

/-- The strongly connected components, each in ascending order. -/
def Digraph.components (g : Digraph) : List (List Nat) :=
  (g.nodes.foldl (ComponentSearch.visitNew g) {}).found

/-- A graph with its strongly connected components, which are numbered by their place in the
list. -/
structure Condensation where
  graph : Digraph
  components : List (List Nat)

namespace Condensation

/-- The condensation of a graph. -/
def of (g : Digraph) : Condensation := ⟨g, g.components⟩

/-- Number of components. -/
def size (c : Condensation) : Nat := c.components.length

/-- The members of component `i` in ascending order. -/
def members (c : Condensation) (i : Nat) : List Nat := c.components[i]?.getD []

/-- The number of the component that holds node `v`. -/
def componentOf (c : Condensation) (v : Nat) : Nat := c.components.findIdx (v ∈ ·)

/-- Whether component `i` has more than one member or a member with an edge to itself. -/
def isCyclic (c : Condensation) (i : Nat) : Bool :=
  let members := c.members i
  1 < members.length || c.graph.edges.any fun e => e.1 ∈ members && e.1 = e.2

/-- The components that edges from component `i` to elsewhere enter, in ascending order. -/
def successors (c : Condensation) (i : Nat) : List Nat :=
  let members := c.members i
  let entered := c.graph.edges.filterMap fun e =>
    if e.1 ∈ members then some (c.componentOf e.2) else none
  (List.range c.size).filter fun j => j ≠ i && j ∈ entered

/-- The height of component `i`, given those of the components with smaller numbers. -/
def heightAbove (c : Condensation) (known : List Nat) (i : Nat) : Nat :=
  ((c.successors i).map fun j => known[j]?.getD 0 + 1).foldl max 0

/-- The heights of the first `n` components. A component's successors have smaller numbers, so one
pass in ascending order finds them. -/
def heightsBelow (c : Condensation) (n : Nat) : List Nat :=
  (List.range n).foldl (fun known i => known ++ [c.heightAbove known i]) []

/-- For each component the length of the longest chain of successors that starts there. -/
def heights (c : Condensation) : List Nat := c.heightsBelow c.size

/-- The components grouped by height, in ascending order within each group. -/
def levels (c : Condensation) : List (List Nat) :=
  let heights := c.heights
  (List.range ((heights.map (· + 1)).foldl max 0)).map fun h =>
    (List.range c.size).filter fun i => heights[i]? = some h

/-- The components as a drawing; `label` names the nodes. -/
def drawing (c : Condensation) (label : Nat → String) : Drawing where
  title := "Condensation"
  stem := "Scc_"
  labels := c.components.map (·.map label)
  edges := (List.range c.size).flatMap fun i => (c.successors i).map fun j => (i, j)

end Condensation

end Interlock
