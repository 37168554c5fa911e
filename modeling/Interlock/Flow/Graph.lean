import Interlock.Graph.Drawing
import Interlock.Graph.Search

/-!
# Control-flow graphs

A control-flow graph is a list of blocks. A block is a list of operations with the
numbers of the blocks that may run next and, derived from these, the numbers of
those that may run before. Block 0 is the entry. A successor may name a block that
does not exist; the analyses ask for `FlowGraph.WellFormed` first.

- `FlowGraph.ofBlocks`: a graph from operations and successors, predecessors derived
  in block order, once per edge.
- `FlowGraph.addBlock`, `addOperation?`, `addEdge?`: build a graph step by step.
- `FlowGraph.reversePostOrder`: the blocks reached from the entry, each before the
  blocks it leads to wherever no cycle forbids it.
-/

namespace Interlock

/-- A straight run of operations. -/
structure Block (Op : Type) where
  operations : List Op := []
  /-- The blocks that may run next. -/
  successors : List Nat := []
  /-- The blocks that may run before, once per edge. -/
  predecessors : List Nat := []
  deriving DecidableEq, Repr

/-- The place of an operation in a graph. -/
structure OpPos where
  block : Nat
  op : Nat
  deriving DecidableEq, Repr

/-- A control-flow graph; block 0 is the entry. -/
structure FlowGraph (Op : Type) where
  blocks : Array (Block Op) := #[]
  deriving DecidableEq, Repr

namespace FlowGraph

variable {Op : Type}

/-- Number of blocks. -/
def size (g : FlowGraph Op) : Nat := g.blocks.size

/-- The operations of block `b`. -/
def operations (g : FlowGraph Op) (b : Nat) : List Op := (g.blocks[b]?.map (·.operations)).getD []

/-- The successors of block `b`. -/
def successors (g : FlowGraph Op) (b : Nat) : List Nat := (g.blocks[b]?.map (·.successors)).getD []

/-- The predecessors of block `b`. -/
def predecessors (g : FlowGraph Op) (b : Nat) : List Nat :=
  (g.blocks[b]?.map (·.predecessors)).getD []

/-- Every operation with its place, in block order. -/
def positions (g : FlowGraph Op) : List (OpPos × Op) :=
  (List.range g.size).flatMap fun b => (g.operations b).mapIdx fun i op => (⟨b, i⟩, op)

/-! ## Construction -/

/-- The blocks whose successor lists name `b`, in block order, once per edge. -/
def sources (successors : List (List Nat)) (b : Nat) : List Nat :=
  (successors.mapIdx fun a next => (next.filter (· = b)).map fun _ => a).flatten

/-- The graph with the given operations and successors. -/
def ofBlocks (blocks : List (List Op × List Nat)) : FlowGraph Op :=
  let successors := blocks.map (·.2)
  ⟨(blocks.mapIdx fun b block => ⟨block.1, block.2, sources successors b⟩).toArray⟩

/-- Add an empty block; it gets the next number. -/
def addBlock (g : FlowGraph Op) : FlowGraph Op := ⟨g.blocks.push {}⟩

/-- Add an operation at the end of block `b`, if that block exists. -/
def addOperation? (g : FlowGraph Op) (b : Nat) (op : Op) : Option (FlowGraph Op) :=
  if b < g.size then
    some ⟨g.blocks.modify b fun block => { block with operations := block.operations ++ [op] }⟩
  else none

/-- Add an edge from an existing block. The target need not exist; if it does, it learns of its
new predecessor. -/
def addEdge? (g : FlowGraph Op) (source target : Nat) : Option (FlowGraph Op) :=
  if source < g.size then
    let linked := g.blocks.modify source fun block =>
      { block with successors := block.successors ++ [target] }
    some ⟨linked.modify target fun block =>
      { block with predecessors := block.predecessors ++ [source] }⟩
  else none

/-! ## Reachable blocks -/

/-- Every edge leads to a block of the graph. -/
def WellFormed (g : FlowGraph Op) : Prop := ∀ block ∈ g.blocks, ∀ s ∈ block.successors, s < g.size

instance (g : FlowGraph Op) : Decidable g.WellFormed :=
  inferInstanceAs (Decidable (∀ block ∈ g.blocks, ∀ s ∈ block.successors, s < g.size))

/-- The existing successors of a block, the last one first. -/
def next (g : FlowGraph Op) (b : Nat) : List Nat := (g.successors b).reverse.filter (· < g.size)

/-- The blocks reached from the entry in reverse post-order. Successors are searched last to
first, so that siblings keep the order in which they were declared. -/
def reversePostOrder (g : FlowGraph Op) : List Nat :=
  if g.size = 0 then [] else Interlock.reversePostOrder g.next g.size [0]

/-- Every edge of a block reached from the entry leads to a block of the graph. -/
def Closed (g : FlowGraph Op) : Prop :=
  ∀ b ∈ g.reversePostOrder, ∀ s ∈ g.successors b, s < g.size

instance (g : FlowGraph Op) : Decidable g.Closed :=
  inferInstanceAs (Decidable (∀ b ∈ g.reversePostOrder, ∀ s ∈ g.successors b, s < g.size))

/-! ## Drawing -/

/-- The graph as a drawing; `label` names the operations. -/
def drawing (g : FlowGraph Op) (title : String) (label : Op → String) : Drawing where
  title
  stem := "Node_"
  labels := g.blocks.toList.map (·.operations.map label)
  edges := (List.range g.size).flatMap fun b => (g.successors b).map fun s => (b, s)

end FlowGraph

end Interlock
