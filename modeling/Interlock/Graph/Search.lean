/-!
# Depth-first search

A search enters each node at most once, follows the successors of a node in the
order that `next` lists them, and leaves the node when they are done.

- `Search`: the nodes entered so far and, latest first, those left again.
- `Search.visit`, `Search.visitAll`: search from one node, from several.
- `reversePostOrder`: the nodes reached, each before the nodes it leads to
  wherever no cycle forbids it.
- `postOrder`: the same backwards.
-/

namespace Interlock

/-- A depth-first search under way. -/
structure Search (α : Type) where
  /-- The nodes entered so far. -/
  entered : List α := []
  /-- The nodes left so far, the latest first. -/
  left : List α := []

namespace Search

variable {α : Type} [DecidableEq α]

/-- Enter `v` unless it was entered before, search from its successors, leave it.
The first argument bounds the number of nodes on the current path; the number of
nodes of the graph is enough. -/
def visit (next : α → List α) : Nat → α → Search α → Search α
  | 0, _, s => s
  | depth + 1, v, s =>
    if v ∈ s.entered then s else
      let below := (next v).foldl (fun s w => visit next depth w s) { s with entered := v :: s.entered }
      { below with left := v :: below.left }

/-- Search from each of the `roots` in turn. -/
def visitAll (next : α → List α) (depth : Nat) (roots : List α) (s : Search α) : Search α :=
  roots.foldl (fun s v => s.visit next depth v) s

end Search

/-- The nodes reached from `roots`, latest left first. -/
def reversePostOrder {α : Type} [DecidableEq α] (next : α → List α) (size : Nat) (roots : List α) :
    List α :=
  (Search.visitAll next size roots {}).left

/-- The nodes reached from `roots`, in the order in which the search leaves them. -/
def postOrder {α : Type} [DecidableEq α] (next : α → List α) (size : Nat) (roots : List α) : List α :=
  (reversePostOrder next size roots).reverse

end Interlock
