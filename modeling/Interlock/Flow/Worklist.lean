import Interlock.Flow.Graph

/-!
# Worklists

A worklist holds blocks that wait for a visit, each at most once, and hands out the
one that stands first in a fixed visiting order. Blocks outside that order have the
greatest 64-bit number for a place, and so come after all others.
-/

namespace Interlock

/-- The greatest number of 64 bits. -/
def wordMax : Nat := UInt64.size - 1

/-- Blocks that wait for a visit. -/
structure Worklist where
  /-- The order in which blocks are handed out. -/
  order : List Nat
  /-- The waiting blocks, the next one first. -/
  waiting : List Nat := []
  deriving Repr

namespace Worklist

/-- The place of a block in the visiting order. A block that is not in it has the greatest number
for a place. -/
def rank (w : Worklist) (b : Nat) : Nat := if b ∈ w.order then w.order.idxOf b else wordMax

/-- Put `b` before the first waiting block that ranks behind it. -/
def insertBy (rank : Nat → Nat) (b : Nat) : List Nat → List Nat
  | [] => [b]
  | c :: rest => if rank b < rank c then b :: c :: rest else c :: insertBy rank b rest

/-- Let `b` wait, unless it does already. -/
def push (w : Worklist) (b : Nat) : Worklist :=
  if b ∈ w.waiting then w else { w with waiting := insertBy w.rank b w.waiting }

/-- Let several blocks wait. -/
def pushAll (w : Worklist) (bs : List Nat) : Worklist := bs.foldl push w

/-- Hand out the next block. -/
def pop? (w : Worklist) : Option (Nat × Worklist) :=
  match w.waiting with
  | [] => none
  | b :: rest => some (b, { w with waiting := rest })

/-- Whether no block waits. -/
def isEmpty (w : Worklist) : Bool := w.waiting.isEmpty

end Worklist

/-- An empty worklist that hands out the blocks of `g` in reverse post-order. -/
def FlowGraph.worklist {Op : Type} (g : FlowGraph Op) : Worklist := { order := g.reversePostOrder }

end Interlock
