/-!
# Lattices of analysis states

Larger states are safer approximations; the bottom state stands for code that is
not reached. Where control flow merges, the states of all incoming edges are
joined.

- `JoinSemilattice`, `BoundedLattice`: the operations.
- `Height`: how far a state can rise before it is at the top.
- `Dual`: the lattice turned upside down. An analysis that keeps only the facts
  that hold on *every* incoming path is a join analysis over the dual.
-/

namespace Interlock

/-- States that can be joined, with a least one. -/
class JoinSemilattice (α : Type) where
  /-- The least state, the unit of `join`. -/
  bottom : α
  /-- The least state above both. -/
  join : α → α → α

/-- States that can also be met, with a greatest one. -/
class BoundedLattice (α : Type) extends JoinSemilattice α where
  /-- The greatest state, the unit of `meet`. -/
  top : α
  /-- The greatest state below both. -/
  meet : α → α → α

/-- A bound on the number of times that a state can strictly rise. -/
class Height (α : Type) where
  height : Nat

export JoinSemilattice (bottom join)
export BoundedLattice (top meet)

/-- The dual of a lattice: join and meet trade places, and so do bottom and top. -/
structure Dual (α : Type) where
  val : α
  deriving DecidableEq

namespace Dual

instance {α : Type} [BoundedLattice α] : BoundedLattice (Dual α) where
  bottom := ⟨top⟩
  join a b := ⟨meet a.val b.val⟩
  top := ⟨bottom⟩
  meet a b := ⟨join a.val b.val⟩

instance {α : Type} [Height α] : Height (Dual α) := ⟨Height.height α⟩

end Dual

end Interlock
