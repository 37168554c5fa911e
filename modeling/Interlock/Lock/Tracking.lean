import Interlock.Access.Extraction
import Interlock.Flow.Solver
import Interlock.Lock.Basic

/-!
# Lock tracking

The locks held at each operation of a method: those held on every path from the
entry to it. This is a dataflow problem whose states are sets of locks; where paths
merge, the locks held on all of them remain, and the least state, that of code not
reached, is the set of all locks that the method names.

- `Method.lockUniverse`: the locks that a method names.
- `HeldLocks`: the states, with intersection as join.
- `Method.trackLocks`: accesses and calls with the locks held there, if the budget of
  block visits is enough.
- `Method.assumeNoLocks`: the fallback, in which nothing is protected.
-/

namespace Interlock

/-! ## States -/

/-- The locks held at some point of a method that names the locks of `named`. -/
structure HeldLocks (named : LockSet) where
  locks : LockSet
  /-- Only locks that the method names are tracked. -/
  mem_named : ∀ l ∈ locks, l ∈ named
  deriving DecidableEq

namespace HeldLocks

variable {named : LockSet}

/-- The named ones among some locks. -/
def of (locks : LockSet) : HeldLocks named := ⟨locks ∩ named, fun _ h => (SortedSet.mem_inter.1 h).2⟩

instance : JoinSemilattice (HeldLocks named) where
  bottom := ⟨named, fun _ h => h⟩
  join a b := ⟨a.locks ∩ b.locks, fun l h => a.mem_named l (SortedSet.mem_inter.1 h).1⟩

instance : Height (HeldLocks named) := ⟨named.size⟩

end HeldLocks

/-! ## The problem -/

namespace Action

/-- The lock that the action acquires or releases, if it can be named. -/
def lock? : Action → Option LockId
  | acquire lock => lock.resolve?
  | release lock => lock.resolve?
  | _ => none

/-- The locks held after the action. -/
def lockEffect (action : Action) (held : LockSet) : LockSet :=
  match action, action.lock? with
  | .acquire _, some lock => held.insert lock
  | .release _, some lock => held.erase lock
  | _, _ => held

/-- The locks that the front-end knows to be held throughout a call. -/
def callLocks : Action → List LockId
  | call _ locksHeld => locksHeld.filterMap LockExpr.resolve?
  | _ => []

end Action

namespace Method

/-- The locks held on entry: that of the receiver, if the method is synchronized, and the one that
guards the method, if it can be named. -/
def entryLocks (m : Method) : LockSet :=
  let own := if m.annotations.synchronized then [LockId.receiver] else []
  .ofList (own ++ (m.annotations.guardedBy.bind LockExpr.resolve?).toList)

/-- The locks that the method names: those held on entry and those it acquires or releases. -/
def lockUniverse (m : Method) : LockSet :=
  m.entryLocks.insertMany (m.body.positions.filterMap fun (_, op) => op.action.lock?)

/-- The effect of an operation on the locks held. -/
def heldEffect (m : Method) (op : Operation) (d : HeldLocks m.lockUniverse) :
    HeldLocks m.lockUniverse :=
  .of (op.action.lockEffect d.locks)

/-- The dataflow problem of the locks held on every path. -/
def lockProblem (m : Method) : Problem Operation (HeldLocks m.lockUniverse) :=
  .ofOperations m.body (.of m.entryLocks) m.heldEffect fun _ _ d => some d

end Method

/-! ## Accesses and calls with their locks -/

/-- An access with the locks held there. -/
structure TaggedAccess where
  access : Access
  locks : LockSet
  deriving DecidableEq

/-- A call with the locks held there. -/
structure TaggedCall where
  call : CallSite
  locks : LockSet
  deriving DecidableEq

/-- The accesses and calls of a method with the locks held right before each. -/
structure Tagged where
  accesses : List TaggedAccess := []
  calls : List TaggedCall := []
  /-- Number of block visits that finding the locks took. -/
  steps : Nat := 0
  deriving DecidableEq

namespace Method

/-- Tag the operations of a list, each given with the locks held before it. -/
def tag (m : Method) (steps : Nat) (held : List (OpPos × Operation × LockSet)) : Tagged where
  accesses := held.filterMap fun (pos, op, locks) =>
    match m.itemAt? pos op with
    | some (.access access) => some ⟨access, locks⟩
    | _ => none
  calls := held.filterMap fun (pos, op, locks) =>
    match m.itemAt? pos op with
    | some (.call call) => some ⟨call, locks.insertMany op.action.callLocks⟩
    | _ => none
  steps

/-- The accesses and calls in reached blocks with the locks held there, unless more than `budget`
block visits would be needed. -/
def trackLocks (m : Method) (budget : Option Nat) : Except LimitReached Tagged := do
  let solution ← m.lockProblem.solve budget
  let held := solution.replay m.body m.heldEffect
  return m.tag solution.steps (held.map fun (pos, op, d) => (pos, op, d.locks))

/-- All accesses and calls, dead blocks included, as if no lock was ever held. -/
def assumeNoLocks (m : Method) : Tagged where
  accesses := m.extract.items.filterMap fun
    | .access access => some ⟨access, ∅⟩
    | .call _ => none
  calls := m.extract.items.filterMap fun
    | .access _ => none
    | .call call => some ⟨call, ∅⟩

end Method

end Interlock
