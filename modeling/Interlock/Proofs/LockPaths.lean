import Interlock.Lock.Tracking
import Interlock.Proofs.FlowPaths
import Mathlib.Data.Set.Lattice

/-!
# Locks held along paths

What it means for a lock to be held at an operation, said path by path and without
any solver: a path from the entry runs some operations, each of which may acquire or
release a lock.

- `Action.locksAfter`: what one operation does to the locks held.
- `Method.heldOnPath`: the locks held at an operation when it is reached on a path.
- `Method.alwaysHeld`: the locks held there on every path.
- `runLocks_iInter`: operations act on each lock by itself, so what is common to
  several sets of held locks stays the common part.
-/

namespace Interlock

/-- The locks held after an action. A lock that cannot be named is passed over. -/
def Action.locksAfter (held : Set LockId) : Action → Set LockId
  | .acquire lock => held ∪ {l | lock.resolve? = some l}
  | .release lock => held \ {l | lock.resolve? = some l}
  | _ => held

/-- The locks held after several operations. -/
def runLocks (ops : List Operation) (held : Set LockId) : Set LockId :=
  ops.foldl (fun held op => op.action.locksAfter held) held

/-- The operations that run on a path and then up to a place in the block that comes next. -/
def FlowGraph.operationsBefore {Op : Type} (g : FlowGraph Op) (p : List Nat) (pos : OpPos) :
    List Op :=
  p.flatMap g.operations ++ (g.operations pos.block).take pos.op

namespace Method

/-- The locks held on entry: that of the receiver of a synchronized method, and the lock declared
to guard the method. -/
def locksOnEntry (m : Method) : Set LockId :=
  {l | m.annotations.synchronized = true ∧ l = .receiver} ∪
    {l | ∃ guard, m.annotations.guardedBy = some guard ∧ guard.resolve? = some l}

/-- The locks held right before the operation at `pos` when it is reached on the path `p`. -/
def heldOnPath (m : Method) (p : List Nat) (pos : OpPos) : Set LockId :=
  runLocks (m.body.operationsBefore p pos) m.locksOnEntry

/-- The locks held right before the operation at `pos` on every path to it. -/
def alwaysHeld (m : Method) (pos : OpPos) : Set LockId :=
  {l | ∀ p, m.body.Path p pos.block → l ∈ m.heldOnPath p pos}

end Method

/-! ## Operations act on each lock by itself -/

theorem runLocks_append (ops ops' : List Operation) (held : Set LockId) :
    runLocks (ops ++ ops') held = runLocks ops' (runLocks ops held) :=
  List.foldl_append

theorem Action.locksAfter_mono (action : Action) {s t : Set LockId} (h : s ⊆ t) :
    action.locksAfter s ⊆ action.locksAfter t := by
  cases action with
  | acquire lock => exact Set.union_subset_union_left _ h
  | release lock => exact Set.sdiff_subset_sdiff_left h
  | read target => exact h
  | write target => exact h
  | call callee locksHeld => exact h
  | nop => exact h

/-- If more locks are held before, more are held after. -/
theorem runLocks_mono (ops : List Operation) {s t : Set LockId} (h : s ⊆ t) :
    runLocks ops s ⊆ runLocks ops t := by
  induction ops generalizing s t with
  | nil => exact h
  | cons op ops ih => exact ih (op.action.locksAfter_mono h)

/-- An action adds no lock but the one that it names. -/
theorem Action.locksAfter_subset (action : Action) (s : Set LockId) :
    action.locksAfter s ⊆ s ∪ {l | action.lock? = some l} := by
  cases action with
  | acquire lock => exact subset_rfl
  | release lock => exact fun l hl => .inl hl.1
  | read target => exact Set.subset_union_left
  | write target => exact Set.subset_union_left
  | call callee locksHeld => exact Set.subset_union_left
  | nop => exact Set.subset_union_left

/-- An action does the same to a lock whatever else is held. -/
theorem Action.locksAfter_iInter {ι : Type} [Nonempty ι] (action : Action) (held : ι → Set LockId) :
    action.locksAfter (⋂ i, held i) = ⋂ i, action.locksAfter (held i) := by
  cases action with
  | acquire lock => exact Set.iInter_union _ _
  | release lock => simp only [locksAfter, Set.sdiff_eq, Set.iInter_inter]
  | read target => rfl
  | write target => rfl
  | call callee locksHeld => rfl
  | nop => rfl

/-- **Common locks**: what is common to several sets of held locks stays the common part. -/
theorem runLocks_iInter {ι : Type} [Nonempty ι] (ops : List Operation) (held : ι → Set LockId) :
    runLocks ops (⋂ i, held i) = ⋂ i, runLocks ops (held i) := by
  induction ops generalizing held with
  | nil => rfl
  | cons op ops ih =>
    show runLocks ops (op.action.locksAfter (⋂ i, held i)) = _
    rw [op.action.locksAfter_iInter, ih]
    rfl

namespace Method

variable {m : Method}

/-- Running on to the end of a block and over an edge extends the path. -/
theorem heldOnPath_step (p : List Nat) (a b : Nat) :
    m.heldOnPath (p ++ [a]) ⟨b, 0⟩ = runLocks (m.body.operations a) (m.heldOnPath p ⟨a, 0⟩) := by
  simp only [heldOnPath, FlowGraph.operationsBefore, List.flatMap_append, List.flatMap_singleton,
    List.take_zero, List.append_nil, runLocks_append]

/-- On a path, the locks held inside a block are those held at its start, carried along. -/
theorem heldOnPath_take (p : List Nat) (pos : OpPos) :
    m.heldOnPath p pos
      = runLocks ((m.body.operations pos.block).take pos.op) (m.heldOnPath p ⟨pos.block, 0⟩) := by
  simp only [heldOnPath, FlowGraph.operationsBefore, List.take_zero, List.append_nil,
    runLocks_append]

theorem alwaysHeld_eq_iInter (pos : OpPos) :
    m.alwaysHeld pos = ⋂ p : {p // m.body.Path p pos.block}, m.heldOnPath p.1 pos := by
  ext l
  simp only [alwaysHeld, Set.mem_ofPred_eq, Set.mem_iInter, Subtype.forall]

/-- Inside a block, the locks held on every path are those held at its start, carried along. -/
theorem alwaysHeld_take {pos : OpPos} (hb : m.body.Reachable pos.block) :
    m.alwaysHeld pos
      = runLocks ((m.body.operations pos.block).take pos.op) (m.alwaysHeld ⟨pos.block, 0⟩) := by
  obtain ⟨p, hp⟩ := hb
  -- over no path at all every lock would be held, and a release would lose one
  have hne : Nonempty {p // m.body.Path p pos.block} := ⟨p, hp⟩
  rw [alwaysHeld_eq_iInter, alwaysHeld_eq_iInter, runLocks_iInter]
  exact Set.iInter_congr fun q => heldOnPath_take q.1 pos

/-- What is held on every path to a block is held at the end of each of its reachable
predecessors. -/
theorem alwaysHeld_step {a b : Nat} (ha : m.body.Reachable a) (hb : b ∈ m.body.successors a) :
    m.alwaysHeld ⟨b, 0⟩ ⊆ runLocks (m.body.operations a) (m.alwaysHeld ⟨a, 0⟩) := by
  intro l hl
  obtain ⟨p, hp⟩ := ha
  have hne : Nonempty {p // m.body.Path p a} := ⟨p, hp⟩
  rw [alwaysHeld_eq_iInter, runLocks_iInter, Set.mem_iInter]
  rintro ⟨q, hq⟩
  have hq' := hl (q ++ [a]) (hq.step hb)
  rw [heldOnPath_step] at hq'
  exact hq'

/-! ## Only named locks are ever held -/

/-- The locks that a method names hold all that its operations acquire or release. -/
theorem mem_lockUniverse_of_operation {b : Nat} {op : Operation} (hop : op ∈ m.body.operations b)
    {l : LockId} (hl : op.action.lock? = some l) : l ∈ m.lockUniverse := by
  obtain ⟨i, hi⟩ := List.getElem?_of_mem hop
  rw [lockUniverse, SortedSet.mem_insertMany, List.mem_filterMap]
  exact .inr ⟨(⟨b, i⟩, op), FlowGraph.mem_positions.2 hi, hl⟩

/-- The set that tracking starts with has the locks held on entry. -/
theorem mem_entryLocks {l : LockId} : l ∈ m.entryLocks ↔ l ∈ m.locksOnEntry := by
  rw [entryLocks, SortedSet.mem_ofList, List.mem_append, locksOnEntry, Set.mem_union]
  refine or_congr ?_ ?_
  · by_cases hs : m.annotations.synchronized
    · simp [hs]
    · simp [hs]
  · rw [Option.mem_toList, Option.bind_eq_some_iff]
    rfl

theorem locksOnEntry_named : m.locksOnEntry ⊆ {l | l ∈ m.lockUniverse} := by
  intro l hl
  exact SortedSet.mem_insertMany.2 (.inl (mem_entryLocks.2 hl))

/-- Operations of the method acquire only locks that it names. -/
theorem runLocks_named {ops : List Operation} (hops : ∀ op ∈ ops, ∃ b, op ∈ m.body.operations b)
    {s : Set LockId} (hs : s ⊆ {l | l ∈ m.lockUniverse}) :
    runLocks ops s ⊆ {l | l ∈ m.lockUniverse} := by
  induction ops generalizing s with
  | nil => exact hs
  | cons op ops ih =>
    refine ih (fun op' h => hops op' (List.mem_cons_of_mem _ h)) fun l hl => ?_
    obtain ⟨b, hb⟩ := hops op List.mem_cons_self
    rcases op.action.locksAfter_subset s hl with hl | hl
    · exact hs hl
    · exact mem_lockUniverse_of_operation hb hl

theorem heldOnPath_named (p : List Nat) (pos : OpPos) :
    m.heldOnPath p pos ⊆ {l | l ∈ m.lockUniverse} := by
  refine runLocks_named (fun op hop => ?_) locksOnEntry_named
  rcases List.mem_append.1 hop with hop | hop
  · obtain ⟨b, -, hb⟩ := List.mem_flatMap.1 hop
    exact ⟨b, hb⟩
  · exact ⟨pos.block, List.mem_of_mem_take hop⟩

/-- Only locks that the method names are held on every path, if there is a path. -/
theorem alwaysHeld_named (pos : OpPos) (hb : m.body.Reachable pos.block) :
    m.alwaysHeld pos ⊆ {l | l ∈ m.lockUniverse} := by
  obtain ⟨p, hp⟩ := hb
  exact fun l hl => heldOnPath_named p pos (hl p hp)

end Method

end Interlock
