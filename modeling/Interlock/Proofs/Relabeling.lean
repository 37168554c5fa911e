import Interlock.Proofs.LockTracking

/-!
# Graphs with other operations

A dataflow problem sees the operations of its graph through the effects of the blocks. If
each operation is replaced by one of the same effect, the solver takes the same steps to
the same solution, and replaying it gives the same states. For lock tracking this is so
if the operations do the same to locks.

- `FlowGraph.map`: the graph with other operations.
- `Problem.map`, `Problem.solve_map`: a problem on such a graph has the same solution.
- `Solution.replay_map`: its states before operations.
- `Method.heldOver`: the states of lock tracking over any set of locks.
- `Method.Relabels`, `Method.Relabels.trackLocks`: lock tracking in a method with other
  operations.
-/

namespace Interlock

/-- Elements are replaced before or after each is seen with its place. -/
theorem mapIdx_map_comm {α β γ δ : Type} {f : α → β} {g : Nat → β → δ} {g' : Nat → α → γ}
    {h : γ → δ} (hcomm : ∀ i a, g i (f a) = h (g' i a)) (l : List α) :
    (l.map f).mapIdx g = (l.mapIdx g').map h := by
  refine List.ext_getElem? fun i => ?_
  rw [List.getElem?_mapIdx, List.getElem?_map, List.getElem?_map, List.getElem?_mapIdx]
  cases l[i]? with
  | none => rfl
  | some a => exact congrArg some (hcomm i a)

/-! ## Graphs -/

namespace FlowGraph

variable {Op Op' : Type}

/-- The graph with each operation replaced. -/
def map (f : Op → Op') (g : FlowGraph Op) : FlowGraph Op' :=
  ⟨g.blocks.map fun block => ⟨block.operations.map f, block.successors, block.predecessors⟩⟩

variable (f : Op → Op') (g : FlowGraph Op)

@[simp] theorem size_map : (g.map f).size = g.size := Array.size_map

@[simp] theorem operations_map (b : Nat) : (g.map f).operations b = (g.operations b).map f := by
  rw [operations, operations, map, Array.getElem?_map]
  cases g.blocks[b]? <;> rfl

@[simp] theorem successors_map (b : Nat) : (g.map f).successors b = g.successors b := by
  rw [successors, successors, map, Array.getElem?_map]
  cases g.blocks[b]? <;> rfl

@[simp] theorem predecessors_map (b : Nat) : (g.map f).predecessors b = g.predecessors b := by
  rw [predecessors, predecessors, map, Array.getElem?_map]
  cases g.blocks[b]? <;> rfl

/-- Operations are replaced where they stand. -/
theorem positions_map : (g.map f).positions = g.positions.map fun x => (x.1, f x.2) := by
  simp only [positions, size_map, operations_map, List.map_flatMap]
  refine List.flatMap_congr fun b _ => mapIdx_map_comm ?_ _
  exact fun _ _ => rfl

/-- The order of blocks is a matter of edges. -/
theorem reversePostOrder_map : (g.map f).reversePostOrder = g.reversePostOrder := by
  have hnext : (g.map f).next = g.next := by
    funext b
    rw [next, next, successors_map, size_map]
  rw [reversePostOrder, reversePostOrder, size_map, hnext]

theorem worklist_map : (g.map f).worklist = g.worklist := by
  rw [worklist, worklist, reversePostOrder_map]

end FlowGraph

/-! ## Problems -/

namespace Problem

variable {Op Op' D : Type}

/-- The problem on the graph with other operations; the effects of its blocks stay. -/
def map (f : Op → Op') (p : Problem Op D) : Problem Op' D := { p with graph := p.graph.map f }

/-- If each operation is replaced by one of the same effect, the problem of the new operations is
the old problem on the new graph. -/
theorem ofOperations_map {f : Op → Op'} {effect : Op → D → D} {effect' : Op' → D → D}
    (h : ∀ op, effect' (f op) = effect op) (g : FlowGraph Op) (seed : D)
    (edge : Nat → Nat → D → Option D) :
    ofOperations (g.map f) seed effect' edge = (ofOperations g seed effect edge).map f := by
  have hblock : (fun b => runOperations effect' ((g.map f).operations b))
      = fun b => runOperations effect (g.operations b) := by
    funext b d
    rw [runOperations, runOperations, FlowGraph.operations_map, List.foldl_map]
    simp only [h]
  rw [ofOperations, hblock]
  rfl

variable [JoinSemilattice D] (f : Op → Op') (p : Problem Op D)

theorem start_map : (p.map f).start = p.start := by
  simp only [start, map, FlowGraph.size_map, FlowGraph.worklist_map]

/-- States are merged over the same predecessors. -/
theorem entryState_map (s : Solution D) (b : Nat) :
    (p.map f).entryState s b = p.entryState s b := by
  rw [entryState, entryState]
  show List.foldl _ _ ((p.graph.map f).predecessors b) = _
  rw [FlowGraph.predecessors_map]
  rfl

variable [DecidableEq D]

/-- A visit does the same on both graphs. -/
theorem visit_map (r : Progress D) (b : Nat) : (p.map f).visit r b = p.visit r b := by
  have hsuccessors : (p.map f).graph.successors b = p.graph.successors b :=
    p.graph.successors_map f b
  rw [visit, visit, entryState_map, hsuccessors]
  rfl

/-- So does a run, visit by visit. -/
theorem run_map (limit : Nat) (r : Progress D) : (p.map f).run limit r = p.run limit r := by
  induction limit generalizing r with
  | zero => rfl
  | succ limit ih =>
    rw [run, run]
    simp only [ih, visit_map]

/-- **Solver**: the problem on the graph with other operations has the same solution, or is given up
on at the same limit. -/
theorem solve_map [Height D] (limit : Option Nat) : (p.map f).solve limit = p.solve limit := by
  -- without a limit, the visits allowed are counted by the edges, which stay
  have hbound : (p.map f).visitBound = p.visitBound := by
    simp only [visitBound, map, FlowGraph.map, Array.toList_map, List.flatMap_map]
  rw [solve, solve, solveWithin, solveWithin, start_map, run_map, hbound]

end Problem

/-- **Replay**: the states before the operations stay, if their effects do. -/
theorem Solution.replay_map {Op Op' D : Type} {f : Op → Op'} {effect : Op → D → D}
    {effect' : Op' → D → D} (h : ∀ op, effect' (f op) = effect op) (s : Solution D)
    (g : FlowGraph Op) :
    s.replay (g.map f) effect' = (s.replay g effect).map fun x => (x.1, f x.2.1, x.2.2) := by
  have hrun : ∀ ops d, runOperations effect' (ops.map f) d = runOperations effect ops d := by
    intro ops d
    rw [runOperations, runOperations, List.foldl_map]
    simp only [h]
  rw [replay, replay, FlowGraph.size_map, List.map_flatMap]
  refine List.flatMap_congr fun b _ => ?_
  cases s.pre[b]? with
  | none => rfl
  | some pre =>
    dsimp only
    split
    · rw [FlowGraph.operations_map]
      refine mapIdx_map_comm (fun i op => ?_) _
      rw [← List.map_take, hrun]
    · rfl

/-! ## Lock tracking -/

namespace Method

/-- The effect of an operation on the locks held, among the given locks. -/
def heldEffectOver (named : LockSet) (op : Operation) (d : HeldLocks named) : HeldLocks named :=
  .of (op.action.lockEffect d.locks)

/-- The problem of lock tracking over the given locks. -/
def lockProblemOver (named : LockSet) (m : Method) : Problem Operation (HeldLocks named) :=
  .ofOperations m.body (.of m.entryLocks) (heldEffectOver named) fun _ _ d => some d

/-- The number of visits and the locks held before each operation, tracked over the given locks. -/
def heldOver (named : LockSet) (m : Method) (budget : Option Nat) :
    Except LimitReached (Nat × List (OpPos × Operation × LockSet)) :=
  ((m.lockProblemOver named).solve budget).map fun s =>
    (s.steps, (s.replay m.body (heldEffectOver named)).map fun x => (x.1, x.2.1, x.2.2.locks))

/-- Lock tracking is over the locks that the method names. -/
theorem trackLocks_eq_heldOver (m : Method) (budget : Option Nat) :
    m.trackLocks budget = (m.heldOver m.lockUniverse budget).map fun x => m.tag x.1 x.2 := by
  -- over the locks that the method names, the two problems are the same term
  show (m.lockProblem.solve budget >>= _) = Except.map _ ((m.lockProblem.solve budget).map _)
  cases m.lockProblem.solve budget <;> rfl

/-- `m.Relabels f m'`: the second method has the operations that `f` makes of those of the first,
and does the same to locks. -/
structure Relabels (m : Method) (f : Operation → Operation) (m' : Method) : Prop where
  body : m'.body = m.body.map f
  entryLocks : m'.entryLocks = m.entryLocks
  lock : ∀ op, (f op).action.lock? = op.action.lock?
  effect : ∀ op, (f op).action.lockEffect = op.action.lockEffect

namespace Relabels

variable {m m' : Method} {f : Operation → Operation} (h : m.Relabels f m')

include h

/-- The same locks are named. -/
theorem lockUniverse : m'.lockUniverse = m.lockUniverse := by
  simp only [Method.lockUniverse, h.body, h.entryLocks, FlowGraph.positions_map,
    List.filterMap_map, Function.comp_def, h.lock]

/-- Over any locks, the same ones are held before the operation that `f` makes of one. -/
theorem heldOver (named : LockSet) (budget : Option Nat) : m'.heldOver named budget
    = (m.heldOver named budget).map fun x => (x.1, x.2.map fun y => (y.1, f y.2.1, y.2.2)) := by
  have heffect : ∀ op, heldEffectOver named (f op) = heldEffectOver named op := by
    intro op
    funext d
    rw [heldEffectOver, heldEffectOver, h.effect]
  -- the locks are fixed beforehand, so the states of both problems are of one type
  have hproblem : m'.lockProblemOver named = (m.lockProblemOver named).map f := by
    rw [lockProblemOver, h.body, h.entryLocks, Problem.ofOperations_map heffect]
    rfl
  rw [Method.heldOver, Method.heldOver, hproblem, Problem.solve_map, h.body]
  cases (m.lockProblemOver named).solve budget with
  | error e => rfl
  | ok s =>
    simp only [Except.map]
    rw [Solution.replay_map heffect, List.map_map, List.map_map]
    rfl

/-- **Lock tracking**: the same locks are found before the same places, or both methods are given up
on. -/
theorem trackLocks (budget : Option Nat) : m'.trackLocks budget
    = (m.heldOver m.lockUniverse budget).map fun x =>
        m'.tag x.1 (x.2.map fun y => (y.1, f y.2.1, y.2.2)) := by
  rw [trackLocks_eq_heldOver, h.lockUniverse, h.heldOver]
  cases m.heldOver m.lockUniverse budget <;> rfl

end Relabels

end Method

end Interlock
