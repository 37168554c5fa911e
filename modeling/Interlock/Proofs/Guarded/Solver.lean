import Interlock.Proofs.Guarded.Search
import Interlock.Proofs.LeastSolution
import Interlock.Proofs.VisitingOrder

/-!
# The solver with every look-up guarded

The worklist solver, with each look-up of a block, a rank, a mark or a state allowed to
fail. The states may also be represented otherwise than in the problem that is solved, and
the effects of operations on them may fail.

- `FlowGraph.reversePostOrder?`, `FlowGraph.ranks?`: the visiting order, as a list and as ranks of
  blocks.
- `RankedQueue`: waiting blocks with their ranks.
- `GuardedProblem.visit?`, `GuardedProblem.finish?`, `GuardedProblem.solve?`: one visit, all visits,
  the solution.
- `GuardedProblem.replay?`: the state before every operation of the reached blocks.
- `GuardedProblem.Represents.solve?`, `GuardedProblem.Represents.replay?`: on a graph in which
  edges and predecessor lists name existing blocks only, no look-up fails, and the result is that
  of `Problem.solve` and `Solution.replay`.
-/

namespace Interlock

/-! ## The visiting order -/

namespace FlowGraph

variable {Op : Type} {g : FlowGraph Op}

/-- The successor of block `v` to search next, after `i` of them; the last one comes first. -/
def peek? (g : FlowGraph Op) (v i : Nat) : Option (Option Nat) := do
  let block ← g.blocks[v]?
  if i < block.successors.length then
    return some (← block.successors[block.successors.length - 1 - i]?)
  else return none

/-- The blocks reached from the entry in reverse post-order. -/
def reversePostOrder? (g : FlowGraph Op) : Option (List Nat) :=
  if g.size = 0 then some [] else searchOrder? g.peek? g.size [0]

/-- The place of each block in the visiting order; the greatest number, if it is not in it. -/
def ranks? (g : FlowGraph Op) : Option (Array Nat) := do
  let order ← g.reversePostOrder?
  order.zipIdx.foldlM (fun ranks e => store? ranks e.1 e.2) (.replicate g.size wordMax)

/-- The block to search next is the next successor from the end. -/
theorem peek?_eq_some {v : Nat} (hv : v < g.size) (i : Nat) :
    g.peek? v i = some ((g.successors v).reverse[i]?) := by
  have hblock : g.blocks[v]? = some g.blocks[v] := Array.getElem?_eq_getElem hv
  have hsuccessors : g.successors v = g.blocks[v].successors := by rw [successors, hblock]; rfl
  rw [hsuccessors, peek?, hblock]
  show (if i < g.blocks[v].successors.length then _ else _) = _
  by_cases hi : i < g.blocks[v].successors.length
  · have hlt : g.blocks[v].successors.length - 1 - i < g.blocks[v].successors.length := by omega
    rw [if_pos hi, List.getElem?_reverse hi, List.getElem?_eq_getElem hlt]
    rfl
  · rw [if_neg hi, List.getElem?_eq_none (by rw [List.length_reverse]; omega)]
    rfl

/-- **Visiting order**: no look-up of the search for it fails. -/
theorem reversePostOrder?_eq_some (hg : g.WellFormed) :
    g.reversePostOrder? = some g.reversePostOrder := by
  rw [reversePostOrder?, reversePostOrder]
  split
  · rfl
  · next hsize =>
    refine searchOrder?_eq_some (fun v hv i => ?_) (fun v _ w hw => ?_) (fun v hv => ?_)
    · rw [peek?_eq_some hv, next_of_wellFormed hg]
    · exact of_decide_eq_true (List.mem_filter.1 hw).2
    · rw [List.mem_singleton.1 hv]
      exact Nat.pos_of_ne_zero hsize

/-- The search fails at once if the first edge that it follows leads out of the graph. -/
theorem reversePostOrder?_eq_none (h0 : 0 < g.size) {target : Nat}
    (hlast : (g.successors 0).getLast? = some target) (hmissing : g.size ≤ target) :
    g.reversePostOrder? = none := by
  have hpeek : g.peek? 0 0 = some (some target) := by
    rw [peek?_eq_some h0, ← List.head?_eq_getElem?, List.head?_reverse, hlast]
  -- the entry is marked, and the next look-up is for the mark of a block that does not exist
  have hmarks : ((Array.replicate g.size false).setIfInBounds 0 true)[target]? = none := by
    rw [Array.getElem?_eq_none]
    rwa [Array.size_setIfInBounds, Array.size_replicate]
  have hstack : StackSearch.finish? g.peek?
      ⟨(Array.replicate g.size false).setIfInBounds 0 true, [(0, 0)], []⟩ = none := by
    rw [StackSearch.finish?, hpeek]
    show Option.bind (Array.setIfInBounds _ 0 true)[target]? _ = none
    rw [hmarks, Option.bind_none]
  have hroot : searchRoot? g.peek? (.replicate g.size false, []) 0 = none := by
    have hunmarked : (Array.replicate g.size false)[0]? = some false := by
      rw [Array.getElem?_replicate, if_pos h0]
    unfold searchRoot?
    rw [hunmarked, store?_of_lt (by rwa [Array.size_replicate])]
    exact hstack
  rw [reversePostOrder?, if_neg h0.ne', searchOrder?, List.foldlM_cons, hroot]
  rfl

/-- No look-up fails when the ranks of blocks are stored. -/
theorem exists_ranks? (hg : g.WellFormed) :
    ∃ ranks, g.ranks? = some ranks ∧ ∀ b < g.size, ranks[b]? = some (g.worklist.rank b) := by
  have hnodup := g.nodup_reversePostOrder
  obtain ⟨ranks, hfold, -, hsame, hset⟩ := exists_foldlM_store? g.reversePostOrder.zipIdx
    (.replicate g.size wordMax) fun e he => by
      rw [Array.size_replicate]
      exact lt_size_of_mem_reversePostOrder (List.fst_mem_of_mem_zipIdx he)
  refine ⟨ranks, ?_, fun b hb => ?_⟩
  · rw [ranks?, reversePostOrder?_eq_some hg]
    exact hfold
  · -- each block is stored once, at its own place in the order
    have hentry : ∀ e ∈ g.reversePostOrder.zipIdx, e.2 = g.reversePostOrder.idxOf e.1 := by
      intro e he
      obtain ⟨hlt, heq⟩ := List.getElem?_eq_some_iff.1 (List.mem_zipIdx_iff_getElem?.1 he)
      rw [← heq, hnodup.idxOf_getElem]
    by_cases hmem : b ∈ g.reversePostOrder
    · have hplace : (b, g.reversePostOrder.idxOf b) ∈ g.reversePostOrder.zipIdx :=
        List.mem_zipIdx_iff_getElem?.2 (List.getElem?_idxOf hmem)
      rw [rank_worklist_of_mem hmem]
      exact hset _ hplace fun e' he' heq => by rw [hentry e' he', heq]
    · have hnot : ∀ e ∈ g.reversePostOrder.zipIdx, e.1 ≠ b := by
        rintro e he rfl
        exact hmem (List.fst_mem_of_mem_zipIdx he)
      rw [hsame b hnot, Array.getElem?_replicate, if_pos hb, rank_worklist_of_not_mem hmem]

end FlowGraph

/-! ## Waiting blocks -/

/-- Waiting blocks with their ranks, the next one first. -/
structure RankedQueue where
  ranks : Array Nat
  waiting : List (Nat × Nat) := []

namespace RankedQueue

/-- Put a block before the first one that ranks behind it. -/
def insert (b rank : Nat) : List (Nat × Nat) → List (Nat × Nat)
  | [] => [(b, rank)]
  | (c, r) :: rest => if rank < r then (b, rank) :: (c, r) :: rest else (c, r) :: insert b rank rest

/-- Look up the rank of `b` and let it wait, unless it does already. -/
def push? (q : RankedQueue) (b : Nat) : Option RankedQueue := do
  let rank ← q.ranks[b]?
  return if b ∈ q.waiting.map (·.1) then q else { q with waiting := insert b rank q.waiting }

/-- The queue before any visit, in which the entry waits. -/
def start? {Op : Type} (g : FlowGraph Op) : Option RankedQueue := do
  let ranks ← g.ranks?
  if g.size = 0 then return ⟨ranks, []⟩ else RankedQueue.push? ⟨ranks, []⟩ 0

/-- `q.Shows size w`: the queue holds the waiting blocks of `w` in order, and knows the ranks of the
blocks below `size`. -/
structure Shows (q : RankedQueue) (size : Nat) (w : Worklist) : Prop where
  ranks_eq : ∀ b < size, q.ranks[b]? = some (w.rank b)
  waiting_eq : q.waiting = w.waiting.map fun b => (b, w.rank b)

/-- A block is put before the same blocks, whether their ranks are looked up or stored. -/
theorem insert_map (rank : Nat → Nat) (b : Nat) (l : List Nat) :
    insert b (rank b) (l.map fun c => (c, rank c))
      = (Worklist.insertBy rank b l).map fun c => (c, rank c) := by
  induction l with
  | nil => rfl
  | cons c l ih =>
    rw [List.map_cons, insert, Worklist.insertBy]
    split
    · rfl
    · rw [ih, List.map_cons]

variable {q : RankedQueue} {size : Nat} {w : Worklist}

/-- No look-up fails when a block of the graph is pushed, and the two queues stay in step. -/
theorem Shows.push? (h : q.Shows size w) {b : Nat} (hb : b < size) :
    ∃ q', q.push? b = some q' ∧ q'.Shows size (w.push b) := by
  have hmem : b ∈ q.waiting.map (·.1) ↔ b ∈ w.waiting := by
    rw [h.waiting_eq, List.map_map, Function.comp_def, List.map_id']
  rw [RankedQueue.push?, h.ranks_eq b hb]
  refine ⟨_, rfl, ?_, ?_⟩
  · rw [Worklist.rank_push]
    split
    · exact h.ranks_eq
    · exact h.ranks_eq
  · rw [Worklist.rank_push, Worklist.push]
    by_cases hwaits : b ∈ w.waiting
    · rw [if_pos (hmem.2 hwaits), if_pos hwaits]
      exact h.waiting_eq
    · rw [if_neg (fun hin => hwaits (hmem.1 hin)), if_neg hwaits]
      show insert b (w.rank b) q.waiting = _
      rw [h.waiting_eq, insert_map]

/-- The same for several blocks. -/
theorem Shows.pushAll? (h : q.Shows size w) {bs : List Nat} (hbs : ∀ b ∈ bs, b < size) :
    ∃ q', bs.foldlM RankedQueue.push? q = some q' ∧ q'.Shows size (w.pushAll bs) := by
  induction bs generalizing q w with
  | nil => exact ⟨q, rfl, h⟩
  | cons b bs ih =>
    obtain ⟨q₁, hpush, hq₁⟩ := h.push? (hbs b List.mem_cons_self)
    obtain ⟨q₂, hrest, hq₂⟩ := ih hq₁ fun c hc => hbs c (List.mem_cons_of_mem _ hc)
    refine ⟨q₂, ?_, hq₂⟩
    rw [List.foldlM_cons, hpush]
    exact hrest

/-- No look-up fails before the first visit. -/
theorem exists_start? {Op : Type} {g : FlowGraph Op} (hg : g.WellFormed) :
    ∃ q, start? g = some q ∧
      q.Shows g.size (if g.size = 0 then g.worklist else g.worklist.push 0) := by
  obtain ⟨ranks, hranks, hrank⟩ := FlowGraph.exists_ranks? hg
  have hshows : (RankedQueue.mk ranks []).Shows g.size g.worklist := ⟨hrank, rfl⟩
  rw [start?, hranks]
  by_cases hsize : g.size = 0
  · rw [if_pos hsize]
    refine ⟨⟨ranks, []⟩, ?_, hshows⟩
    show (if g.size = 0 then _ else _) = _
    rw [if_pos hsize]
    rfl
  · obtain ⟨q, hpush, hq⟩ := hshows.push? (Nat.pos_of_ne_zero hsize)
    rw [if_neg hsize]
    refine ⟨q, ?_, hq⟩
    show (if g.size = 0 then _ else _) = _
    rw [if_neg hsize]
    exact hpush

end RankedQueue

/-! ## The solver -/

/-- A dataflow problem in which the effect of an operation may fail. -/
structure GuardedProblem (Op D : Type) where
  graph : FlowGraph Op
  seed : D
  effect? : OpPos → Op → D → Option D
  edge : Nat → Nat → D → Option D

/-- A guarded solver under way. -/
structure GuardedProgress (D : Type) where
  solution : Solution D
  queue : RankedQueue

namespace GuardedProblem

variable {Op D : Type}

/-- The effect of the operations of block `b`. -/
def block? (p : GuardedProblem Op D) (b : Nat) (d : D) : Option D := do
  let block ← p.graph.blocks[b]?
  block.operations.zipIdx.foldlM (fun d e => p.effect? ⟨b, e.2⟩ e.1 d) d

/-- The state before an operation and those before the ones after it in its block. -/
def replayFrom? (p : GuardedProblem Op D) (b i : Nat) : List Op → D → Option (List (OpPos × Op × D))
  | [], _ => some []
  | op :: ops, d => do
    let after ← p.effect? ⟨b, i⟩ op d
    return (⟨b, i⟩, op, d) :: (← p.replayFrom? b (i + 1) ops after)

/-- The state before each operation of block `b`, if it was reached. -/
def replayBlock? (p : GuardedProblem Op D) (s : Solution D) (b : Nat) :
    Option (List (OpPos × Op × D)) := do
  if ← s.reached[b]? then
    let block ← p.graph.blocks[b]?
    p.replayFrom? b 0 block.operations (← s.pre[b]?)
  else return []

/-- The state before each operation of the reached blocks, in block order. -/
def replay? (p : GuardedProblem Op D) (s : Solution D) : Option (List (OpPos × Op × D)) :=
  ((List.range p.graph.size).mapM (p.replayBlock? s)).map List.flatten

variable [JoinSemilattice D]

/-- Join what the edge from `a` to `b` brings to the state before `b`. -/
def joinEdge? (p : GuardedProblem Op D) (s : Solution D) (b : Nat) (d : D) (a : Nat) :
    Option D := do
  if ← s.reached[a]? then
    let post ← s.post[a]?
    return ((p.edge a b post).map (join d)).getD d
  else return d

/-- The state before block `b`. -/
def entryState? (p : GuardedProblem Op D) (s : Solution D) (b : Nat) : Option D := do
  let block ← p.graph.blocks[b]?
  block.predecessors.foldlM (p.joinEdge? s b) (if b = 0 then p.seed else bottom)

variable [DecidableEq D]

/-- Visit block `b`. -/
def visit? (p : GuardedProblem Op D) (r : GuardedProgress D) (b : Nat) :
    Option (GuardedProgress D) := do
  let s := r.solution
  let pre ← p.entryState? s b
  let post ← p.block? b pre
  let pres ← store? s.pre b pre
  let seen ← s.reached[b]?
  let old ← s.post[b]?
  if seen ∧ old = post then
    return { r with solution := { s with pre := pres, steps := s.steps + 1 } }
  else
    let reached ← store? s.reached b true
    let posts ← store? s.post b post
    let block ← p.graph.blocks[b]?
    let queue ← block.successors.foldlM RankedQueue.push? r.queue
    return ⟨⟨pres, posts, reached, s.steps + 1⟩, queue⟩

/-- Visit waiting blocks until none waits or the limit, if there is one, is used up. There is no
answer if neither ever happens. -/
def finish? (p : GuardedProblem Op D) (limit : Option Nat) (r : GuardedProgress D) :
    Option (Except LimitReached (Solution D)) :=
  match r.queue.waiting with
  | [] => some (.ok r.solution)
  | (b, _) :: rest =>
    match limit.filter (· ≤ r.solution.steps) with
    | some limit => some (.error ⟨limit⟩)
    | none => do
      let r ← p.visit? { r with queue := { r.queue with waiting := rest } } b
      p |>.finish? limit r
partial_fixpoint

/-- The solution under an optional limit on block visits. -/
def solve? (p : GuardedProblem Op D) (limit : Option Nat) :
    Option (Except LimitReached (Solution D)) := do
  let queue ← RankedQueue.start? p.graph
  let states : Array D := .replicate p.graph.size bottom
  p.finish? limit ⟨⟨states, states, .replicate p.graph.size false, 0⟩, queue⟩

end GuardedProblem

/-! ## Agreement -/

/-- A solution with each state replaced by what it stands for. -/
def Solution.map {D D' : Type} (f : D → D') (s : Solution D) : Solution D' where
  pre := s.pre.map f
  post := s.post.map f
  reached := s.reached
  steps := s.steps

/-- The state before each operation of block `b`, if it was reached. -/
def Solution.replayBlock {Op D : Type} (s : Solution D) (graph : FlowGraph Op)
    (effect : Op → D → D) (b : Nat) : List (OpPos × Op × D) :=
  match s.pre[b]? with
  | some pre =>
    if s.isReached b then
      (graph.operations b).mapIdx fun i op =>
        (⟨b, i⟩, op, runOperations effect ((graph.operations b).take i) pre)
    else []
  | none => []

theorem Solution.isReached_map {D D' : Type} {f : D → D'} {s : Solution D} {b : Nat} {seen : Bool}
    (h : s.reached[b]? = some seen) : (s.map f).isReached b = seen := by
  show s.reached[b]?.getD false = seen
  rw [h, Option.getD_some]

theorem Solution.post_map {D D' : Type} {f : D → D'} {s : Solution D} {b : Nat} {post : D}
    (h : s.post[b]? = some post) : (s.map f).post[b]? = some (f post) := by
  show (s.post.map f)[b]? = _
  rw [Array.getElem?_map, h, Option.map_some]

namespace GuardedProblem

variable {Op D D' : Type} [JoinSemilattice D] [JoinSemilattice D'] [DecidableEq D] [DecidableEq D']

/-- `p.Represents f effect q`: the states of `p` stand, by way of `f`, for those of the problem `q`
in which operations have the given effect, and no effect on them fails. -/
structure Represents (p : GuardedProblem Op D) (f : D → D') (effect : Op → D' → D')
    (q : Problem Op D') : Prop where
  graph_eq : q.graph = p.graph
  seed_eq : q.seed = f p.seed
  block_eq : ∀ b, q.block b = runOperations effect (q.graph.operations b)
  edge_eq : ∀ a b d, q.edge a b (f d) = (p.edge a b d).map f
  injective : Function.Injective f
  bottom_eq : f bottom = bottom
  join_eq : ∀ d d', f (join d d') = join (f d) (f d')
  effect?_eq : ∀ pos op d, (pos, op) ∈ p.graph.positions →
    ∃ d', p.effect? pos op d = some d' ∧ f d' = effect op (f d)

namespace Represents

variable {p : GuardedProblem Op D} {f : D → D'} {effect : Op → D' → D'} {q : Problem Op D'}

omit [DecidableEq D] [DecidableEq D'] in
/-- The operations of a block, from some place on, have their effects. -/
theorem foldlM_effect? (h : p.Represents f effect q) {b : Nat} {ops : List Op} {i : Nat}
    (hops : (p.graph.operations b).drop i = ops) (d : D) :
    ∃ d', (ops.zipIdx i).foldlM (fun d e => p.effect? ⟨b, e.2⟩ e.1 d) d = some d' ∧
      f d' = runOperations effect ops (f d) := by
  induction ops generalizing i d with
  | nil => exact ⟨d, rfl, rfl⟩
  | cons op ops ih =>
    have hop : (p.graph.operations b)[i]? = some op := by
      rw [← List.head?_drop, hops, List.head?_cons]
    have hrest : (p.graph.operations b).drop (i + 1) = ops := by
      rw [← List.tail_drop, hops, List.tail_cons]
    obtain ⟨d₁, heffect, hd₁⟩ := h.effect?_eq ⟨b, i⟩ op d (FlowGraph.mem_positions.2 hop)
    obtain ⟨d₂, hfold, hd₂⟩ := ih hrest d₁
    refine ⟨d₂, ?_, ?_⟩
    · rw [List.zipIdx_cons, List.foldlM_cons, heffect]
      exact hfold
    · rw [hd₂, hd₁]
      rfl

omit [DecidableEq D] [DecidableEq D'] in
/-- No effect of the operations of a block fails. -/
theorem block? (h : p.Represents f effect q) {b : Nat} (hb : b < p.graph.size) (d : D) :
    ∃ d', p.block? b d = some d' ∧ f d' = q.block b (f d) := by
  have hblock : p.graph.blocks[b]? = some p.graph.blocks[b] := Array.getElem?_eq_getElem hb
  have hops : (p.graph.operations b).drop 0 = p.graph.blocks[b].operations := by
    rw [FlowGraph.operations, hblock]
    rfl
  obtain ⟨d', hfold, hd'⟩ := h.foldlM_effect? hops d
  refine ⟨d', ?_, ?_⟩
  · rw [GuardedProblem.block?, hblock]
    exact hfold
  · rw [hd', h.block_eq, h.graph_eq, ← hops]
    rfl

omit [JoinSemilattice D] [JoinSemilattice D'] [DecidableEq D] [DecidableEq D'] in
theorem exists_getElem? {α : Type} {cells : Array α} {size i : Nat} (hsize : cells.size = size)
    (hi : i < size) : ∃ a, cells[i]? = some a := by
  subst hsize
  exact ⟨_, Array.getElem?_eq_getElem hi⟩

/-- The arrays of a solution have a cell for every block. -/
structure Sized (size : Nat) (s : Solution D) : Prop where
  pre : s.pre.size = size
  post : s.post.size = size
  reached : s.reached.size = size

omit [DecidableEq D] [DecidableEq D'] in
/-- An edge brings the same to the state before its target. -/
theorem joinEdge? (h : p.Represents f effect q) {s : Solution D} (hs : Sized p.graph.size s)
    {a : Nat} (ha : a < p.graph.size) (b : Nat) (d : D) :
    ∃ d', p.joinEdge? s b d a = some d' ∧
      f d' = ((q.brought (s.map f) a b).map (join (f d))).getD (f d) := by
  obtain ⟨seen, hseen⟩ := exists_getElem? hs.reached ha
  obtain ⟨post, hpost⟩ := exists_getElem? hs.post ha
  rw [GuardedProblem.joinEdge?, hseen, hpost, Problem.brought, Solution.isReached_map hseen,
    Solution.post_map hpost, Option.bind_some, h.edge_eq]
  cases seen with
  | false => exact ⟨d, rfl, rfl⟩
  | true =>
    refine ⟨_, rfl, ?_⟩
    cases hedge : p.edge a b post with
    | none => simp
    | some brought => simp [h.join_eq]

omit [DecidableEq D] [DecidableEq D'] in
/-- The state before a block is merged from the same predecessors, if these are blocks of the graph.
-/
theorem entryState? (h : p.Represents f effect q) {s : Solution D} (hs : Sized p.graph.size s)
    (hp : ∀ b, ∀ a ∈ p.graph.predecessors b, a < p.graph.size) {b : Nat} (hb : b < p.graph.size) :
    ∃ d, p.entryState? s b = some d ∧ f d = q.entryState (s.map f) b := by
  have hfold : ∀ (as : List Nat) (d : D), (∀ a ∈ as, a < p.graph.size) →
      ∃ d', as.foldlM (p.joinEdge? s b) d = some d' ∧
        f d' = as.foldl (fun d a => ((q.brought (s.map f) a b).map (join d)).getD d) (f d) := by
    intro as
    induction as with
    | nil => exact fun d _ => ⟨d, rfl, rfl⟩
    | cons a as ih =>
      intro d has
      obtain ⟨d₁, hjoin, hd₁⟩ := h.joinEdge? hs (has a List.mem_cons_self) b d
      obtain ⟨d₂, hrest, hd₂⟩ := ih d₁ fun c hc => has c (List.mem_cons_of_mem _ hc)
      refine ⟨d₂, ?_, ?_⟩
      · rw [List.foldlM_cons, hjoin]
        exact hrest
      · rw [hd₂, hd₁, List.foldl_cons]
  have hblock : p.graph.blocks[b]? = some p.graph.blocks[b] := Array.getElem?_eq_getElem hb
  have hpredecessors : p.graph.predecessors b = p.graph.blocks[b].predecessors := by
    rw [FlowGraph.predecessors, hblock]
    rfl
  obtain ⟨d, hd, heq⟩ := hfold (p.graph.predecessors b) (if b = 0 then p.seed else bottom) (hp b)
  refine ⟨d, ?_, ?_⟩
  · rw [GuardedProblem.entryState?, hblock]
    rw [hpredecessors] at hd
    exact hd
  · rw [heq, Problem.entryState_eq, h.graph_eq, h.seed_eq, ← h.bottom_eq, apply_ite f]

/-- `Tracks p f r r'`: a guarded solver under way stands for another one. -/
structure Tracks (p : GuardedProblem Op D) (f : D → D') (r : GuardedProgress D) (r' : Progress D') :
    Prop where
  sized : Sized p.graph.size r.solution
  solution_eq : r'.solution = r.solution.map f
  shows : r.queue.Shows p.graph.size r'.worklist
  waiting_lt : ∀ b ∈ r'.worklist.waiting, b < p.graph.size

/-- **One visit**: no look-up fails, and afterwards the two solvers are in step again. -/
theorem visit? (h : p.Represents f effect q) (hg : p.graph.WellFormed)
    (hp : ∀ b, ∀ a ∈ p.graph.predecessors b, a < p.graph.size) {r : GuardedProgress D}
    {r' : Progress D'} (hr : Tracks p f r r') {b : Nat} (hb : b < p.graph.size) :
    ∃ r₁, p.visit? r b = some r₁ ∧ Tracks p f r₁ (q.visit r' b) := by
  obtain ⟨pre, hpre, hpre'⟩ := h.entryState? hr.sized hp hb
  obtain ⟨post, hpost, hpost'⟩ := h.block? hb pre
  obtain ⟨seen, hseen⟩ := exists_getElem? hr.sized.reached hb
  obtain ⟨old, hold⟩ := exists_getElem? hr.sized.post hb
  have hblock : p.graph.blocks[b]? = some p.graph.blocks[b] := Array.getElem?_eq_getElem hb
  have hsuccessors : q.graph.successors b = p.graph.blocks[b].successors := by
    rw [h.graph_eq, FlowGraph.successors, hblock]
    rfl
  rw [← hr.solution_eq] at hpre'
  rw [hpre'] at hpost'
  have hstore := store?_of_lt (hr.sized.pre ▸ hb) pre
  -- the two solvers agree on whether anything changed: different states stand for different ones
  have hsame : (r'.solution.isReached b ∧
      r'.solution.post[b]? = some (q.block b (q.entryState r'.solution b))) ↔
      (seen = true ∧ old = post) := by
    rw [← hpost', hr.solution_eq, Solution.isReached_map hseen, Solution.post_map hold,
      Option.some_inj, h.injective.eq_iff]
  have hmap : r'.solution.pre.setIfInBounds b (q.entryState r'.solution b)
      = (r.solution.pre.setIfInBounds b pre).map f := by
    rw [Array.map_setIfInBounds, hpre', hr.solution_eq]
    rfl
  simp only [GuardedProblem.visit?, hpre, hpost, hstore, hseen, hold, Option.bind_eq_bind,
    Option.bind_some]
  by_cases hcond : seen = true ∧ old = post
  · rw [if_pos hcond, Problem.visit, if_pos (hsame.2 hcond)]
    refine ⟨_, rfl, ⟨?_, hr.sized.post, hr.sized.reached⟩, ?_, hr.shows, hr.waiting_lt⟩
    · rw [Array.size_setIfInBounds, hr.sized.pre]
    · rw [hmap, hr.solution_eq]
      rfl
  · -- something changed, so the state is stored and the successors wait
    have hlt : ∀ c ∈ p.graph.blocks[b].successors, c < p.graph.size :=
      hg _ (Array.getElem_mem hb)
    obtain ⟨queue, hpush, hshows⟩ := hr.shows.pushAll? hlt
    rw [if_neg hcond, Problem.visit, if_neg fun hin => hcond (hsame.1 hin)]
    simp only [store?_of_lt (hr.sized.reached ▸ hb), store?_of_lt (hr.sized.post ▸ hb), hblock,
      hpush, Option.bind_some]
    refine ⟨_, rfl, ⟨?_, ?_, ?_⟩, ?_, ?_, fun c hc => ?_⟩
    · rw [Array.size_setIfInBounds, hr.sized.pre]
    · rw [Array.size_setIfInBounds, hr.sized.post]
    · rw [Array.size_setIfInBounds, hr.sized.reached]
    · rw [hmap, ← hpost', hr.solution_eq, Solution.map, Solution.map]
      simp only [Array.map_setIfInBounds]
    · rw [hsuccessors]
      exact hshows
    · rw [hsuccessors, Worklist.mem_pushAll] at hc
      exact hc.elim (hlt c) (hr.waiting_lt c)

/-- `Answers size f outcome answer`: an outcome over states that stand for others says the same as
an answer over those. -/
def Answers (size : Nat) (f : D → D') :
    Except LimitReached (Solution D) → Except LimitReached (Solution D') → Prop
  | .ok s, .ok s' => Sized size s ∧ s' = s.map f
  | .error e, .error e' => e = e'
  | _, _ => False

omit [JoinSemilattice D] [JoinSemilattice D'] [DecidableEq D] [DecidableEq D'] in
theorem Answers.eq_ok {size : Nat} {s : Solution D} {answer : Except LimitReached (Solution D')}
    (h : Answers size f (.ok s) answer) : Sized size s ∧ answer = .ok (s.map f) := by
  cases answer with
  | ok s' => exact ⟨h.1, congrArg _ h.2⟩
  | error e => exact h.elim

omit [JoinSemilattice D] [JoinSemilattice D'] [DecidableEq D] [DecidableEq D'] in
theorem Answers.eq_error {size : Nat} {e : LimitReached}
    {answer : Except LimitReached (Solution D')} (h : Answers size f (.error e) answer) :
    answer = .error e := by
  cases answer with
  | ok s' => exact h.elim
  | error e' => exact congrArg _ h.symm

/-- If no block waits, both solvers are done. -/
theorem Tracks.finish?_of_nil {limit : Option Nat} {r : GuardedProgress D} {r' : Progress D'}
    (hr : Tracks p f r r') (hwaiting : r'.worklist.waiting = []) (n : Nat) :
    ∃ outcome, p.finish? limit r = some outcome ∧ Answers p.graph.size f outcome
      (if (q.run n r').worklist.isEmpty then .ok (q.run n r').solution
        else .error ⟨limit.getD 0⟩) := by
  have hempty : r'.worklist.isEmpty = true := by rw [Worklist.isEmpty, hwaiting]; rfl
  refine ⟨.ok r.solution, ?_, ?_⟩
  · rw [GuardedProblem.finish?, hr.shows.waiting_eq, hwaiting]
    rfl
  · rw [Problem.run_of_waiting_nil hwaiting, hempty]
    exact ⟨hr.sized, hr.solution_eq⟩

/-- **All visits**: the loop ends where a run ends that uses up the limit or, without a limit,
leaves no block waiting. The induction is on the visits left. -/
theorem finish? (h : p.Represents f effect q) (hg : p.graph.WellFormed)
    (hp : ∀ b, ∀ a ∈ p.graph.predecessors b, a < p.graph.size) {limit : Option Nat} {n : Nat}
    {r : GuardedProgress D} {r' : Progress D'} (hr : Tracks p f r r')
    (hlimit : ∀ l, limit = some l → n = l - r.solution.steps)
    (hnone : limit = none → (q.run n r').worklist.waiting = []) :
    ∃ outcome, p.finish? limit r = some outcome ∧ Answers p.graph.size f outcome
      (if (q.run n r').worklist.isEmpty then .ok (q.run n r').solution
        else .error ⟨limit.getD 0⟩) := by
  induction n generalizing r r' with
  | zero =>
    cases hwaiting : r'.worklist.waiting with
    | nil => exact hr.finish?_of_nil hwaiting 0
    | cons b rest =>
      cases limit with
      | none =>
        -- without a limit, there are visits left as long as a block waits
        exact absurd (hnone rfl) (by rw [Problem.run, hwaiting]; exact List.cons_ne_nil b rest)
      | some limit =>
        -- with one, it is used up
        have hle : limit ≤ r.solution.steps := by
          have hzero := hlimit limit rfl
          omega
        have hfull : r'.worklist.isEmpty = false := by rw [Worklist.isEmpty, hwaiting]; rfl
        refine ⟨.error ⟨limit⟩, ?_, ?_⟩
        · rw [GuardedProblem.finish?, hr.shows.waiting_eq, hwaiting]
          simp [Option.filter, hle]
        · rw [Problem.run, hfull]
          rfl
  | succ n ih =>
    cases hwaiting : r'.worklist.waiting with
    | nil => exact hr.finish?_of_nil hwaiting (n + 1)
    | cons b rest =>
      have hpop : r'.worklist.pop? = some (b, { r'.worklist with waiting := rest }) := by
        rw [Worklist.pop?, hwaiting]
      have hb : b < p.graph.size := hr.waiting_lt b (hwaiting ▸ List.mem_cons_self)
      -- the solvers are in step after the block is taken from the queue, and so they are after its
      -- visit
      have htail : Tracks p f
          { r with queue := { r.queue with waiting := rest.map fun b => (b, r'.worklist.rank b) } }
          { r' with worklist := { r'.worklist with waiting := rest } } :=
        ⟨hr.sized, hr.solution_eq, ⟨hr.shows.ranks_eq, rfl⟩, fun c hc =>
          hr.waiting_lt c (hwaiting ▸ List.mem_cons_of_mem b hc)⟩
      obtain ⟨r₁, hvisit, hr₁⟩ := h.visit? hg hp htail hb
      have hsteps : r₁.solution.steps = r.solution.steps + 1 := by
        have hmap := congrArg Solution.steps hr₁.solution_eq
        rw [Problem.steps_visit] at hmap
        exact hmap.symm.trans (congrArg (·.steps + 1) hr.solution_eq)
      -- the limit is not used up as long as there are visits left
      have hfilter : limit.filter (· ≤ r.solution.steps) = none := by
        cases limit with
        | none => rfl
        | some limit =>
          have hleft := hlimit limit rfl
          have hnot : ¬ limit ≤ r.solution.steps := by omega
          simp [Option.filter, hnot]
      rw [Problem.run_succ hpop] at hnone ⊢
      obtain ⟨outcome, hfinish, hanswers⟩ := ih hr₁ (fun l hl => by
        have hleft := hlimit l hl
        omega) hnone
      refine ⟨outcome, ?_, hanswers⟩
      rw [GuardedProblem.finish?, hr.shows.waiting_eq, hwaiting]
      simp only [List.map_cons, hfilter]
      rw [hvisit]
      exact hfinish

/-- **The solver**: no look-up fails, and the outcome says what the solver without look-ups says. -/
theorem solve? [Height D'] (h : p.Represents f effect q) (hg : p.graph.WellFormed)
    (hp : ∀ b, ∀ a ∈ p.graph.predecessors b, a < p.graph.size)
    (hbound : (q.run q.visitBound q.start).worklist.waiting = []) (limit : Option Nat) :
    ∃ outcome, p.solve? limit = some outcome ∧
      Answers p.graph.size f outcome (q.solve limit) := by
  obtain ⟨queue, hqueue, hshows⟩ := RankedQueue.exists_start? hg
  have hstart : Tracks p f ⟨⟨.replicate p.graph.size bottom, .replicate p.graph.size bottom,
      .replicate p.graph.size false, 0⟩, queue⟩ q.start := by
    refine ⟨⟨Array.size_replicate, Array.size_replicate, Array.size_replicate⟩, ?_, ?_, ?_⟩
    · rw [Problem.start, Solution.map, h.graph_eq]
      simp only [Array.map_replicate, h.bottom_eq]
    · rw [Problem.start, h.graph_eq]
      exact hshows
    · intro b hb
      rw [Problem.start, h.graph_eq] at hb
      -- only the entry waits at first, and only if there is one
      by_cases hsize : p.graph.size = 0
      · rw [if_pos hsize] at hb
        cases hb
      · rw [if_neg hsize, Worklist.mem_push] at hb
        rcases hb with rfl | hb
        · exact Nat.pos_of_ne_zero hsize
        · cases hb
  have hlimit : ∀ l, limit = some l → limit.getD q.visitBound = l - 0 := by
    rintro l rfl
    rfl
  have hnone : limit = none → (q.run (limit.getD q.visitBound) q.start).worklist.waiting = [] := by
    rintro rfl
    exact hbound
  obtain ⟨outcome, hfinish, hanswers⟩ := h.finish? hg hp hstart hlimit hnone
  refine ⟨outcome, ?_, ?_⟩
  · rw [GuardedProblem.solve?, hqueue]
    exact hfinish
  · rw [Problem.solve, Problem.solveWithin]
    cases limit with
    | some limit => exact hanswers
    | none =>
      -- without a limit, a run that leaves no block waiting is no error
      have hempty : (q.run q.visitBound q.start).worklist.isEmpty = true := by
        rw [Worklist.isEmpty, hbound]
        rfl
      simp only [Option.getD_none, hempty, if_true] at hanswers ⊢
      exact hanswers

omit [DecidableEq D] [DecidableEq D'] in
/-- The states before the operations of a block, from some place on. -/
theorem replayFrom? (h : p.Represents f effect q) {b : Nat} {ops : List Op} {i : Nat}
    (hops : (p.graph.operations b).drop i = ops) (d : D) :
    ∃ held, p.replayFrom? b i ops d = some held ∧
      held.map (fun e => (e.1, e.2.1, f e.2.2))
        = ops.mapIdx fun j op => (⟨b, i + j⟩, op, runOperations effect (ops.take j) (f d)) := by
  induction ops generalizing i d with
  | nil => exact ⟨[], rfl, rfl⟩
  | cons op ops ih =>
    have hop : (p.graph.operations b)[i]? = some op := by
      rw [← List.head?_drop, hops, List.head?_cons]
    have hrest : (p.graph.operations b).drop (i + 1) = ops := by
      rw [← List.tail_drop, hops, List.tail_cons]
    obtain ⟨d₁, heffect, hd₁⟩ := h.effect?_eq ⟨b, i⟩ op d (FlowGraph.mem_positions.2 hop)
    obtain ⟨held, hheld, hmap⟩ := ih hrest d₁
    refine ⟨(⟨b, i⟩, op, d) :: held, ?_, ?_⟩
    · rw [GuardedProblem.replayFrom?, heffect]
      show (p.replayFrom? b (i + 1) ops d₁).bind _ = _
      rw [hheld]
      rfl
    · rw [List.map_cons, hmap, List.mapIdx_cons, hd₁]
      congr 2
      funext j op'
      rw [List.take_succ_cons, Nat.add_assoc, Nat.add_comm 1 j]
      rfl

omit [DecidableEq D] [DecidableEq D'] in
/-- The states before the operations of one block. -/
theorem replayBlock? (h : p.Represents f effect q) {s : Solution D} (hs : Sized p.graph.size s)
    {b : Nat} (hb : b < p.graph.size) :
    ∃ held, p.replayBlock? s b = some held ∧
      held.map (fun e => (e.1, e.2.1, f e.2.2)) = (s.map f).replayBlock p.graph effect b := by
  obtain ⟨seen, hseen⟩ := exists_getElem? hs.reached hb
  obtain ⟨pre, hpre⟩ := exists_getElem? hs.pre hb
  have hpre' : (s.map f).pre[b]? = some (f pre) := by
    show (s.pre.map f)[b]? = _
    rw [Array.getElem?_map, hpre, Option.map_some]
  have hblock : p.graph.blocks[b]? = some p.graph.blocks[b] := Array.getElem?_eq_getElem hb
  have hops : p.graph.operations b = p.graph.blocks[b].operations := by
    rw [FlowGraph.operations, hblock]
    rfl
  obtain ⟨held, hheld, hmap⟩ := h.replayFrom? (b := b) List.drop_zero pre
  rw [GuardedProblem.replayBlock?, Solution.replayBlock, hseen, Solution.isReached_map hseen, hpre',
    hpre, hblock]
  cases seen with
  | false => exact ⟨[], rfl, rfl⟩
  | true =>
    refine ⟨held, ?_, hmap.trans ?_⟩
    · rw [hops] at hheld
      exact hheld
    · simp only [Nat.zero_add, if_true]

omit [DecidableEq D] [DecidableEq D'] in
/-- **Replay**: no look-up fails when the states before the operations are found. -/
theorem replay? (h : p.Represents f effect q) {s : Solution D} (hs : Sized p.graph.size s) :
    ∃ held, p.replay? s = some held ∧
      held.map (fun e => (e.1, e.2.1, f e.2.2)) = (s.map f).replay p.graph effect := by
  have hblocks : ∀ bs : List Nat, (∀ b ∈ bs, b < p.graph.size) →
      ∃ held, bs.mapM (p.replayBlock? s) = some held ∧
        held.flatten.map (fun e => (e.1, e.2.1, f e.2.2))
          = bs.flatMap ((s.map f).replayBlock p.graph effect) := by
    intro bs hbs
    induction bs with
    | nil => exact ⟨[], rfl, rfl⟩
    | cons b bs ih =>
      obtain ⟨held, hheld, hmap⟩ := h.replayBlock? hs (hbs b List.mem_cons_self)
      obtain ⟨rest, hrest, hrestmap⟩ := ih fun c hc => hbs c (List.mem_cons_of_mem _ hc)
      refine ⟨held :: rest, ?_, ?_⟩
      · rw [List.mapM_cons, hheld, hrest]
        rfl
      · rw [List.flatten_cons, List.map_append, hmap, hrestmap, List.flatMap_cons]
  obtain ⟨held, hheld, hmap⟩ := hblocks (List.range p.graph.size) fun b hb => List.mem_range.1 hb
  refine ⟨held.flatten, ?_, hmap⟩
  rw [GuardedProblem.replay?, hheld, Option.map_some]

end Represents

end GuardedProblem

end Interlock
