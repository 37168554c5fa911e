import Interlock.Proofs.LeastSolution
import Interlock.Proofs.VisitingOrder

/-!
# Acyclic graphs are solved in one pass

If no path leads into a cycle, the solver visits each reachable block once, in reverse
post-order, whatever the effects of blocks and edges. When it visits a block, all reachable
predecessors have been visited and none will be visited again, so the answer is that of
evaluating the reachable blocks one after the other, in any order in which each comes after its
reachable predecessors.

- `Problem.evaluate`, `Problem.onePass`: evaluating blocks one after the other.
- `Problem.Equations`: what holds of the states found that way. They are the only ones for which
  it holds, so that the order does not matter.
- `Problem.visits`: the blocks that a run visits.
- `Problem.Passing`: what holds when the solver has visited the first blocks of the order.
- `Problem.solveUnlimited_acyclic`: the visits and the answer of the solver.
-/

namespace Interlock

namespace Problem

variable {Op D : Type} [JoinSemilattice D]

/-! ## Evaluating blocks in order -/

/-- The state before block `b`, given the states around the blocks evaluated so far: the seed, if
`b` is the entry, joined with what the feasible edges from evaluated predecessors bring. -/
def merge (p : Problem Op D) (states : Nat → Option (D × D)) (b : Nat) : D :=
  ((p.graph.predecessors b).filterMap fun a => (states a).bind fun x => p.edge a b x.2).foldl join
    (if b = 0 then p.seed else bottom)

/-- The states before and after block `b`, given those around the blocks evaluated so far. -/
def statesAround (p : Problem Op D) (states : Nat → Option (D × D)) (b : Nat) : D × D :=
  (p.merge states b, p.block b (p.merge states b))

/-- Evaluate block `b`. -/
def evaluateBlock (p : Problem Op D) (states : Nat → Option (D × D)) (b : Nat) :
    Nat → Option (D × D) :=
  Function.update states b (some (p.statesAround states b))

/-- Evaluate the blocks of a list one after the other. -/
def evaluate (p : Problem Op D) (order : List Nat) : Nat → Option (D × D) :=
  order.foldl p.evaluateBlock fun _ => none

/-- The solution with the given states around the evaluated blocks. All others are not reached. -/
def solutionOf (p : Problem Op D) (states : Nat → Option (D × D)) (steps : Nat) : Solution D where
  pre := .ofFn fun b : Fin p.graph.size => ((states b).map (·.1)).getD bottom
  post := .ofFn fun b : Fin p.graph.size => ((states b).map (·.2)).getD bottom
  reached := .ofFn fun b : Fin p.graph.size => (states b).isSome
  steps

/-- The solution that evaluating each block of a list once gives. -/
def onePass (p : Problem Op D) (order : List Nat) : Solution D :=
  p.solutionOf (p.evaluate order) order.length

/-- What is merged before a block depends on its predecessors only. -/
theorem merge_congr {p : Problem Op D} {states states' : Nat → Option (D × D)} {b : Nat}
    (h : ∀ a ∈ p.graph.predecessors b, states a = states' a) :
    p.merge states b = p.merge states' b := by
  rw [merge, merge]
  congr 1
  exact List.filterMap_congr fun a ha => by rw [h a ha]

theorem evaluate_append (p : Problem Op D) (order order' : List Nat) :
    p.evaluate (order ++ order') = order'.foldl p.evaluateBlock (p.evaluate order) :=
  List.foldl_append

/-- Evaluating other blocks does not change the states around a block. -/
theorem foldl_evaluateBlock_of_not_mem {p : Problem Op D} {order : List Nat} {b : Nat}
    (hb : b ∉ order) (states : Nat → Option (D × D)) :
    order.foldl p.evaluateBlock states b = states b := by
  induction order generalizing states with
  | nil => rfl
  | cons c order ih =>
    obtain ⟨hbc, hb⟩ := not_or.1 (mt List.mem_cons.2 hb)
    rw [List.foldl_cons, ih hb, evaluateBlock, Function.update_of_ne hbc]

/-- A block that is not evaluated has no states. -/
theorem evaluate_of_not_mem {p : Problem Op D} {order : List Nat} {b : Nat} (hb : b ∉ order) :
    p.evaluate order b = none :=
  foldl_evaluateBlock_of_not_mem hb _

/-- `p.Equations order states`: exactly the blocks of the list have states, and these are the states
that follow from the states around their predecessors. -/
structure Equations (p : Problem Op D) (order : List Nat) (states : Nat → Option (D × D)) :
    Prop where
  evaluated : ∀ b ∈ order, states b = some (p.statesAround states b)
  others : ∀ b, b ∉ order → states b = none

section Order

variable {p : Problem Op D} {order : List Nat} (horder : p.graph.IsTopological order)

include horder

omit [JoinSemilattice D] in
/-- A predecessor of a block does not come later in the order. -/
theorem not_mem_of_predecessor {front back : List Nat} {a b : Nat}
    (hsplit : order = front ++ b :: back) (ha : a ∈ p.graph.predecessors b) : a ∉ b :: back := by
  subst hsplit
  intro hmem
  have hb : b ∈ front ++ b :: back := List.mem_append_right front List.mem_cons_self
  have hreach := ((horder.mem_iff a).1 (List.mem_append_right front hmem)).2
  have hfront := mem_left_of_pair_sublist horder.nodup (horder.forward b hb a ha hreach)
  exact List.disjoint_of_nodup_append horder.nodup hfront hmem

/-- Evaluating blocks after their predecessors gives states that satisfy the equations. -/
theorem equations_evaluate : p.Equations order (p.evaluate order) where
  evaluated b hb := by
    obtain ⟨front, back, hsplit⟩ := List.append_of_mem hb
    have hlater : ∀ c, c ∉ b :: back → p.evaluate order c = p.evaluate front c := by
      intro c hc
      rw [hsplit, evaluate_append, foldl_evaluateBlock_of_not_mem hc]
    have hnodup := horder.nodup
    rw [hsplit] at hnodup
    have hself : b ∉ back := (not_mem_of_nodup_middle hnodup).2
    -- when the block is evaluated, the states around its predecessors are final
    have hmerge : p.merge (p.evaluate front) b = p.merge (p.evaluate order) b :=
      merge_congr fun a ha => (hlater a (not_mem_of_predecessor horder hsplit ha)).symm
    have hstates : p.evaluate order b = some (p.statesAround (p.evaluate front) b) := by
      rw [hsplit, evaluate_append, List.foldl_cons, foldl_evaluateBlock_of_not_mem hself,
        evaluateBlock, Function.update_self]
    rw [hstates, statesAround, statesAround, hmerge]
  others _ hb := evaluate_of_not_mem hb

/-- Only one family of states satisfies the equations. The induction is on the blocks in order. -/
theorem Equations.unique {states states' : Nat → Option (D × D)} (h : p.Equations order states)
    (h' : p.Equations order states') : states = states' := by
  have hfront : ∀ front back, order = front ++ back → ∀ b ∈ front, states b = states' b := by
    intro front
    induction front using List.reverseRecOn with
    | nil =>
      intro back _ b hb
      cases hb
    | append_singleton front b ih =>
      intro back hsplit c hc
      rw [List.append_assoc, List.singleton_append] at hsplit
      rcases List.mem_append.1 hc with hc | hc
      · exact ih (b :: back) hsplit c hc
      · obtain rfl := List.mem_singleton.1 hc
        have hmem : c ∈ order := hsplit ▸ List.mem_append_right front List.mem_cons_self
        have hmerge : p.merge states c = p.merge states' c := by
          refine merge_congr fun a ha => ?_
          by_cases haorder : a ∈ order
          · -- the predecessor comes before the block, where the states agree by induction
            have hlater := not_mem_of_predecessor horder hsplit ha
            rw [hsplit] at haorder
            exact ih (c :: back) hsplit a ((List.mem_append.1 haorder).resolve_right hlater)
          · rw [h.others a haorder, h'.others a haorder]
        rw [h.evaluated c hmem, h'.evaluated c hmem, statesAround, statesAround, hmerge]
  funext b
  by_cases hb : b ∈ order
  · exact hfront order [] (List.append_nil order).symm b hb
  · rw [h.others b hb, h'.others b hb]

/-- The order of evaluation does not matter, as long as blocks come after their predecessors. -/
theorem onePass_eq {order' : List Nat} (horder' : p.graph.IsTopological order') :
    p.onePass order' = p.onePass order := by
  have hperm : order'.Perm order := (List.perm_ext_iff_of_nodup horder'.nodup horder.nodup).2
    fun b => (horder'.mem_iff b).trans (horder.mem_iff b).symm
  have hequations : p.Equations order (p.evaluate order') :=
    { evaluated := fun b hb => (equations_evaluate horder').evaluated b (hperm.mem_iff.2 hb)
      others := fun b hb => evaluate_of_not_mem fun hb' => hb (hperm.mem_iff.1 hb') }
  rw [onePass, onePass, hequations.unique horder (equations_evaluate horder), hperm.length_eq]

end Order

/-! ## What the solver visits -/

variable [DecidableEq D]

/-- The blocks that a run visits, in order. -/
def visits (p : Problem Op D) : Nat → Progress D → List Nat
  | 0, _ => []
  | limit + 1, r =>
    match r.worklist.pop? with
    | none => []
    | some (b, worklist) => b :: p.visits limit (p.visit { r with worklist } b)

/-- Storing one entry of an array that lists a function. -/
theorem setIfInBounds_ofFn {α β : Type} {n : Nat} (f : β → α) (g : Nat → β) (b : Nat) (x : β) :
    (Array.ofFn fun c : Fin n => f (g c)).setIfInBounds b (f x)
      = Array.ofFn fun c : Fin n => f (Function.update g b x c) := by
  refine Array.ext (by simp) fun c hc _ => ?_
  rw [Array.size_setIfInBounds] at hc
  rw [Array.getElem_setIfInBounds hc, Array.getElem_ofFn, Array.getElem_ofFn]
  by_cases hbc : b = c
  · subst hbc
    rw [if_pos rfl, Function.update_self]
  · rw [if_neg hbc, Function.update_of_ne (Ne.symm hbc)]

section SolutionOf

variable {p : Problem Op D} {states : Nat → Option (D × D)} {steps : Nat}

omit [DecidableEq D] in
theorem isReached_solutionOf {b : Nat} (hb : b < p.graph.size) :
    (p.solutionOf states steps).isReached b = (states b).isSome := by
  simp [Solution.isReached, solutionOf, hb]

omit [DecidableEq D] in
/-- Along an edge, the solver brings what evaluation brings. -/
theorem brought_solutionOf {a b : Nat} (ha : a < p.graph.size) :
    p.brought (p.solutionOf states steps) a b = (states a).bind fun x => p.edge a b x.2 := by
  have hpost : (p.solutionOf states steps).post[a]?
      = some (((states a).map (·.2)).getD bottom) := by
    simp [solutionOf, ha]
  rw [brought, isReached_solutionOf ha, hpost]
  cases states a with
  | none => rfl
  | some x => rfl

omit [DecidableEq D] in
/-- The solver merges what evaluation merges. -/
theorem entryState_solutionOf {b : Nat} (hp : ∀ a ∈ p.graph.predecessors b, a < p.graph.size) :
    p.entryState (p.solutionOf states steps) b = p.merge states b := by
  rw [entryState_eq, merge, List.foldl_filterMap]
  refine List.foldl_ext _ _ _ fun d a ha => ?_
  rw [brought_solutionOf (hp a ha)]
  cases (states a).bind fun x => p.edge a b x.2 <;> rfl

omit [DecidableEq D] in
/-- Storing the states around a block is evaluating it. -/
theorem recordVisit_solutionOf (b : Nat) :
    recordVisit (p.solutionOf states steps) b (p.statesAround states b).1 (p.statesAround states b).2
      = p.solutionOf (p.evaluateBlock states b) (steps + 1) := by
  rw [recordVisit, solutionOf, solutionOf, Solution.mk.injEq]
  exact ⟨setIfInBounds_ofFn (fun x => (x.map (·.1)).getD bottom) states b (some _),
    setIfInBounds_ofFn (fun x => (x.map (·.2)).getD bottom) states b (some _),
    setIfInBounds_ofFn Option.isSome states b (some _), rfl⟩

end SolutionOf

/-- The solver has visited the blocks `done` of its order once each, and those of `todo` come next.
A block of `todo` waits if it is the entry or follows a visited block. -/
structure Passing (p : Problem Op D) (done todo : List Nat) (r : Progress D) : Prop where
  split : p.graph.reversePostOrder = done ++ todo
  solution : r.solution = p.onePass done
  order : r.worklist.order = p.graph.reversePostOrder
  sorted : r.worklist.IsSorted
  waiting : ∀ b, b ∈ r.worklist.waiting ↔
    b ∈ todo ∧ (b = 0 ∨ ∃ a ∈ done, b ∈ p.graph.successors a)

omit [DecidableEq D] in
theorem solution_start (p : Problem Op D) : p.start.solution = p.onePass [] := by
  have hlist : ∀ {α : Type} (x : α),
      Array.replicate p.graph.size x = Array.ofFn fun _ : Fin p.graph.size => x :=
    fun x => Array.ext (by simp) fun _ _ _ => by simp
  rw [start, onePass, solutionOf, Solution.mk.injEq]
  exact ⟨hlist bottom, hlist bottom, hlist false, rfl⟩

omit [DecidableEq D] in
/-- At the start nothing is visited, and only the entry waits. -/
theorem passing_start (p : Problem Op D) : p.Passing [] p.graph.reversePostOrder p.start where
  split := rfl
  solution := p.solution_start
  order := by
    rw [start]
    split
    · rfl
    · exact Worklist.order_push _ _
  sorted := by
    have hempty : p.graph.worklist.IsSorted := ⟨.nil, .nil⟩
    rw [start]
    split
    · exact hempty
    · exact hempty.push 0
  waiting b := by
    have hnone : ¬ ∃ a ∈ ([] : List Nat), b ∈ p.graph.successors a := by simp
    rw [or_iff_left hnone]
    by_cases hsize : p.graph.size = 0
    · have hlive : b ∉ p.graph.reversePostOrder := by
        rw [FlowGraph.reversePostOrder_eq_nil (by omega)]
        exact List.not_mem_nil
      rw [waiting_start_of_size_eq_zero hsize]
      exact iff_of_false List.not_mem_nil fun h => hlive h.1
    · have hentry : 0 ∈ p.graph.reversePostOrder :=
        FlowGraph.mem_reversePostOrder.2 ⟨Nat.pos_of_ne_zero hsize, .entry⟩
      rw [start, if_neg hsize, Worklist.mem_push]
      constructor
      · rintro (rfl | hb)
        · exact ⟨hentry, rfl⟩
        · cases hb
      · exact fun h => .inl h.2

section Pass

variable {p : Problem Op D} {r : Progress D} {b : Nat} {done todo : List Nat}

omit [DecidableEq D] in
theorem Passing.nodup (h : p.Passing done todo r) : (done ++ todo).Nodup := by
  rw [← h.split]
  exact p.graph.nodup_reversePostOrder

omit [DecidableEq D] in
theorem Passing.mem_order (h : p.Passing done (b :: todo) r) : b ∈ p.graph.reversePostOrder := by
  rw [h.split]
  exact List.mem_append_right done List.mem_cons_self

omit [DecidableEq D] in
theorem Passing.not_mem (h : p.Passing done (b :: todo) r) : b ∉ done ∧ b ∉ todo :=
  not_mem_of_nodup_middle h.nodup

/-- The next block is new to the solver, which evaluates it. -/
theorem Passing.visit_eq (h : p.Passing done (b :: todo) r) (hm : p.graph.Mirrored)
    (rest : Worklist) :
    p.visit { r with worklist := rest } b
      = { solution := p.onePass (done ++ [b])
          worklist := rest.pushAll (p.graph.successors b) } := by
  have hlt := FlowGraph.lt_size_of_mem_reversePostOrder h.mem_order
  have hpre : p.entryState r.solution b = p.merge (p.evaluate done) b := by
    rw [h.solution, onePass]
    exact entryState_solutionOf fun a ha =>
      FlowGraph.lt_size_of_mem_successors ((hm a b hlt).1 ha)
  have hreached : ¬ r.solution.isReached b := by
    rw [h.solution, onePass, isReached_solutionOf hlt, evaluate_of_not_mem h.not_mem.1]
    exact Bool.false_ne_true
  obtain ⟨hold, -, -⟩ | ⟨-, heq⟩ := p.visit_cases { r with worklist := rest } b
  · exact absurd hold hreached
  · rw [heq, hpre, h.solution, onePass, onePass, evaluate_append, List.length_append]
    congr 1
    exact recordVisit_solutionOf b

omit [DecidableEq D] in
/-- The next block waits: it is the entry, or the block before it on some path has been visited. -/
theorem Passing.mem_waiting (h : p.Passing done (b :: todo) r) (hm : p.graph.Mirrored)
    (horder : p.graph.IsTopological p.graph.reversePostOrder) : b ∈ r.worklist.waiting := by
  refine (h.waiting b).2 ⟨List.mem_cons_self, ?_⟩
  obtain ⟨hlt, path, hpath⟩ := FlowGraph.mem_reversePostOrder.1 h.mem_order
  cases hpath with
  | entry => exact .inl rfl
  | @step path a _ hpath hsucc =>
    have hpair := horder.forward b h.mem_order a ((hm a b hlt).2 hsucc) ⟨path, hpath⟩
    rw [h.split] at hpair
    exact .inr ⟨a, mem_left_of_pair_sublist h.nodup hpair, hsucc⟩

omit [DecidableEq D] in
/-- The next block ranks before all others that wait. -/
theorem Passing.rank_lt (h : p.Passing done (b :: todo) r) {c : Nat}
    (hc : c ∈ r.worklist.waiting) (hne : c ≠ b) : r.worklist.rank b < r.worklist.rank c := by
  have htodo := (List.mem_cons.1 ((h.waiting c).1 hc).1).resolve_left hne
  rw [Worklist.rank, Worklist.rank, h.order, h.split, if_pos (by simp), if_pos (by simp [htodo])]
  exact idxOf_lt_idxOf_of_mem h.nodup htodo

omit [DecidableEq D] in
/-- The successors of the next block have not been visited. -/
theorem Passing.mem_todo_of_mem_successors (h : p.Passing done (b :: todo) r)
    (hg : p.graph.WellFormed) (hm : p.graph.Mirrored)
    (horder : p.graph.IsTopological p.graph.reversePostOrder) {c : Nat}
    (hc : c ∈ p.graph.successors b) : c ∈ todo := by
  have hlt := hg.lt_size hc
  have hreach := (FlowGraph.mem_reversePostOrder.1 h.mem_order).2
  have hmem : c ∈ p.graph.reversePostOrder :=
    FlowGraph.mem_reversePostOrder.2 ⟨hlt, hreach.step hc⟩
  have hpair := horder.forward c hmem b ((hm b c hlt).2 hc) hreach
  rw [h.split] at hpair
  exact mem_right_of_pair_sublist h.nodup hpair

/-- The solver takes the next block of its order. -/
theorem Passing.step (h : p.Passing done (b :: todo) r) (hg : p.graph.WellFormed)
    (hm : p.graph.Mirrored) (horder : p.graph.IsTopological p.graph.reversePostOrder) :
    ∃ rest, r.worklist.pop? = some (b, rest) ∧
      p.Passing (done ++ [b]) todo (p.visit { r with worklist := rest } b) := by
  obtain ⟨rest, hpop, hrest, hsorted, hwaiting⟩ :=
    h.sorted.exists_pop (h.mem_waiting hm horder) fun c => h.rank_lt
  refine ⟨rest, hpop, ?_⟩
  rw [h.visit_eq hm rest]
  refine
    { split := by rw [h.split, List.append_assoc, List.singleton_append]
      solution := rfl
      order := by rw [Worklist.order_pushAll, hrest, h.order]
      sorted := hsorted.pushAll _
      waiting := fun c => ?_ }
  -- what waits now: the successors of the block, and what waited before without the block
  rw [Worklist.mem_pushAll, hwaiting, h.waiting]
  constructor
  · rintro (hc | ⟨⟨hc, hfrom⟩, hne⟩)
    · exact ⟨h.mem_todo_of_mem_successors hg hm horder hc,
        .inr ⟨b, List.mem_append_right done List.mem_cons_self, hc⟩⟩
    · refine ⟨(List.mem_cons.1 hc).resolve_left hne, hfrom.imp_right ?_⟩
      rintro ⟨a, ha, hca⟩
      exact ⟨a, List.mem_append_left [b] ha, hca⟩
  · rintro ⟨hc, hfrom⟩
    have hne : c ≠ b := fun heq => h.not_mem.2 (heq ▸ hc)
    rcases hfrom with rfl | ⟨a, ha, hca⟩
    · exact .inr ⟨⟨List.mem_cons_of_mem b hc, .inl rfl⟩, hne⟩
    · rcases List.mem_append.1 ha with ha | ha
      · exact .inr ⟨⟨List.mem_cons_of_mem b hc, .inr ⟨a, ha, hca⟩⟩, hne⟩
      · obtain rfl := List.mem_singleton.1 ha
        exact .inl hca

omit [DecidableEq D] in
/-- When all blocks of the order have been visited, none waits. -/
theorem Passing.waiting_nil (h : p.Passing done [] r) : r.worklist.waiting = [] :=
  List.eq_nil_iff_forall_not_mem.2 fun b hb => List.not_mem_nil ((h.waiting b).1 hb).1

/-- The solver goes through the rest of its order, one visit per block. -/
theorem Passing.run (h : p.Passing done todo r) (hg : p.graph.WellFormed)
    (hm : p.graph.Mirrored) (horder : p.graph.IsTopological p.graph.reversePostOrder) :
    p.Passing (done ++ todo) [] (p.run todo.length r) ∧
      ∀ limit, p.visits limit r = todo.take limit := by
  induction todo generalizing done r with
  | nil =>
    refine ⟨by rwa [List.append_nil], fun limit => ?_⟩
    cases limit with
    | zero => rfl
    | succ limit => rw [visits, Worklist.pop?_eq_none.2 h.waiting_nil, List.take_nil]
  | cons b todo ih =>
    obtain ⟨rest, hpop, hnext⟩ := h.step hg hm horder
    obtain ⟨hend, hvisits⟩ := ih hnext
    constructor
    · rw [List.append_assoc, List.singleton_append] at hend
      rwa [List.length_cons, run_succ hpop]
    · intro limit
      cases limit with
      | zero => rfl
      | succ limit => rw [visits, hpop, List.take_succ_cons, ← hvisits limit]

end Pass

/-- **Acyclic graphs are solved in one pass**: if no path leads into a cycle, the solver visits the
reachable blocks in reverse post-order, once each, and comes to an end. Its answer is that of
evaluating the reachable blocks once each, in any order in which they come after their reachable
predecessors; reverse post-order is one. Nothing is asked of the states and the effects. -/
theorem solveUnlimited_acyclic {p : Problem Op D} (hg : p.graph.WellFormed)
    (hm : p.graph.Mirrored) (hacyclic : p.graph.LiveAcyclic) :
    p.graph.IsTopological p.graph.reversePostOrder ∧
    (∀ limit, p.visits limit p.start = p.graph.reversePostOrder.take limit) ∧
    ∃ s, p.solveUnlimited = some s ∧ s.steps = p.graph.reachableBlocks.card ∧
      (∀ order, p.graph.IsTopological order → s = p.onePass order) ∧
      ∀ [Height D], p.solve none = .ok s := by
  have horder := FlowGraph.isTopological_reversePostOrder hm hacyclic
  obtain ⟨hpassed, hvisits⟩ := p.passing_start.run hg hm horder
  have hends := hpassed.waiting_nil
  have hsolution : (p.run p.graph.reversePostOrder.length p.start).solution
      = p.onePass p.graph.reversePostOrder := hpassed.solution
  refine ⟨horder, hvisits, p.onePass p.graph.reversePostOrder, ?_, ?_, ?_, ?_⟩
  · rw [solveUnlimited, runOut_of_run hends, Option.map_some, hsolution]
  · exact p.graph.card_reachableBlocks.symm
  · exact fun order horder' => (onePass_eq horder horder').symm
  · intro _
    -- one visit per block is within the bound, which allows one per edge at least
    have hbound : p.graph.reversePostOrder.length ≤ p.visitBound :=
      calc p.graph.reversePostOrder.length
        _ ≤ 1 + p.graph.liveEdges := p.graph.length_reversePostOrder_le
        _ ≤ 1 + (p.graph.blocks.toList.flatMap (·.successors)).length :=
          Nat.add_le_add_left p.graph.liveEdges_le 1
        _ ≤ p.visitBound := Nat.add_le_add_left (Nat.le_mul_of_pos_left _ (Nat.succ_pos _)) 1
    have hrun := run_eq_of_le hbound hends
    rw [solve_eq_ok, Option.getD_none, hrun]
    exact ⟨hends, hsolution⟩

end Problem

namespace Distance

/-- A distance above the range starts again at zero. This effect is not monotone: after it, a longer
distance may be the shorter one. -/
def restart (range : Nat) (d : Distance) : Distance :=
  if d.length?.any (range < ·) then ⟨some 0⟩ else d.advance 1

/-- Distances in a graph with two edges between the same blocks and an edge to a block of smaller
number. The last block is not reached; it is on a cycle, and an edge leads from it to a block that
is reached. -/
def restarting : Problem Nat Distance :=
  .ofOperations
    (.ofBlocks [([0], [1, 2, 2]), ([1], [3]), ([0], [1, 3]), ([], []), ([0], [3, 4])])
    ⟨some 0⟩ restart fun _ _ => some

theorem not_isMonotone_restarting : ¬ restarting.IsMonotone := by
  intro h
  have hle : (⟨some 1⟩ : Distance) ≤ ⟨some 0⟩ := LawfulJoin.le_def.2 (by decide)
  exact absurd (LawfulJoin.le_def.1 (h.block 0 hle)) (by decide)

end Distance

theorem Problem.solveUnlimited_acyclic_restarting :
    Distance.restarting.graph.WellFormed ∧ Distance.restarting.graph.Mirrored ∧
    Distance.restarting.graph.LiveAcyclic ∧ ¬ Distance.restarting.IsMonotone ∧
    Distance.restarting.visits 9 Distance.restarting.start = [0, 2, 1, 3] ∧
    ∃ s, Distance.restarting.solveUnlimited = some s ∧ s.steps = 4 ∧
      s.pre = #[⟨some 0⟩, ⟨some 0⟩, ⟨some 1⟩, ⟨some 0⟩, ⟨none⟩] := by
  have hg : Distance.restarting.graph.WellFormed := by decide
  have hm : Distance.restarting.graph.Mirrored := FlowGraph.mirrored_ofBlocks _
  have hacyclic : Distance.restarting.graph.LiveAcyclic := by decide
  obtain ⟨horder, hvisits, s, hs, -, hpass, -⟩ := solveUnlimited_acyclic hg hm hacyclic
  have hrpo : Distance.restarting.graph.reversePostOrder = [0, 2, 1, 3] := by decide
  rw [hrpo] at horder hvisits
  refine ⟨hg, hm, hacyclic, Distance.not_isMonotone_restarting, hvisits 9, s, hs, ?_⟩
  rw [hpass _ horder]
  decide

end Interlock
