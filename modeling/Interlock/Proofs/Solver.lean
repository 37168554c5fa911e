import Interlock.Flow.Solver
import Interlock.Proofs.FlowPaths
import Interlock.Proofs.Order
import Mathlib.Algebra.BigOperators.Ring.Finset
import Mathlib.Algebra.Order.BigOperators.Group.Finset

/-!
# The dataflow solver finds the least solution

For a monotone problem the solver stops, within the visits that `Problem.visitBound`
allows, with states that satisfy the dataflow equations on exactly the reachable
blocks, and that are below any other family of states that satisfies them.

- `Problem.IsMonotone`: what is asked of the effects of blocks and edges.
- `Problem.Climbing`: what holds between visits in any graph. The state after a block
  never has to sink.
- `Problem.Invariant`: what holds as well if predecessors mirror successors. A block that
  is reached and does not wait satisfies its equations.
- `Problem.Updates`: what storing a new state after a block does.
- `Problem.visit_invariant`, `Problem.run_invariant`: one visit and a run preserve it.
- `Problem.potential`: the visits that may still be caused, which pays for each visit.
- `Problem.waiting_run_of_le`, `Problem.waiting_run_visitBound`: enough visits leave no block
  waiting, and the bound allows enough.
- `Problem.solves_of_solve`, `Problem.entryState_le_of_solve`: under any limit, an answer
  is the least solution.
- `Problem.exists_solve_none`: without a limit there is an answer.
-/

namespace Interlock

namespace Worklist

theorem mem_insertBy {rank : Nat → Nat} {b x : Nat} {l : List Nat} :
    x ∈ insertBy rank b l ↔ x = b ∨ x ∈ l := by
  induction l with
  | nil => simp [insertBy]
  | cons c l ih =>
    rw [insertBy]
    split
    · simp
    · rw [List.mem_cons, ih, List.mem_cons]
      exact or_left_comm

theorem length_insertBy (rank : Nat → Nat) (b : Nat) (l : List Nat) :
    (insertBy rank b l).length = l.length + 1 := by
  induction l with
  | nil => rfl
  | cons c l ih =>
    rw [insertBy]
    split
    · rfl
    · rw [List.length_cons, ih, List.length_cons]

/-- Pushing a block makes it wait. -/
theorem mem_push {w : Worklist} {b x : Nat} :
    x ∈ (w.push b).waiting ↔ x = b ∨ x ∈ w.waiting := by
  rw [push]
  split
  · next hb =>
    constructor
    · exact .inr
    · rintro (rfl | hx)
      · exact hb
      · exact hx
  · exact mem_insertBy

theorem mem_pushAll {w : Worklist} {bs : List Nat} {x : Nat} :
    x ∈ (w.pushAll bs).waiting ↔ x ∈ bs ∨ x ∈ w.waiting := by
  induction bs generalizing w with
  | nil => simp [pushAll]
  | cons b bs ih =>
    rw [pushAll, List.foldl_cons, ← pushAll, ih, mem_push, List.mem_cons, or_assoc, or_left_comm]

theorem length_push_le (w : Worklist) (b : Nat) :
    (w.push b).waiting.length ≤ w.waiting.length + 1 := by
  rw [push]
  split
  · exact Nat.le_succ _
  · exact Nat.le_of_eq (length_insertBy _ _ _)

/-- Each block pushed makes at most one more wait. -/
theorem length_pushAll_le (w : Worklist) (bs : List Nat) :
    (w.pushAll bs).waiting.length ≤ w.waiting.length + bs.length := by
  induction bs generalizing w with
  | nil => exact Nat.le_refl _
  | cons b bs ih =>
    rw [pushAll, List.foldl_cons, ← pushAll]
    have h₁ := ih (w.push b)
    have h₂ := length_push_le w b
    rw [List.length_cons]
    omega

theorem pop?_eq_some {w w' : Worklist} {b : Nat} (h : w.pop? = some (b, w')) :
    w.waiting = b :: w'.waiting := by
  rw [pop?] at h
  cases hw : w.waiting with
  | nil => rw [hw] at h; cases h
  | cons c rest =>
    rw [hw] at h
    simp only [Option.some.injEq, Prod.mk.injEq] at h
    obtain ⟨rfl, rfl⟩ := h
    rfl

theorem pop?_eq_none {w : Worklist} : w.pop? = none ↔ w.waiting = [] := by
  rw [pop?]
  cases w.waiting with
  | nil => simp
  | cons b rest => simp

end Worklist

namespace FlowGraph

variable {Op : Type}

open Classical in
/-- The blocks that some path leads to. -/
noncomputable def reachableBlocks (g : FlowGraph Op) : Finset Nat :=
  (Finset.range g.size).filter g.Reachable

theorem mem_reachableBlocks {g : FlowGraph Op} {b : Nat} :
    b ∈ g.reachableBlocks ↔ b < g.size ∧ g.Reachable b := by
  classical
  rw [reachableBlocks, Finset.mem_filter, Finset.mem_range]

/-- The number of edges that leave blocks which some path leads to, once per entry of a successor
list. -/
noncomputable def liveEdges (g : FlowGraph Op) : Nat :=
  ∑ b ∈ g.reachableBlocks, (g.successors b).length

/-- The edges of a graph, counted block by block. -/
theorem length_flatMap_successors (g : FlowGraph Op) :
    (g.blocks.toList.flatMap (·.successors)).length
      = ∑ b ∈ Finset.range g.size, (g.successors b).length := by
  have key : ∀ l : List (Block Op), (l.flatMap (·.successors)).length
      = ∑ b ∈ Finset.range l.length, ((l[b]?.map (·.successors)).getD []).length := by
    intro l
    induction l with
    | nil => rfl
    | cons block l ih =>
      rw [List.flatMap_cons, List.length_append, List.length_cons, Finset.sum_range_succ', ih,
        Nat.add_comm]
      rfl
  rw [key, Array.length_toList]
  refine Finset.sum_congr rfl fun b _ => ?_
  rw [successors, Array.getElem?_toList]

/-- These are at most all edges. -/
theorem liveEdges_le (g : FlowGraph Op) :
    g.liveEdges ≤ (g.blocks.toList.flatMap (·.successors)).length := by
  rw [length_flatMap_successors]
  exact Finset.sum_le_sum_of_subset fun b hb => Finset.mem_range.2 (mem_reachableBlocks.1 hb).1

end FlowGraph

namespace Problem

variable {Op D : Type} [JoinSemilattice D] [DecidableEq D]

/-! ## The state before a block -/

/-- What the edge from `a` to `b` brings: nothing, unless `a` is reached and the edge feasible. -/
def brought (p : Problem Op D) (s : Solution D) (a b : Nat) : Option D :=
  if s.isReached a then s.post[a]?.bind (p.edge a b) else none

omit [DecidableEq D] in
/-- The state before a block: where it starts, joined with what its incoming edges bring. -/
theorem entryState_eq (p : Problem Op D) (s : Solution D) (b : Nat) :
    p.entryState s b = (p.graph.predecessors b).foldl
      (fun d a => ((p.brought s a b).map (join d)).getD d) (if b = 0 then p.seed else bottom) := by
  rw [entryState]
  congr 1
  funext d a
  rw [brought]
  split
  · cases s.post[a]?.bind (p.edge a b) <;> rfl
  · rfl

omit [DecidableEq D] in
/-- The state before a block depends only on what its incoming edges bring. -/
theorem entryState_congr {p : Problem Op D} {s s' : Solution D} {b : Nat}
    (h : ∀ a ∈ p.graph.predecessors b, p.brought s a b = p.brought s' a b) :
    p.entryState s b = p.entryState s' b := by
  rw [entryState_eq, entryState_eq]
  refine List.foldl_ext _ _ _ fun d a ha => ?_
  rw [h a ha]

/-- Larger states before and along edges give larger states after; a larger state does not make an
edge infeasible. -/
structure IsMonotone [LawfulJoin D] (p : Problem Op D) : Prop where
  block : ∀ b {x y : D}, x ≤ y → p.block b x ≤ p.block b y
  edge : ∀ a b {x y u : D}, x ≤ y → p.edge a b x = some u → ∃ v, p.edge a b y = some v ∧ u ≤ v

variable [LawfulJoin D]

omit [DecidableEq D] in
/-- The state before a block is the least one above the seed and what the incoming edges bring. -/
theorem entryState_le_iff {p : Problem Op D} {s : Solution D} {b : Nat} {d : D} :
    p.entryState s b ≤ d ↔ (if b = 0 then p.seed else bottom) ≤ d ∧
      ∀ a ∈ p.graph.predecessors b, ∀ y, p.brought s a b = some y → y ≤ d := by
  rw [entryState_eq]
  generalize (if b = 0 then p.seed else bottom) = start
  induction p.graph.predecessors b generalizing start with
  | nil => simp
  | cons a l ih =>
    rw [List.foldl_cons, ih]
    cases hy : p.brought s a b with
    | none => simp [hy]
    | some y =>
      simp only [Option.map_some, Option.getD_some, LawfulJoin.join_le_iff, List.forall_mem_cons,
        hy, Option.some.injEq, forall_eq']
      exact and_assoc

/-- Reached blocks stay reached, and the states after them only rise. -/
def Rises (s s' : Solution D) : Prop :=
  ∀ a x, s.isReached a → s.post[a]? = some x → s'.isReached a ∧ ∃ y, s'.post[a]? = some y ∧ x ≤ y

omit [DecidableEq D] in
/-- When states rise, so does what edges bring. -/
theorem brought_mono {p : Problem Op D} (hp : p.IsMonotone) {s s' : Solution D}
    (h : Rises s s') {a b : Nat} {y : D} (hy : p.brought s a b = some y) :
    ∃ z, p.brought s' a b = some z ∧ y ≤ z := by
  rw [brought] at hy
  split at hy
  · next hreached =>
    obtain ⟨x, hx, hxy⟩ := Option.bind_eq_some_iff.1 hy
    obtain ⟨hreached', x', hx', hle⟩ := h a x hreached hx
    obtain ⟨z, hz, hyz⟩ := hp.edge a b hle hxy
    exact ⟨z, by rw [brought, if_pos hreached', hx', Option.bind_some, hz], hyz⟩
  · cases hy

omit [DecidableEq D] in
/-- When states rise, so do the states before blocks. -/
theorem entryState_mono {p : Problem Op D} (hp : p.IsMonotone) {s s' : Solution D}
    (h : Rises s s') (b : Nat) : p.entryState s b ≤ p.entryState s' b := by
  obtain ⟨hstart, hedges⟩ := entryState_le_iff.1 (le_refl (p.entryState s' b))
  refine entryState_le_iff.2 ⟨hstart, fun a ha y hy => ?_⟩
  obtain ⟨z, hz, hyz⟩ := brought_mono hp h hy
  exact le_trans hyz (hedges a ha z hz)

/-! ## One visit -/

/-- A solution after a visit of `b` that changed the state after it. -/
def recordVisit {D : Type} (s : Solution D) (b : Nat) (pre post : D) : Solution D where
  pre := s.pre.setIfInBounds b pre
  post := s.post.setIfInBounds b post
  reached := s.reached.setIfInBounds b true
  steps := s.steps + 1

/-- `Updates s s' b d`: from `s` to `s'`, block `b` gets the state `d` after it and counts as
reached, and nothing changes at other blocks. -/
structure Updates {D : Type} (s s' : Solution D) (b : Nat) (d : D) : Prop where
  reached : ∀ c, s'.isReached c ↔ b = c ∨ s.isReached c
  post : ∀ c, s'.post[c]? = if b = c then some d else s.post[c]?

omit [JoinSemilattice D] [DecidableEq D] [LawfulJoin D] in
/-- Storing the state after a block is an update of it. -/
theorem updates_recordVisit (s : Solution D) {b : Nat} (pre post : D)
    (hreached : b < s.reached.size) (hpost : b < s.post.size) :
    Updates s (recordVisit s b pre post) b post where
  reached c := by
    simp only [Solution.isReached, recordVisit, Array.getElem?_setIfInBounds, if_pos hreached]
    by_cases hbc : b = c
    · simp [hbc]
    · simp [hbc]
  post c := by rw [recordVisit, Array.getElem?_setIfInBounds, if_pos hpost]

section Updates

variable {s s' : Solution D} {b : Nat} {d : D}

omit [JoinSemilattice D] [DecidableEq D] [LawfulJoin D] in
theorem Updates.isReached_of_ne (h : Updates s s' b d) {c : Nat} (hc : b ≠ c) :
    s'.isReached c = s.isReached c := by
  rw [Bool.eq_iff_iff, h.reached, or_iff_right hc]

omit [JoinSemilattice D] [DecidableEq D] [LawfulJoin D] in
theorem Updates.post_of_ne (h : Updates s s' b d) {c : Nat} (hc : b ≠ c) :
    s'.post[c]? = s.post[c]? := by
  rw [h.post, if_neg hc]

omit [JoinSemilattice D] [DecidableEq D] [LawfulJoin D] in
theorem Updates.post_self (h : Updates s s' b d) : s'.post[b]? = some d := by
  rw [h.post, if_pos rfl]

omit [DecidableEq D] in
/-- An update that does not lower the state of its block lowers nothing. -/
theorem Updates.rises (h : Updates s s' b d)
    (hle : ∀ x, s.isReached b → s.post[b]? = some x → x ≤ d) : Rises s s' := by
  intro a x ha hx
  refine ⟨(h.reached a).2 (.inr ha), ?_⟩
  by_cases hba : b = a
  · subst hba
    exact ⟨d, h.post_self, hle x ha hx⟩
  · exact ⟨x, by rw [h.post_of_ne hba, hx], le_refl x⟩

omit [DecidableEq D] [LawfulJoin D] in
/-- Blocks that the updated one does not lead to see no change. -/
theorem Updates.entryState_eq {p : Problem Op D} (h : Updates s s' b d) {c : Nat}
    (hb : b ∉ p.graph.predecessors c) : p.entryState s' c = p.entryState s c := by
  refine entryState_congr fun a ha => ?_
  have hba : b ≠ a := by
    rintro rfl
    exact hb ha
  rw [brought, brought, h.isReached_of_ne hba, h.post_of_ne hba]

end Updates

omit [LawfulJoin D] in
/-- All that a visit can do: bring the state before the block up to date and, unless the block was
reached with the same state after, store that state and let the successors wait. -/
theorem visit_cases (p : Problem Op D) (r : Progress D) (b : Nat) :
    (r.solution.isReached b ∧ r.solution.post[b]? = some (p.block b (p.entryState r.solution b)) ∧
      p.visit r b =
        { r with solution :=
            { r.solution with
              pre := r.solution.pre.setIfInBounds b (p.entryState r.solution b)
              steps := r.solution.steps + 1 } }) ∨
    (¬ (r.solution.isReached b ∧
        r.solution.post[b]? = some (p.block b (p.entryState r.solution b))) ∧
      p.visit r b =
        { solution := recordVisit r.solution b (p.entryState r.solution b)
            (p.block b (p.entryState r.solution b))
          worklist := r.worklist.pushAll (p.graph.successors b) }) := by
  by_cases h : r.solution.isReached b ∧
      r.solution.post[b]? = some (p.block b (p.entryState r.solution b))
  · left
    exact ⟨h.1, h.2, by rw [visit, if_pos h]⟩
  · right
    exact ⟨h, by rw [visit, if_neg h]; rfl⟩

omit [LawfulJoin D] in
/-- Every visit is counted. -/
theorem steps_visit (p : Problem Op D) (r : Progress D) (b : Nat) :
    (p.visit r b).solution.steps = r.solution.steps + 1 := by
  obtain ⟨-, -, heq⟩ | ⟨-, heq⟩ := p.visit_cases r b
  · rw [heq]
  · rw [heq]
    rfl

/-- What holds between visits, whatever the predecessor lists say. -/
structure Climbing (p : Problem Op D) (r : Progress D) : Prop where
  size_post : r.solution.post.size = p.graph.size
  size_reached : r.solution.reached.size = p.graph.size
  /-- Only reachable blocks wait. -/
  waiting : ∀ b ∈ r.worklist.waiting, p.graph.Reachable b
  /-- Only reachable blocks are reached. -/
  reached : ∀ b, r.solution.isReached b → p.graph.Reachable b
  /-- A visit would not lower the state after a block. -/
  rising : ∀ b x, r.solution.isReached b → r.solution.post[b]? = some x →
    x ≤ p.block b (p.entryState r.solution b)

/-- What holds between visits if predecessors mirror successors. -/
structure Invariant (p : Problem Op D) (r : Progress D) : Prop extends Climbing p r where
  size_pre : r.solution.pre.size = p.graph.size
  entry : r.solution.isReached 0 ∨ 0 ∈ r.worklist.waiting
  closed : ∀ a b, r.solution.isReached a → b ∈ p.graph.successors a →
    r.solution.isReached b ∨ b ∈ r.worklist.waiting
  /-- A reached block that does not wait satisfies its equations. -/
  settled : ∀ b, r.solution.isReached b → b ∉ r.worklist.waiting →
    r.solution.pre[b]? = some (p.entryState r.solution b) ∧
    r.solution.post[b]? = some (p.block b (p.entryState r.solution b))

omit [DecidableEq D] in
/-- At the start no block is reached, and the entry waits. -/
theorem start_invariant {p : Problem Op D} (h0 : 0 < p.graph.size) : p.Invariant p.start := by
  have hnone : ∀ b, p.start.solution.isReached b = false := by
    intro b
    simp only [start, Solution.isReached, Array.getElem?_replicate]
    split <;> rfl
  have hwaiting : p.start.worklist.waiting = [0] := by
    rw [start, if_neg (Nat.ne_of_gt h0)]
    rfl
  refine { size_post := Array.size_replicate, size_reached := Array.size_replicate, waiting := ?_,
           reached := ?_, rising := ?_, size_pre := Array.size_replicate, entry := ?_,
           closed := ?_, settled := ?_ }
  · intro b hb
    rw [hwaiting, List.mem_singleton] at hb
    exact hb ▸ .entry
  · intro b hb
    rw [hnone] at hb
    cases hb
  · intro b x hb
    rw [hnone] at hb
    cases hb
  · right
    rw [hwaiting]
    exact List.mem_singleton.2 rfl
  · intro a b ha
    rw [hnone] at ha
    cases ha
  · intro b hb
    rw [hnone] at hb
    cases hb

section Visit

variable {p : Problem Op D} {r : Progress D} {b : Nat} {rest : Worklist}

omit [JoinSemilattice D] [DecidableEq D] [LawfulJoin D] in
/-- A block that is found reached or waiting still is so when `b` no longer waits but is reached. -/
theorem reached_or_waiting {s' : Solution D} {worklist : Worklist}
    (hwaiting : r.worklist.waiting = b :: rest.waiting)
    (hreached : ∀ c, b = c ∨ r.solution.isReached c → s'.isReached c)
    (hrest : ∀ c ∈ rest.waiting, c ∈ worklist.waiting) {c : Nat}
    (h : r.solution.isReached c ∨ c ∈ r.worklist.waiting) :
    s'.isReached c ∨ c ∈ worklist.waiting := by
  rw [hwaiting, List.mem_cons] at h
  rcases h with hc | rfl | hc
  · exact .inl (hreached c (.inr hc))
  · exact .inl (hreached c (.inl rfl))
  · exact .inr (hrest c hc)

omit [DecidableEq D] in
/-- A second visit that changes the state after a block raises it. -/
theorem Climbing.lt_of_changed (h : p.Climbing r) (hb : b < p.graph.size)
    (hreached : r.solution.isReached b)
    (hchanged : r.solution.post[b]? ≠ some (p.block b (p.entryState r.solution b))) :
    ∃ x, r.solution.post[b]? = some x ∧ x < p.block b (p.entryState r.solution b) := by
  obtain ⟨x, hx⟩ : ∃ x, r.solution.post[b]? = some x :=
    ⟨_, Array.getElem?_eq_getElem (by rw [h.size_post]; exact hb)⟩
  refine ⟨x, hx, lt_of_le_of_ne (h.rising b x hreached hx) fun heq => hchanged ?_⟩
  rw [hx, heq]

omit [DecidableEq D] in
/-- A visit that finds the state after the block as it was: the block no longer waits. -/
theorem Climbing.confirm (h : p.Climbing r) (hwaiting : r.worklist.waiting = b :: rest.waiting) :
    p.Climbing
      { solution :=
          { r.solution with
            pre := r.solution.pre.setIfInBounds b (p.entryState r.solution b)
            steps := r.solution.steps + 1 }
        worklist := rest } where
  size_post := h.size_post
  size_reached := h.size_reached
  waiting c hc := h.waiting c (by rw [hwaiting]; exact List.mem_cons_of_mem _ hc)
  reached := h.reached
  rising := h.rising

omit [DecidableEq D] in
/-- Such a visit settles the block. -/
theorem Invariant.confirm (h : p.Invariant r) (hwaiting : r.worklist.waiting = b :: rest.waiting)
    (hlt : b < p.graph.size) (hreached : r.solution.isReached b)
    (hpost : r.solution.post[b]? = some (p.block b (p.entryState r.solution b))) :
    p.Invariant
      { solution :=
          { r.solution with
            pre := r.solution.pre.setIfInBounds b (p.entryState r.solution b)
            steps := r.solution.steps + 1 }
        worklist := rest } where
  toClimbing := h.toClimbing.confirm hwaiting
  size_pre := by rw [Array.size_setIfInBounds, h.size_pre]
  entry := reached_or_waiting hwaiting (fun c hc => hc.elim (· ▸ hreached) id)
    (fun _ hc => hc) h.entry
  closed a c ha hc := reached_or_waiting hwaiting (fun c hc => hc.elim (· ▸ hreached) id)
    (fun _ hc => hc) (h.closed a c ha hc)
  settled c hc hcw := by
    show (r.solution.pre.setIfInBounds b _)[c]? = some (p.entryState r.solution c) ∧ _
    rw [Array.getElem?_setIfInBounds, h.size_pre, if_pos hlt]
    by_cases hbc : b = c
    · subst hbc
      exact ⟨if_pos rfl, hpost⟩
    · rw [if_neg hbc]
      refine h.settled c hc ?_
      rw [hwaiting]
      exact List.not_mem_cons_of_ne_of_not_mem (Ne.symm hbc) hcw

omit [DecidableEq D] in
/-- A visit that raises the state after the block: its successors have to wait. -/
theorem Climbing.record (h : p.Climbing r) (hp : p.IsMonotone) (hlt : b < p.graph.size)
    (hwaiting : r.worklist.waiting = b :: rest.waiting) :
    p.Climbing
      { solution := recordVisit r.solution b (p.entryState r.solution b)
          (p.block b (p.entryState r.solution b))
        worklist := rest.pushAll (p.graph.successors b) } := by
  have hb : p.graph.Reachable b := h.waiting b (by rw [hwaiting]; exact List.mem_cons_self)
  have hupdates := updates_recordVisit r.solution (p.entryState r.solution b)
    (p.block b (p.entryState r.solution b)) (h.size_reached ▸ hlt) (h.size_post ▸ hlt)
  generalize hs' : recordVisit r.solution b (p.entryState r.solution b)
    (p.block b (p.entryState r.solution b)) = s' at hupdates
  refine { size_post := ?_, size_reached := ?_, waiting := ?_, reached := ?_, rising := ?_ }
  · rw [← hs', recordVisit, Array.size_setIfInBounds, h.size_post]
  · rw [← hs', recordVisit, Array.size_setIfInBounds, h.size_reached]
  · intro c hc
    rcases Worklist.mem_pushAll.1 hc with hc | hc
    · exact hb.step hc
    · exact h.waiting c (by rw [hwaiting]; exact List.mem_cons_of_mem _ hc)
  · intro c hc
    rcases (hupdates.reached c).1 hc with rfl | hc
    · exact hb
    · exact h.reached c hc
  · intro c x hc hx
    -- nothing sinks, so neither does what a visit of `c` would store
    have hmono : p.block c (p.entryState r.solution c) ≤ p.block c (p.entryState s' c) :=
      hp.block c (entryState_mono hp (hupdates.rises (h.rising b)) c)
    by_cases hbc : b = c
    · subst hbc
      rw [hupdates.post_self, Option.some_inj] at hx
      exact hx ▸ hmono
    · rw [hupdates.post_of_ne hbc] at hx
      rw [hupdates.isReached_of_ne hbc] at hc
      exact le_trans (h.rising c x hc hx) hmono

omit [DecidableEq D] in
/-- Such a visit settles the block, and the blocks whose states may have changed wait. -/
theorem Invariant.record (h : p.Invariant r) (hg : p.graph.WellFormed) (hm : p.graph.Mirrored)
    (h0 : 0 < p.graph.size) (hp : p.IsMonotone)
    (hwaiting : r.worklist.waiting = b :: rest.waiting) :
    p.Invariant
      { solution := recordVisit r.solution b (p.entryState r.solution b)
          (p.block b (p.entryState r.solution b))
        worklist := rest.pushAll (p.graph.successors b) } := by
  have hb : p.graph.Reachable b := h.waiting b (by rw [hwaiting]; exact List.mem_cons_self)
  have hlt : b < p.graph.size := hb.lt_size hg h0
  have hclimbing := h.toClimbing.record hp hlt hwaiting
  have hupdates := updates_recordVisit r.solution (p.entryState r.solution b)
    (p.block b (p.entryState r.solution b)) (h.size_reached ▸ hlt) (h.size_post ▸ hlt)
  have hpre : (recordVisit r.solution b (p.entryState r.solution b)
      (p.block b (p.entryState r.solution b))).pre
        = r.solution.pre.setIfInBounds b (p.entryState r.solution b) := rfl
  generalize recordVisit r.solution b (p.entryState r.solution b)
    (p.block b (p.entryState r.solution b)) = s' at hupdates hpre hclimbing
  have hkept : ∀ c ∈ rest.waiting, c ∈ (rest.pushAll (p.graph.successors b)).waiting :=
    fun c hc => Worklist.mem_pushAll.2 (.inr hc)
  refine { toClimbing := hclimbing, size_pre := ?_, entry := ?_, closed := ?_, settled := ?_ }
  · rw [hpre, Array.size_setIfInBounds, h.size_pre]
  · exact reached_or_waiting hwaiting (fun c => (hupdates.reached c).2) hkept h.entry
  · intro a c ha hc
    rcases (hupdates.reached a).1 ha with rfl | ha
    · exact .inr (Worklist.mem_pushAll.2 (.inl hc))
    · exact reached_or_waiting hwaiting (fun c => (hupdates.reached c).2) hkept (h.closed a c ha hc)
  · intro c hc hcw
    rw [Worklist.mem_pushAll, not_or] at hcw
    obtain ⟨hsucc, hcw⟩ := hcw
    have hcsize : c < p.graph.size := by
      rcases (hupdates.reached c).1 hc with rfl | hc
      · exact hlt
      · exact (h.reached c hc).lt_size hg h0
    -- `b` does not lead to `c`, so nothing that enters `c` has changed
    rw [hupdates.entryState_eq fun hpred => hsucc ((hm b c hcsize).1 hpred), hpre,
      Array.getElem?_setIfInBounds, h.size_pre, if_pos hlt]
    by_cases hbc : b = c
    · subst hbc
      exact ⟨if_pos rfl, hupdates.post_self⟩
    · rw [if_neg hbc, hupdates.post_of_ne hbc]
      rw [hupdates.isReached_of_ne hbc] at hc
      refine h.settled c hc ?_
      rw [hwaiting]
      exact List.not_mem_cons_of_ne_of_not_mem (Ne.symm hbc) hcw

/-- A visit of a waiting block only climbs. -/
theorem visit_climbing (hg : p.graph.WellFormed) (h0 : 0 < p.graph.size) (hp : p.IsMonotone)
    (h : p.Climbing r) (hpop : r.worklist.pop? = some (b, rest)) :
    p.Climbing (p.visit { r with worklist := rest } b) := by
  have hwaiting : r.worklist.waiting = b :: rest.waiting := Worklist.pop?_eq_some hpop
  have hb : p.graph.Reachable b := h.waiting b (by rw [hwaiting]; exact List.mem_cons_self)
  obtain ⟨-, -, heq⟩ | ⟨-, heq⟩ := p.visit_cases { r with worklist := rest } b
  · rw [heq]
    exact h.confirm hwaiting
  · rw [heq]
    exact h.record hp (hb.lt_size hg h0) hwaiting

/-- **One visit**: a visit of a waiting block preserves the invariant. -/
theorem visit_invariant (hg : p.graph.WellFormed) (hm : p.graph.Mirrored) (h0 : 0 < p.graph.size)
    (hp : p.IsMonotone) (h : p.Invariant r) (hpop : r.worklist.pop? = some (b, rest)) :
    p.Invariant (p.visit { r with worklist := rest } b) := by
  have hwaiting : r.worklist.waiting = b :: rest.waiting := Worklist.pop?_eq_some hpop
  have hb : p.graph.Reachable b := h.waiting b (by rw [hwaiting]; exact List.mem_cons_self)
  obtain ⟨hreached, hpost, heq⟩ | ⟨-, heq⟩ := p.visit_cases { r with worklist := rest } b
  · rw [heq]
    exact h.confirm hwaiting (hb.lt_size hg h0) hreached hpost
  · rw [heq]
    exact h.record hg hm h0 hp hwaiting

end Visit

/-- A run only climbs. -/
theorem run_climbing {p : Problem Op D} (hg : p.graph.WellFormed) (h0 : 0 < p.graph.size)
    (hp : p.IsMonotone) (limit : Nat) {r : Progress D} (h : p.Climbing r) :
    p.Climbing (p.run limit r) := by
  induction limit generalizing r with
  | zero => exact h
  | succ limit ih =>
    rw [run]
    split
    · exact h
    · next b rest hpop => exact ih (visit_climbing hg h0 hp h hpop)

/-- **Runs**: a run preserves the invariant. -/
theorem run_invariant {p : Problem Op D} (hg : p.graph.WellFormed) (hm : p.graph.Mirrored)
    (h0 : 0 < p.graph.size) (hp : p.IsMonotone) (limit : Nat) {r : Progress D}
    (h : p.Invariant r) : p.Invariant (p.run limit r) := by
  induction limit generalizing r with
  | zero => exact h
  | succ limit ih =>
    rw [run]
    split
    · exact h
    · next b rest hpop => exact ih (visit_invariant hg hm h0 hp h hpop)

/-! ## The number of visits -/

section Potential

/-- How often the state after `b` may still change: once when it is first reached and then each
time that it rises. -/
def remaining [Height D] (rank : D → Nat) (s : Solution D) (b : Nat) : Nat :=
  if s.isReached b then Height.height D - rank (s.post[b]?.getD bottom) else Height.height D + 1

/-- The visits that may still be caused by changes: each change of a state lets all successors
wait. -/
noncomputable def potential [Height D] (p : Problem Op D) (rank : D → Nat) (s : Solution D) : Nat :=
  ∑ b ∈ p.graph.reachableBlocks, (p.graph.successors b).length * remaining rank s b

variable [Height D] {rank : D → Nat}

omit [DecidableEq D] [LawfulJoin D] in
theorem remaining_of_ne {s s' : Solution D} {b : Nat} {d : D} (h : Updates s s' b d) {c : Nat}
    (hc : b ≠ c) : remaining rank s' c = remaining rank s c := by
  rw [remaining, remaining, h.isReached_of_ne hc, h.post_of_ne hc]

omit [DecidableEq D] in
/-- An update that reaches its block for the first time or raises the state after it uses up one of
the changes that remain. -/
theorem remaining_self_lt {s s' : Solution D} {b : Nat} {d : D} (h : Updates s s' b d)
    (hle : rank d ≤ Height.height D) (hlt : ∀ x y : D, x < y → rank x < rank y)
    (hrises : s.isReached b → ∃ x, s.post[b]? = some x ∧ x < d) :
    remaining rank s' b < remaining rank s b := by
  rw [remaining, remaining, if_pos ((h.reached b).2 (.inl rfl)), h.post_self, Option.getD_some]
  by_cases hold : s.isReached b
  · obtain ⟨x, hx, hxd⟩ := hrises hold
    have hrank := hlt x d hxd
    rw [if_pos hold, hx, Option.getD_some]
    omega
  · rw [if_neg hold]
    omega

omit [DecidableEq D] [LawfulJoin D] in
/-- A change that remains at one block less pays for the waiting of its successors. -/
theorem potential_add_le {p : Problem Op D} {s s' : Solution D} {b : Nat}
    (hb : b ∈ p.graph.reachableBlocks) (hself : remaining rank s' b < remaining rank s b)
    (hother : ∀ c, b ≠ c → remaining rank s' c = remaining rank s c) :
    p.potential rank s' + (p.graph.successors b).length ≤ p.potential rank s := by
  rw [potential, potential, ← Finset.add_sum_erase _ _ hb, ← Finset.add_sum_erase _ _ hb]
  have hrest : ∑ c ∈ p.graph.reachableBlocks.erase b,
        (p.graph.successors c).length * remaining rank s' c
      = ∑ c ∈ p.graph.reachableBlocks.erase b,
        (p.graph.successors c).length * remaining rank s c :=
    Finset.sum_congr rfl fun c hc => by rw [hother c (Finset.ne_of_mem_erase hc).symm]
  have hmul := Nat.mul_le_mul_left (p.graph.successors b).length (Nat.succ_le_of_lt hself)
  rw [Nat.mul_succ] at hmul
  omega

/-- A visit pays for itself and for the waiting that it causes. -/
theorem visit_potential {p : Problem Op D} (hg : p.graph.WellFormed) (h0 : 0 < p.graph.size)
    (hle : ∀ d, rank d ≤ Height.height D) (hlt : ∀ x y : D, x < y → rank x < rank y)
    {r : Progress D} (h : p.Climbing r) {b : Nat} {rest : Worklist}
    (hpop : r.worklist.pop? = some (b, rest)) :
    (p.visit { r with worklist := rest } b).solution.steps
        + (p.visit { r with worklist := rest } b).worklist.waiting.length
        + p.potential rank (p.visit { r with worklist := rest } b).solution
      ≤ r.solution.steps + r.worklist.waiting.length + p.potential rank r.solution := by
  have hwaiting : r.worklist.waiting = b :: rest.waiting := Worklist.pop?_eq_some hpop
  have hb : p.graph.Reachable b := h.waiting b (by rw [hwaiting]; exact List.mem_cons_self)
  have hbsize : b < p.graph.size := hb.lt_size hg h0
  rw [hwaiting, List.length_cons]
  obtain ⟨-, -, heq⟩ | ⟨hnew, heq⟩ := p.visit_cases { r with worklist := rest } b
  · rw [heq]
    show r.solution.steps + 1 + rest.waiting.length + p.potential rank r.solution ≤ _
    omega
  · rw [heq]
    have hpush := Worklist.length_pushAll_le rest (p.graph.successors b)
    have hupdates := updates_recordVisit r.solution (p.entryState r.solution b)
      (p.block b (p.entryState r.solution b)) (h.size_reached ▸ hbsize) (h.size_post ▸ hbsize)
    -- the state after the block changed, and since it never sinks, one change less remains
    have hself := remaining_self_lt hupdates (hle _) hlt fun hold =>
      h.lt_of_changed hbsize hold fun hpost => hnew ⟨hold, hpost⟩
    have hpot := potential_add_le (FlowGraph.mem_reachableBlocks.2 ⟨hbsize, hb⟩) hself
      fun c hc => remaining_of_ne hupdates hc
    show r.solution.steps + 1 + (rest.pushAll (p.graph.successors b)).waiting.length
      + p.potential rank (recordVisit r.solution b (p.entryState r.solution b)
        (p.block b (p.entryState r.solution b))) ≤ _
    omega

/-- A run either empties the worklist or uses up its limit, and never makes more visits than the
waiting blocks and the potential allow. -/
theorem run_potential {p : Problem Op D} (hg : p.graph.WellFormed) (h0 : 0 < p.graph.size)
    (hp : p.IsMonotone) (hle : ∀ d, rank d ≤ Height.height D)
    (hlt : ∀ x y : D, x < y → rank x < rank y) (limit : Nat) {r : Progress D} (h : p.Climbing r) :
    (p.run limit r).solution.steps + (p.run limit r).worklist.waiting.length
        ≤ r.solution.steps + r.worklist.waiting.length + p.potential rank r.solution ∧
      ((p.run limit r).worklist.waiting = [] ∨
        r.solution.steps + limit ≤ (p.run limit r).solution.steps) := by
  induction limit generalizing r with
  | zero => exact ⟨Nat.le_add_right _ _, .inr (Nat.le_refl _)⟩
  | succ limit ih =>
    rw [run]
    split
    · next hpop => exact ⟨Nat.le_add_right _ _, .inl (Worklist.pop?_eq_none.1 hpop)⟩
    · next b rest hpop =>
      obtain ⟨hsum, hdone⟩ := ih (visit_climbing hg h0 hp h hpop)
      have hpay := visit_potential hg h0 hle hlt h hpop
      have hsteps : (p.visit { r with worklist := rest } b).solution.steps
          = r.solution.steps + 1 := p.steps_visit _ b
      refine ⟨by omega, ?_⟩
      rcases hdone with hdone | hdone
      · exact .inl hdone
      · right
        omega

end Potential

/-! ## The solution -/

/-- The states satisfy the dataflow equations on exactly the reachable blocks. -/
structure Solves (p : Problem Op D) (s : Solution D) : Prop where
  reached_iff : ∀ b, s.isReached b ↔ p.graph.Reachable b
  pre_eq : ∀ b, p.graph.Reachable b → s.pre[b]? = some (p.entryState s b)
  post_eq : ∀ b, p.graph.Reachable b → s.post[b]? = some (p.block b (p.entryState s b))

omit [DecidableEq D] in
/-- When no block waits, the equations are satisfied. -/
theorem Invariant.solves {p : Problem Op D} {r : Progress D} (h : p.Invariant r)
    (hdone : r.worklist.waiting = []) : p.Solves r.solution := by
  have hnone : ∀ b, b ∉ r.worklist.waiting := fun b => by rw [hdone]; exact List.not_mem_nil
  -- nothing waits, so along a path each block passes on that it is reached
  have hall : ∀ {q b}, p.graph.Path q b → r.solution.isReached b := by
    intro q b hq
    induction hq with
    | entry => exact h.entry.resolve_right (hnone 0)
    | step _ hb ih => exact (h.closed _ _ ih hb).resolve_right (hnone _)
  have hreached : ∀ b, r.solution.isReached b ↔ p.graph.Reachable b :=
    fun b => ⟨h.reached b, fun ⟨_, hq⟩ => hall hq⟩
  exact { reached_iff := hreached
          pre_eq := fun b hb => (h.settled b ((hreached b).2 hb) (hnone b)).1
          post_eq := fun b hb => (h.settled b ((hreached b).2 hb) (hnone b)).2 }

/-- Families of states that satisfy the dataflow equations as inequalities. -/
structure Above (p : Problem Op D) (pre post : Nat → D) : Prop where
  seed : p.seed ≤ pre 0
  edge : ∀ a b y, p.graph.Reachable a → b ∈ p.graph.successors a →
    p.edge a b (post a) = some y → y ≤ pre b
  block : ∀ b, p.graph.Reachable b → p.block b (pre b) ≤ post b

/-- The states after the reached blocks are below those of a family. -/
def Within (s : Solution D) (post : Nat → D) : Prop :=
  ∀ b x, s.isReached b → s.post[b]? = some x → x ≤ post b

omit [DecidableEq D] in
/-- While states are below a family, so are those before blocks. -/
theorem entryState_le_of_within {p : Problem Op D} (hm : p.graph.Mirrored) (hp : p.IsMonotone)
    {s : Solution D} (hs : ∀ a, s.isReached a → p.graph.Reachable a) {pre post : Nat → D}
    (habove : p.Above pre post) (h : Within s post) {b : Nat} (hb : b < p.graph.size) :
    p.entryState s b ≤ pre b := by
  refine entryState_le_iff.2 ⟨?_, fun a ha y hy => ?_⟩
  · split
    · next hb0 => exact hb0 ▸ habove.seed
    · exact LawfulJoin.bottom_le _
  · rw [brought] at hy
    split at hy
    · next hreached =>
      obtain ⟨x, hx, hxy⟩ := Option.bind_eq_some_iff.1 hy
      obtain ⟨z, hz, hyz⟩ := hp.edge a b (h a x hreached hx) hxy
      exact le_trans hyz (habove.edge a b z (hs a hreached) ((hm a b hb).1 ha) hz)
    · cases hy

/-- A run stays below every family that satisfies the inequalities. -/
theorem run_within {p : Problem Op D} (hg : p.graph.WellFormed) (hm : p.graph.Mirrored)
    (h0 : 0 < p.graph.size) (hp : p.IsMonotone) {pre post : Nat → D} (habove : p.Above pre post)
    (limit : Nat) {r : Progress D} (h : p.Invariant r) (hr : Within r.solution post) :
    Within (p.run limit r).solution post := by
  induction limit generalizing r with
  | zero => exact hr
  | succ limit ih =>
    rw [run]
    split
    · exact hr
    · next b rest hpop =>
      refine ih (visit_invariant hg hm h0 hp h hpop) ?_
      have hb : p.graph.Reachable b := h.waiting b (by
        rw [Worklist.pop?_eq_some hpop]
        exact List.mem_cons_self)
      have hlt : b < p.graph.size := hb.lt_size hg h0
      -- whatever the visit stores is below the family
      have hpost : p.block b (p.entryState r.solution b) ≤ post b :=
        le_trans (hp.block b (entryState_le_of_within hm hp h.reached habove hr hlt))
          (habove.block b hb)
      obtain ⟨-, -, heq⟩ | ⟨-, heq⟩ := p.visit_cases { r with worklist := rest } b
      · rw [heq]
        exact hr
      · rw [heq]
        intro c x hc hx
        have hupdates := updates_recordVisit r.solution (p.entryState r.solution b)
          (p.block b (p.entryState r.solution b)) (h.size_reached ▸ hlt) (h.size_post ▸ hlt)
        by_cases hbc : b = c
        · subst hbc
          rw [hupdates.post_self, Option.some_inj] at hx
          exact hx ▸ hpost
        · rw [hupdates.post_of_ne hbc] at hx
          rw [hupdates.isReached_of_ne hbc] at hc
          exact hr c x hc hx

omit [DecidableEq D] [LawfulJoin D] in
/-- At the start, every edge of a reachable block may cause a visit when its source is reached and
each time that the state after its source rises. -/
theorem potential_start [Height D] (p : Problem Op D) (rank : D → Nat) :
    p.potential rank p.start.solution = (Height.height D + 1) * p.graph.liveEdges := by
  have hremaining : ∀ b, remaining rank p.start.solution b = Height.height D + 1 := by
    intro b
    rw [remaining, if_neg]
    simp only [start, Solution.isReached, Array.getElem?_replicate]
    split <;> simp
  rw [potential, FlowGraph.liveEdges, Finset.mul_sum]
  exact Finset.sum_congr rfl fun b _ => by rw [hremaining, Nat.mul_comm]

/-- In any graph, one visit and those that edges of reachable blocks may cause leave no block
waiting. -/
theorem waiting_run_of_le [Height D] [LawfulHeight D] {p : Problem Op D}
    (hg : p.graph.WellFormed) (h0 : 0 < p.graph.size) (hp : p.IsMonotone) {n : Nat}
    (hn : 1 + (Height.height D + 1) * p.graph.liveEdges ≤ n) :
    (p.run n p.start).worklist.waiting = [] := by
  obtain ⟨rank, hle, hlt⟩ := LawfulHeight.exists_rank (α := D)
  obtain ⟨hsum, hdone⟩ := run_potential hg h0 hp hle hlt n (start_invariant h0).toClimbing
  rw [potential_start] at hsum
  have hwaiting : p.start.worklist.waiting.length = 1 := by
    rw [start, if_neg (Nat.ne_of_gt h0)]
    rfl
  have hsteps : p.start.solution.steps = 0 := rfl
  rcases hdone with hdone | hdone
  · exact hdone
  · exact List.length_eq_zero_iff.1 (by omega)

/-- **Termination**: in any graph, the visits that the bound allows leave no block waiting. -/
theorem waiting_run_visitBound [Height D] [LawfulHeight D] {p : Problem Op D}
    (hg : p.graph.WellFormed) (h0 : 0 < p.graph.size) (hp : p.IsMonotone) :
    (p.run p.visitBound p.start).worklist.waiting = [] :=
  waiting_run_of_le hg h0 hp (Nat.add_le_add_left (Nat.mul_le_mul_left _ p.graph.liveEdges_le) 1)

omit [LawfulJoin D] in
/-- The solver answers with where a run ends that leaves no block waiting. -/
theorem solveWithin_eq_ok {p : Problem Op D} {limit : Nat} {s : Solution D} :
    p.solveWithin limit = .ok s ↔
      (p.run limit p.start).worklist.waiting = [] ∧ (p.run limit p.start).solution = s := by
  rw [← List.isEmpty_iff, solveWithin, Worklist.isEmpty]
  split
  · next h => rw [Except.ok.injEq, and_iff_right h]
  · next h =>
    constructor
    · intro herror
      cases herror
    · intro hdone
      exact absurd hdone.1 h

omit [LawfulJoin D] in
theorem solve_eq_ok [Height D] {p : Problem Op D} {limit : Option Nat} {s : Solution D} :
    p.solve limit = .ok s ↔ (p.run (limit.getD p.visitBound) p.start).worklist.waiting = [] ∧
      (p.run (limit.getD p.visitBound) p.start).solution = s :=
  solveWithin_eq_ok

section Answers

variable {p : Problem Op D} (hg : p.graph.WellFormed) (hm : p.graph.Mirrored)
  (h0 : 0 < p.graph.size) (hp : p.IsMonotone)

include hg hm h0 hp

/-- A run that leaves no block waiting ends with states that satisfy the equations. -/
theorem solves_of_run {n : Nat} (h : (p.run n p.start).worklist.waiting = []) :
    p.Solves (p.run n p.start).solution :=
  (run_invariant hg hm h0 hp n (start_invariant h0)).solves h

/-- At any time, the states are below all that satisfies the inequalities. -/
theorem entryState_run_le (n : Nat) {pre post : Nat → D} (habove : p.Above pre post) {b : Nat}
    (hb : p.graph.Reachable b) : p.entryState (p.run n p.start).solution b ≤ pre b := by
  have hstart := start_invariant h0
  have hzero : Within p.start.solution post := by
    intro c x hc
    simp only [start, Solution.isReached, Array.getElem?_replicate] at hc
    split at hc <;> cases hc
  exact entryState_le_of_within hm hp (run_invariant hg hm h0 hp n hstart).reached habove
    (run_within hg hm h0 hp habove n hstart hzero) (hb.lt_size hg h0)

variable [Height D]

/-- **Solution**: under any limit, an answer of the solver satisfies the equations. -/
theorem solves_of_solve {limit : Option Nat} {s : Solution D} (h : p.solve limit = .ok s) :
    p.Solves s := by
  obtain ⟨hdone, rfl⟩ := solve_eq_ok.1 h
  exact solves_of_run hg hm h0 hp hdone

/-- **Least solution**: under any limit, an answer of the solver is below all that satisfies the
inequalities. -/
theorem entryState_le_of_solve {limit : Option Nat} {s : Solution D} (h : p.solve limit = .ok s)
    {pre post : Nat → D} (habove : p.Above pre post) {b : Nat} (hb : p.graph.Reachable b) :
    p.entryState s b ≤ pre b := by
  obtain ⟨-, rfl⟩ := solve_eq_ok.1 h
  exact entryState_run_le hg hm h0 hp _ habove hb

omit hm in
/-- Under any limit, an answer of the solver reaches reachable blocks only. -/
theorem reachable_of_solve {limit : Option Nat} {s : Solution D} (h : p.solve limit = .ok s)
    {b : Nat} (hb : s.isReached b = true) : p.graph.Reachable b := by
  obtain ⟨-, rfl⟩ := solve_eq_ok.1 h
  exact (run_climbing hg h0 hp _ (start_invariant h0).toClimbing).reached b hb

omit hm in
/-- Without a limit, the solver answers. -/
theorem exists_solve_none [LawfulHeight D] : ∃ s, p.solve none = .ok s :=
  ⟨_, solve_eq_ok.2 ⟨waiting_run_visitBound hg h0 hp, rfl⟩⟩

end Answers

end Problem

end Interlock
