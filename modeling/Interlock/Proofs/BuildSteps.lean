import Interlock.Proofs.FlowPaths
import Mathlib.Data.List.Induction

/-!
# Graphs built step by step

A control-flow graph can be built by adding blocks, operations and edges. An edge may be added
before its target. The target, once it is added, does not learn of it: a block has as predecessors
the sources of those edges to it that were added later than the block itself.

- `BuildStep`, `FlowGraph.build?`: the steps, and the graph that a list of steps builds.
- `BuildStep.targetsFrom`, `BuildStep.sourcesTo`: the edges that steps add, seen from either end.
- `FlowGraph.step?_adds`: what one step adds to the lists of each block.
- `FlowGraph.Built`: the lists of a graph, read off the steps so far.
- `FlowGraph.predecessors_built`: which predecessors are missing.
-/

namespace Interlock

/-- A step in building a graph. -/
inductive BuildStep (Op : Type) where
  | block
  | operation (b : Nat) (op : Op)
  | edge (source target : Nat)
  deriving DecidableEq, Repr

namespace BuildStep

variable {Op : Type}

def isBlock : BuildStep Op → Bool
  | block => true
  | _ => false

def targetFrom? (a : Nat) : BuildStep Op → Option Nat
  | edge source target => if source = a then some target else none
  | _ => none

def sourceTo? (b : Nat) : BuildStep Op → Option Nat
  | edge source target => if target = b then some source else none
  | _ => none

/-- The number of blocks that the steps add. -/
def blockCount (steps : List (BuildStep Op)) : Nat := steps.countP isBlock

/-- The targets of the edges from `a` that the steps add, in order. -/
def targetsFrom (a : Nat) (steps : List (BuildStep Op)) : List Nat :=
  steps.filterMap (targetFrom? a)

/-- The sources of the edges to `b` that the steps add, in order. -/
def sourcesTo (b : Nat) (steps : List (BuildStep Op)) : List Nat := steps.filterMap (sourceTo? b)

@[simp] theorem targetsFrom_append (a : Nat) (steps steps' : List (BuildStep Op)) :
    targetsFrom a (steps ++ steps') = targetsFrom a steps ++ targetsFrom a steps' :=
  List.filterMap_append

@[simp] theorem sourcesTo_append (b : Nat) (steps steps' : List (BuildStep Op)) :
    sourcesTo b (steps ++ steps') = sourcesTo b steps ++ sourcesTo b steps' :=
  List.filterMap_append

@[simp] theorem blockCount_append (steps steps' : List (BuildStep Op)) :
    blockCount (steps ++ steps') = blockCount steps + blockCount steps' :=
  List.countP_append

theorem blockCount_block (steps : List (BuildStep Op)) :
    blockCount (.block :: steps) = blockCount steps + 1 :=
  List.countP_cons_of_pos rfl

theorem targetsFrom_edge (a source target : Nat) :
    targetsFrom a [(edge source target : BuildStep Op)] = if source = a then [target] else [] := by
  by_cases h : source = a <;> simp [targetsFrom, targetFrom?, h]

theorem sourcesTo_edge (b source target : Nat) :
    sourcesTo b [(edge source target : BuildStep Op)] = if target = b then [source] else [] := by
  by_cases h : target = b <;> simp [sourcesTo, sourceTo?, h]

/-- The edges between two blocks are counted at either end. -/
theorem count_targetsFrom (a b : Nat) (steps : List (BuildStep Op)) :
    (targetsFrom a steps).count b = (sourcesTo b steps).count a := by
  induction steps with
  | nil => rfl
  | cons step steps ih =>
    rw [← List.singleton_append, targetsFrom_append, sourcesTo_append, List.count_append,
      List.count_append, ih]
    congr 1
    cases step with
    | block => rfl
    | operation c op => rfl
    | edge source target =>
      rw [targetsFrom_edge, sourcesTo_edge]
      by_cases hsource : source = a <;> by_cases htarget : target = b <;> simp [hsource, htarget]

/-- Every block of the graph is added by one of the steps. -/
theorem exists_block_step {steps : List (BuildStep Op)} {b : Nat} (hb : b < blockCount steps) :
    ∃ early late, steps = early ++ .block :: late ∧ blockCount early = b := by
  induction steps using List.reverseRecOn with
  | nil => exact absurd hb (Nat.not_lt_zero b)
  | append_singleton steps step ih =>
    by_cases hlt : b < blockCount steps
    · obtain ⟨early, late, rfl, hcount⟩ := ih hlt
      exact ⟨early, late ++ [step], by simp, hcount⟩
    · rw [blockCount_append] at hb
      cases step with
      | block =>
        refine ⟨steps, [], rfl, ?_⟩
        have hone : blockCount [(block : BuildStep Op)] = 1 := rfl
        omega
      | operation c op => exact absurd hb hlt
      | edge source target => exact absurd hb hlt

end BuildStep

namespace FlowGraph

open BuildStep

variable {Op : Type} {g g' : FlowGraph Op}

/-- The graph after one more step. There is none if the step changes a block that does not exist. -/
def step? (g : FlowGraph Op) : BuildStep Op → Option (FlowGraph Op)
  | .block => some g.addBlock
  | .operation b op => g.addOperation? b op
  | .edge source target => g.addEdge? source target

/-- The graph that the steps build, starting without blocks. -/
def build? (steps : List (BuildStep Op)) : Option (FlowGraph Op) := steps.foldlM step? {}

/-- The graph with the same operations and successors whose predecessors are derived from these. -/
def rederived (g : FlowGraph Op) : FlowGraph Op :=
  ofBlocks (g.blocks.toList.map fun block => (block.operations, block.successors))

/-! ## One step -/

/-- A list that each block keeps, after a change that adds to the list of one block. -/
theorem list_modify {α : Type} (list : Block Op → List α) (added : List α)
    {change : Block Op → Block Op} (blocks : Array (Block Op)) (b c : Nat)
    (h : ∀ block, list (change block) = list block ++ added) :
    ((blocks.modify b change)[c]?.map list).getD []
      = (blocks[c]?.map list).getD [] ++ if b = c ∧ b < blocks.size then added else [] := by
  rw [Array.getElem?_modify]
  by_cases hbc : b = c
  · subst hbc
    rw [if_pos rfl]
    by_cases hlt : b < blocks.size
    · rw [Array.getElem?_eq_getElem hlt, if_pos ⟨rfl, hlt⟩]
      exact h _
    · rw [Array.getElem?_eq_none (Nat.le_of_not_lt hlt), if_neg fun hif => hlt hif.2]
      rfl
  · rw [if_neg hbc, if_neg fun hif => hbc hif.1, List.append_nil]

/-- A change that leaves the lists of all blocks as they are. -/
theorem list_modify_same {α : Type} (list : Block Op → List α) {change : Block Op → Block Op}
    (blocks : Array (Block Op)) (b c : Nat) (h : ∀ block, list (change block) = list block) :
    ((blocks.modify b change)[c]?.map list).getD [] = (blocks[c]?.map list).getD [] := by
  rw [list_modify list [], ite_self, List.append_nil]
  exact fun block => (h block).trans (List.append_nil _).symm

/-- A new block starts with an empty list. -/
theorem list_push {α : Type} (list : Block Op → List α) (h : list {} = [])
    (blocks : Array (Block Op)) (c : Nat) :
    ((blocks.push {})[c]?.map list).getD [] = (blocks[c]?.map list).getD [] := by
  rw [Array.getElem?_push]
  split
  · next heq =>
    rw [Array.getElem?_eq_none (Nat.le_of_eq heq.symm)]
    exact h
  · rfl

/-- `Adds g g' step`: what the step adds to the graph. A block learns of a predecessor only if it
exists when the edge is added. -/
structure Adds (g g' : FlowGraph Op) (step : BuildStep Op) : Prop where
  size : g'.size = g.size + blockCount [step]
  successors : ∀ a, g'.successors a = g.successors a ++ targetsFrom a [step]
  predecessors : ∀ b, g'.predecessors b
    = g.predecessors b ++ if b < g.size then sourcesTo b [step] else []

/-- There are no predecessors where there is no block. -/
theorem predecessors_of_size_le {b : Nat} (h : g.size ≤ b) : g.predecessors b = [] := by
  rw [predecessors, Array.getElem?_eq_none h]
  rfl

theorem adds_block (g : FlowGraph Op) : Adds g g.addBlock .block where
  size := Array.size_push _
  successors a := by
    rw [successors, addBlock, list_push _ rfl]
    exact (List.append_nil _).symm
  predecessors b := by
    rw [predecessors, addBlock, list_push _ rfl]
    exact (List.append_nil _).symm.trans (congrArg _ (ite_self _).symm)

/-- An operation adds to no list of edges. -/
theorem adds_operation {b : Nat} {op : Op} (h : g.addOperation? b op = some g') :
    Adds g g' (.operation b op) := by
  rw [addOperation?] at h
  split at h
  · cases h
    refine { size := Array.size_modify, successors := fun a => ?_, predecessors := fun c => ?_ }
    · rw [successors, list_modify_same Block.successors]
      · exact (List.append_nil _).symm
      · exact fun _ => rfl
    · rw [predecessors, list_modify_same Block.predecessors]
      · exact (List.append_nil _).symm.trans (congrArg _ (ite_self _).symm)
      · exact fun _ => rfl
  · cases h

/-- An edge is listed at its source, and at its target if that exists already. -/
theorem adds_edge {source target : Nat} (h : g.addEdge? source target = some g') :
    Adds g g' (.edge source target) := by
  rw [addEdge?] at h
  split at h
  · next hlt =>
    cases h
    refine { size := ?_, successors := fun a => ?_, predecessors := fun b => ?_ }
    · rw [size, Array.size_modify, Array.size_modify]
      rfl
    · rw [successors, list_modify_same Block.successors, list_modify Block.successors [target],
        targetsFrom_edge]
      · congr 1
        exact if_congr (and_iff_left hlt) rfl rfl
      · exact fun _ => rfl
      · exact fun _ => rfl
    · rw [predecessors, list_modify Block.predecessors [source],
        list_modify_same Block.predecessors, Array.size_modify, sourcesTo_edge, ← ite_and]
      · congr 1
        exact if_congr ⟨fun h => ⟨h.1 ▸ h.2, h.1⟩, fun h => ⟨h.2, h.2 ▸ h.1⟩⟩ rfl rfl
      · exact fun _ => rfl
      · exact fun _ => rfl
  · cases h

/-- What a step adds to a graph. -/
theorem step?_adds {step : BuildStep Op} (h : g.step? step = some g') : Adds g g' step := by
  cases step with
  | block =>
    obtain rfl := Option.some_inj.1 h
    exact g.adds_block
  | operation b op => exact adds_operation h
  | edge source target => exact adds_edge h

/-! ## All steps -/

/-- The lists of a graph after the given steps. All edges from a block are in its list of
successors. The edges to a block are in its list of predecessors only if they were added after it.
-/
structure Built (steps : List (BuildStep Op)) (g : FlowGraph Op) : Prop where
  size : g.size = blockCount steps
  successors : ∀ a, g.successors a = targetsFrom a steps
  predecessors : ∀ early late, steps = early ++ .block :: late →
    g.predecessors (blockCount early) = sourcesTo (blockCount early) late

theorem built_nil : Built ([] : List (BuildStep Op)) {} where
  size := rfl
  successors _ := rfl
  predecessors early late h := by
    have hlength := congrArg List.length h
    simp at hlength

/-- One more step. -/
theorem Built.snoc {steps : List (BuildStep Op)} {step : BuildStep Op} (h : Built steps g)
    (hadds : Adds g g' step) : Built (steps ++ [step]) g' where
  size := by rw [hadds.size, h.size, blockCount_append]
  successors a := by rw [hadds.successors, h.successors, targetsFrom_append]
  predecessors early late hsplit := by
    rw [hadds.predecessors]
    rcases List.eq_nil_or_concat' late with rfl | ⟨late, last, rfl⟩
    · -- the new step adds the block, which starts without predecessors
      obtain ⟨rfl, -⟩ := List.append_inj' hsplit rfl
      have hle : g.size ≤ blockCount steps := Nat.le_of_eq h.size
      rw [predecessors_of_size_le hle, if_neg (Nat.not_lt.2 hle)]
      rfl
    · -- late ∧ [step] = [last] := :: the block is there already, so the step is one of the late
      -- ones
      obtain ⟨rfl, hlast⟩ : steps = early ++ .block :: late ∧ [step] = [last] :=
        List.append_inj' (by rw [hsplit]; simp) rfl
      have hlt : blockCount early < g.size := by
        rw [h.size, blockCount_append, blockCount_block]
        omega
      rw [h.predecessors early late rfl, if_pos hlt, sourcesTo_append, hlast]

/-- A run of steps. -/
theorem built_of_build? {steps : List (BuildStep Op)} (h : build? steps = some g) :
    Built steps g := by
  induction steps using List.reverseRecOn generalizing g with
  | nil =>
    obtain rfl := Option.some_inj.1 h
    exact built_nil
  | append_singleton steps step ih =>
    rw [build?, List.foldlM_append] at h
    obtain ⟨g₀, hsteps, hstep⟩ := Option.bind_eq_some_iff.1 h
    rw [List.foldlM_cons] at hstep
    obtain ⟨g₁, hstepped, hnil⟩ := Option.bind_eq_some_iff.1 hstep
    obtain rfl := Option.some_inj.1 hnil
    exact (ih hsteps).snoc (step?_adds hstepped)

/-! ## Derived predecessors -/

/-- Sources are listed in ascending order, each as often as it has edges. -/
theorem sources_concat (successors : List (List Nat)) (next : List Nat) (b : Nat) :
    sources (successors ++ [next]) b
      = sources successors b ++ List.replicate (next.count b) successors.length := by
  have hlength : (next.filter (· = b)).length = next.count b := by
    rw [List.count, List.countP_eq_length_filter]
    rfl
  rw [sources, List.mapIdx_concat, List.flatten_append, ← sources, List.flatten_singleton,
    List.map_const', hlength]

/-- So each block is listed as often as it names the target. -/
theorem count_sources (successors : List (List Nat)) (a b : Nat) :
    (sources successors b).count a = (successors[a]?.getD []).count b := by
  induction successors using List.reverseRecOn with
  | nil => rfl
  | append_singleton successors next ih =>
    rw [sources_concat, List.count_append, ih, List.count_replicate]
    rcases Nat.lt_trichotomy a successors.length with hlt | rfl | hgt
    · rw [List.getElem?_append_left hlt]
      simp [Nat.ne_of_gt hlt]
    · simp
    · -- a place after the end has no edges on either side
      have hend : (successors ++ [next])[a]? = none :=
        List.getElem?_eq_none (by rw [List.length_append, List.length_singleton]; omega)
      rw [hend, List.getElem?_eq_none (Nat.le_of_lt hgt)]
      simp [Nat.ne_of_lt hgt]

/-- Derived predecessors mirror the successors, with the number of edges. -/
theorem count_predecessors_rederived {b : Nat} (hb : b < g.size) (a : Nat) :
    (g.rederived.predecessors b).count a = (g.successors a).count b := by
  have hpredecessors : g.rederived.predecessors b
      = sources (g.blocks.toList.map (·.successors)) b := by
    have hlength : b < g.blocks.size := hb
    simp [predecessors, rederived, ofBlocks, hlength, Function.comp_def]
  rw [hpredecessors, count_sources, List.getElem?_map, Array.getElem?_toList]
  rfl

/-- **Edges that are added before their target are missing from its predecessors**: successor lists
have all edges that the steps add. The predecessors of a block are the sources of the edges to it
that are added after it. So its predecessors have each block as often as that block has it as a
successor, and are up to order those derived from the successor lists, exactly if no edge to it is
added before it. -/
theorem predecessors_built {steps : List (BuildStep Op)} (h : build? steps = some g) :
    g.size = blockCount steps ∧ (∀ a, g.successors a = targetsFrom a steps) ∧
    ∀ b < g.size, ∃ early late, steps = early ++ .block :: late ∧ blockCount early = b ∧
      g.predecessors b = sourcesTo b late ∧
      (∀ a, (g.successors a).count b = (sourcesTo b early).count a + (g.predecessors b).count a) ∧
      ((∀ a, (g.predecessors b).count a = (g.successors a).count b) ↔ sourcesTo b early = []) ∧
      ((g.predecessors b).Perm (g.rederived.predecessors b) ↔ sourcesTo b early = []) := by
  have hbuilt := built_of_build? h
  refine ⟨hbuilt.size, hbuilt.successors, fun b hb => ?_⟩
  obtain ⟨early, late, hsplit, rfl⟩ := exists_block_step (hbuilt.size ▸ hb)
  have hpredecessors := hbuilt.predecessors early late hsplit
  -- each edge is early or late, and the late ones are the predecessors
  have hcount : ∀ a, (g.successors a).count (blockCount early)
      = (sourcesTo (blockCount early) early).count a
        + (g.predecessors (blockCount early)).count a := by
    intro a
    rw [hbuilt.successors, count_targetsFrom, hsplit, sourcesTo_append, List.count_append,
      hpredecessors]
    rfl
  have hagree : (∀ a, (g.predecessors (blockCount early)).count a
      = (g.successors a).count (blockCount early)) ↔ sourcesTo (blockCount early) early = [] := by
    constructor
    · intro heq
      refine List.eq_nil_iff_forall_not_mem.2 fun a => List.count_eq_zero.1 ?_
      have ha := hcount a
      rw [← heq a] at ha
      omega
    · intro hnil a
      rw [hcount a, hnil, List.count_nil, Nat.zero_add]
  refine ⟨early, late, hsplit, rfl, hpredecessors, hcount, hagree, ?_⟩
  rw [← hagree, List.perm_iff_count]
  exact forall_congr' fun a => by rw [count_predecessors_rederived hb]

theorem predecessors_built_loop : ∃ g : FlowGraph Nat,
    build? [.block, .edge 0 1, .operation 0 7, .block, .edge 0 1, .edge 1 1, .edge 1 0] = some g ∧
    1 < g.size ∧ g.predecessors 1 = [0, 1] ∧ (g.successors 0).count 1 = 2 ∧
    (∃ early late,
      [.block, .edge 0 1, .operation 0 7, .block, .edge 0 1, .edge 1 1, .edge 1 0]
        = early ++ (.block : BuildStep Nat) :: late ∧
      blockCount early = 1 ∧ (sourcesTo 1 early).count 0 = 1 ∧ sourcesTo 1 late = [0, 1]) ∧
    ¬ (g.predecessors 1).Perm (g.rederived.predecessors 1) := by
  refine ⟨_, rfl, by decide, by decide, by decide, ?_⟩
  obtain ⟨-, -, hblocks⟩ := predecessors_built (rfl : build?
    [(.block : BuildStep Nat), .edge 0 1, .operation 0 7, .block, .edge 0 1, .edge 1 1, .edge 1 0]
      = some _)
  obtain ⟨early, late, hsplit, hearly, hlate, hcount, -, hperm⟩ := hblocks 1 (by decide)
  have hone : (sourcesTo 1 early).count 0 = 1 := by
    have hsum : 2 = (sourcesTo 1 early).count 0 + 1 := hcount 0
    omega
  refine ⟨⟨early, late, hsplit, hearly, hone, hlate.symm⟩, fun hp => ?_⟩
  rw [hperm.1 hp] at hone
  cases hone

/-- A graph of two blocks, with an edge between them that is added before its target. All edges lead
to blocks of the graph, but the target has no predecessor. -/
theorem early_edge_not_mirrored : ∃ g : FlowGraph Nat,
    build? [.block, .edge 0 1, .block] = some g ∧ 1 < g.size ∧ g.WellFormed ∧
    (g.predecessors 1).count 0 ≠ (g.successors 0).count 1 ∧
    ¬ (g.predecessors 1).Perm (g.rederived.predecessors 1) := by
  refine ⟨_, rfl, ?_⟩
  decide

end FlowGraph

end Interlock
