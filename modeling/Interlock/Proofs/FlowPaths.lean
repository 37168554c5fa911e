import Interlock.Flow.Graph
import Mathlib.Data.List.Nodup

/-!
# Paths through control-flow graphs

- `FlowGraph.Mirrored`: the predecessor lists say the same as the successor lists.
- `FlowGraph.Derived`: they say it in block order, once per edge.
- `FlowGraph.derived_ofBlocks`: they do in a graph made from blocks.
- `FlowGraph.Path`: a way from the entry to the start of a block, given by the blocks
  that run on it. Loops may be taken any number of times.
- `FlowGraph.Reachable`: some path leads to the block.
- `FlowGraph.mem_positions`, `FlowGraph.nodup_positions`: the positions of a graph.
-/

namespace Interlock

namespace FlowGraph

variable {Op : Type} {g : FlowGraph Op}

/-- A block of the graph lists as predecessors exactly the blocks that list it as a successor. -/
def Mirrored (g : FlowGraph Op) : Prop :=
  ∀ a b, b < g.size → (a ∈ g.predecessors b ↔ b ∈ g.successors a)

/-- `g.Path p b`: from the entry, the blocks of `p` run one after the other, and `b` comes next. -/
inductive Path (g : FlowGraph Op) : List Nat → Nat → Prop
  | entry : Path g [] 0
  | step {p : List Nat} {a b : Nat} : Path g p a → b ∈ g.successors a → Path g (p ++ [a]) b

/-- Some path leads to the block. -/
def Reachable (g : FlowGraph Op) (b : Nat) : Prop := ∃ p, g.Path p b

theorem Reachable.entry : g.Reachable 0 := ⟨[], .entry⟩

theorem Reachable.step {a b : Nat} (h : g.Reachable a) (hb : b ∈ g.successors a) :
    g.Reachable b := by
  obtain ⟨p, hp⟩ := h
  exact ⟨p ++ [a], hp.step hb⟩

/-- Only blocks of the graph have successors. -/
theorem lt_size_of_mem_successors {a b : Nat} (h : b ∈ g.successors a) : a < g.size := by
  refine Nat.lt_of_not_le fun hle => ?_
  rw [successors, Array.getElem?_eq_none hle] at h
  cases h

/-- The successors of a well-formed graph are blocks of it. -/
theorem WellFormed.lt_size {a b : Nat} (hg : g.WellFormed) (h : b ∈ g.successors a) :
    b < g.size := by
  have ha : a < g.blocks.size := lt_size_of_mem_successors h
  rw [successors, Array.getElem?_eq_getElem ha] at h
  exact hg _ (Array.getElem_mem ha) b h

/-- Paths stay in the graph. -/
theorem Reachable.lt_size {b : Nat} (h : g.Reachable b) (hg : g.WellFormed) (h0 : 0 < g.size) :
    b < g.size := by
  obtain ⟨p, hp⟩ := h
  cases hp with
  | entry => exact h0
  | step _ hb => exact hg.lt_size hb

/-- **Positions**: those of a graph are the ones at which its blocks have an operation. -/
theorem mem_positions {pos : OpPos} {op : Op} :
    (pos, op) ∈ g.positions ↔ (g.operations pos.block)[pos.op]? = some op := by
  rw [positions, List.mem_flatMap]
  constructor
  · rintro ⟨b, -, hmem⟩
    obtain ⟨i, hi, heq⟩ := List.mem_mapIdx.1 hmem
    obtain ⟨rfl, rfl⟩ := Prod.mk.inj heq
    exact List.getElem?_eq_getElem hi
  · intro h
    obtain ⟨hi, rfl⟩ := List.getElem?_eq_some_iff.1 h
    refine ⟨pos.block, List.mem_range.2 (Nat.lt_of_not_le fun hle => ?_),
      List.mem_mapIdx.2 ⟨_, hi, rfl⟩⟩
    rw [operations, Array.getElem?_eq_none hle] at hi
    exact Nat.not_lt_zero _ hi

/-- Positions are listed once each. -/
theorem nodup_positions (g : FlowGraph Op) : (g.positions.map (·.1)).Nodup := by
  rw [positions, List.map_flatMap, List.nodup_flatMap]
  constructor
  · intro b _
    -- in one block, places are counted; over all blocks, the block tells them apart
    refine List.pairwise_iff_getElem.2 fun i j hi hj hij heq => ?_
    rw [List.getElem_map, List.getElem_map, List.getElem_mapIdx, List.getElem_mapIdx] at heq
    exact Nat.ne_of_lt hij (OpPos.mk.inj heq).2
  · refine List.nodup_range.imp fun {b c} hne pos hb hc => ?_
    have hblock : ∀ {b : Nat} {pos : OpPos},
        pos ∈ ((g.operations b).mapIdx fun i op => ((⟨b, i⟩ : OpPos), op)).map (·.1) →
          pos.block = b := by
      intro b pos hpos
      obtain ⟨x, hx, rfl⟩ := List.mem_map.1 hpos
      obtain ⟨i, -, rfl⟩ := List.mem_mapIdx.1 hx
      rfl
    exact hne ((hblock hb).symm.trans (hblock hc))

/-! ## Graphs made from blocks -/

/-- The blocks that have `b` as a successor. -/
theorem mem_sources {successors : List (List Nat)} {a b : Nat} :
    a ∈ sources successors b ↔ ∃ next, successors[a]? = some next ∧ b ∈ next := by
  simp only [sources, List.mem_flatten, List.mem_mapIdx]
  constructor
  · rintro ⟨_, ⟨i, hi, rfl⟩, ha⟩
    obtain ⟨b', hb', rfl⟩ := List.mem_map.1 ha
    obtain ⟨hmem, heq⟩ := List.mem_filter.1 hb'
    rw [decide_eq_true_eq] at heq
    exact ⟨_, List.getElem?_eq_getElem hi, heq ▸ hmem⟩
  · rintro ⟨next, hnext, hb⟩
    obtain ⟨hi, rfl⟩ := List.getElem?_eq_some_iff.1 hnext
    refine ⟨_, ⟨a, hi, rfl⟩, List.mem_map.2 ⟨b, List.mem_filter.2 ⟨hb, ?_⟩, rfl⟩⟩
    exact decide_eq_true rfl

/-- The predecessor lists are those that follow from the successor lists, in block order and once
per edge. -/
def Derived (g : FlowGraph Op) : Prop :=
  ∀ b < g.size, g.predecessors b = sources (g.blocks.toList.map (·.successors)) b

instance (g : FlowGraph Op) : Decidable g.Derived :=
  inferInstanceAs (Decidable
    (∀ b < g.size, g.predecessors b = sources (g.blocks.toList.map (·.successors)) b))

/-- Derived lists are mirrored. -/
theorem Derived.mirrored (h : g.Derived) : g.Mirrored := by
  intro a b hb
  rw [h b hb, mem_sources, successors, List.getElem?_map, Array.getElem?_toList]
  cases g.blocks[a]? with
  | none => simp
  | some block => simp

/-- **Derived predecessors**: a graph made from blocks has them. -/
theorem derived_ofBlocks (blocks : List (List Op × List Nat)) : (ofBlocks blocks).Derived := by
  intro b hb
  have hlen : b < blocks.length := by simpa [ofBlocks, size] using hb
  have hsuccessors : (ofBlocks blocks).blocks.toList.map (·.successors) = blocks.map (·.2) := by
    refine List.ext_getElem? fun i => ?_
    cases hblock : blocks[i]? <;> simp [ofBlocks, hblock]
  rw [hsuccessors]
  simp [predecessors, ofBlocks, hlen]

/-- A graph with derived predecessors is made from its operations and successors. -/
theorem Derived.eq_ofBlocks (h : g.Derived) :
    g = ofBlocks (g.blocks.toList.map fun b => (b.operations, b.successors)) := by
  obtain ⟨blocks⟩ := g
  have hlist : blocks.toList = (ofBlocks (blocks.toList.map fun b =>
      (b.operations, b.successors))).blocks.toList := by
    refine List.ext_getElem? fun i => ?_
    cases hblock : blocks[i]? with
    | none => simp [ofBlocks, hblock]
    | some block =>
      have hi : i < blocks.size := (Array.getElem?_eq_some_iff.1 hblock).1
      have hpredecessors := h i hi
      simp only [predecessors, hblock, Option.map_some, Option.getD_some] at hpredecessors
      simp [ofBlocks, hblock, ← hpredecessors, Function.comp_def]
  exact congrArg FlowGraph.mk (Array.ext' hlist)

/-- Deriving the predecessors gives mirrored lists. -/
theorem mirrored_ofBlocks (blocks : List (List Op × List Nat)) : (ofBlocks blocks).Mirrored :=
  (derived_ofBlocks blocks).mirrored

end FlowGraph

end Interlock
