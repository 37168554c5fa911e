import Interlock.Proofs.Guarded.Search
import Interlock.Proofs.Schedule
import Interlock.Sorted.Set

/-!
# Condensation in tables, with every look-up guarded

The condensation of a graph as arrays: for each node the number of its component, for each
component its successors and whether it is cyclic, and the levels. An edge can be added
only between nodes that exist, and a write to an array fails if the cell does not exist.

- `CondensationTables.of?`: the tables of a graph, given as a number of nodes and a list of edges.
- `CondensationTables.Describes`: the tables say the same as a `Condensation`.
- `CondensationTables.exists_of?`: no look-up fails if the edges join nodes of the graph.
-/

namespace Interlock

/-- Add an edge between nodes that exist. -/
def Digraph.addEdge? (g : Digraph) (e : Nat × Nat) : Option Digraph :=
  if e.1 < g.size ∧ e.2 < g.size then some { g with edges := g.edges ++ [e] } else none

theorem Digraph.foldlM_addEdge? {edges : List (Nat × Nat)} {g : Digraph}
    (h : ∀ e ∈ edges, e.1 < g.size ∧ e.2 < g.size) :
    edges.foldlM addEdge? g = some { g with edges := g.edges ++ edges } := by
  induction edges generalizing g with
  | nil => rw [List.append_nil]; rfl
  | cons e edges ih =>
    rw [List.foldlM_cons, addEdge?, if_pos (h e List.mem_cons_self),
      List.append_cons g.edges e edges]
    exact ih (g := { g with edges := g.edges ++ [e] })
      fun e' he' => h e' (List.mem_cons_of_mem _ he')

/-- A condensation in tables. -/
structure CondensationTables where
  /-- The components, each in ascending order. -/
  components : Array (List Nat)
  /-- For each node the number of its component. -/
  componentOf : Array Nat
  /-- For each component those that it leads to. -/
  successors : Array (List Nat)
  /-- For each component whether it is cyclic. -/
  cyclic : Array Bool
  /-- The components of each height. -/
  levels : Array (List Nat)

/-! ## Edges between components -/

/-- What the edges added so far say about components. -/
structure EdgeTables where
  /-- For each component the others that an edge from it enters. -/
  targets : Array (List Nat)
  /-- For each component whether it has several members or an edge inside. -/
  cyclic : Array Bool

namespace EdgeTables

/-- The tables of some components before any edge was added. -/
def start (components : List (List Nat)) : EdgeTables where
  targets := .replicate components.length []
  cyclic := (components.map fun members => decide (1 < members.length)).toArray

/-- Take in an edge, given the components of nodes. -/
def add? (componentOf : Array Nat) (t : EdgeTables) (e : Nat × Nat) : Option EdgeTables := do
  let source ← componentOf[e.1]?
  let target ← componentOf[e.2]?
  if source = target then
    let cyclic ← store? t.cyclic source true
    return { t with cyclic }
  else
    let known ← t.targets[source]?
    let targets ← store? t.targets source (known ++ [target])
    return { t with targets }

/-- `t.Collects component t₀ edges`: the tables hold what the given edges add to those of `t₀`,
where nodes have the given components. -/
structure Collects (t : EdgeTables) (component : Nat → Nat) (t₀ : EdgeTables)
    (edges : List (Nat × Nat)) : Prop where
  size_targets : t.targets.size = t₀.targets.size
  size_cyclic : t.cyclic.size = t₀.cyclic.size
  mem_targets : ∀ i j : Nat, j ∈ t.targets[i]?.getD [] ↔ j ∈ t₀.targets[i]?.getD [] ∨
    j ≠ i ∧ ∃ e ∈ edges, component e.1 = i ∧ component e.2 = j
  cyclic_iff : ∀ i : Nat, t.cyclic[i]? = some true ↔ t₀.cyclic[i]? = some true ∨
    ∃ e ∈ edges, component e.1 = i ∧ component e.2 = i

variable {componentOf : Array Nat} {component : Nat → Nat} {t t₀ : EdgeTables}
  {edges : List (Nat × Nat)}

theorem Collects.refl (t : EdgeTables) (component : Nat → Nat) : t.Collects component t [] where
  size_targets := rfl
  size_cyclic := rfl
  mem_targets := by simp
  cyclic_iff := by simp

/-- An edge between nodes that have components can be taken in. -/
theorem Collects.add? (h : t.Collects component t₀ edges) {e : Nat × Nat}
    (hsource : componentOf[e.1]? = some (component e.1))
    (htarget : componentOf[e.2]? = some (component e.2))
    (htargets : component e.1 < t₀.targets.size) (hcyclic : component e.1 < t₀.cyclic.size) :
    ∃ t', t.add? componentOf e = some t' ∧ t'.Collects component t₀ (edges ++ [e]) := by
  rw [← h.size_targets] at htargets
  rw [← h.size_cyclic] at hcyclic
  have hknown := Array.getElem?_eq_getElem htargets
  simp only [EdgeTables.add?, hsource, htarget, hknown, store?_of_lt htargets, store?_of_lt hcyclic,
    Option.bind_eq_bind, Option.bind_some]
  by_cases hsame : component e.1 = component e.2
  · -- an edge inside of a component
    rw [if_pos hsame]
    refine ⟨_, rfl, h.size_targets, ?_, fun i j => ?_, fun i => ?_⟩
    · rw [Array.size_setIfInBounds, h.size_cyclic]
    · rw [h.mem_targets]
      simp only [List.mem_append, List.mem_singleton, or_and_right, exists_or, exists_eq_left]
      refine or_congr_right (and_congr_right fun hne => (or_iff_left ?_).symm)
      rintro ⟨rfl, rfl⟩
      exact hne hsame.symm
    · simp only [List.mem_append, List.mem_singleton, or_and_right, exists_or, exists_eq_left]
      rw [Array.getElem?_setIfInBounds, ← or_assoc, ← h.cyclic_iff, ← hsame, and_self]
      split
      · next heq => simp [heq, heq ▸ hcyclic]
      · next hne => simp [hne]
  · -- an edge to another component
    rw [if_neg hsame]
    refine ⟨_, rfl, ?_, h.size_cyclic, fun i j => ?_, fun i => ?_⟩
    · rw [Array.size_setIfInBounds, h.size_targets]
    · simp only [List.mem_append, List.mem_singleton, or_and_right, exists_or, exists_eq_left]
      rw [Array.getElem?_setIfInBounds, and_or_left, ← or_assoc, ← h.mem_targets]
      split
      · next heq =>
        subst heq
        rw [hknown, Option.getD_some, Option.getD_some, List.mem_append,
          List.mem_singleton]
        refine or_congr_right ?_
        constructor
        · rintro rfl
          exact ⟨Ne.symm hsame, rfl, rfl⟩
        · exact fun hj => hj.2.2.symm
      · next hne => simp [hne]
    · rw [h.cyclic_iff]
      simp only [List.mem_append, List.mem_singleton, or_and_right, exists_or, exists_eq_left]
      refine or_congr_right (or_iff_left ?_).symm
      rintro ⟨rfl, heq⟩
      exact hsame heq.symm

/-- So can a whole list of them. -/
theorem Collects.addAll? (h : t.Collects component t₀ edges) (more : List (Nat × Nat))
    (hmore : ∀ e ∈ more, componentOf[e.1]? = some (component e.1) ∧
      componentOf[e.2]? = some (component e.2) ∧ component e.1 < t₀.targets.size ∧
      component e.1 < t₀.cyclic.size) :
    ∃ t', more.foldlM (EdgeTables.add? componentOf) t = some t' ∧
      t'.Collects component t₀ (edges ++ more) := by
  induction more generalizing t edges with
  | nil => exact ⟨t, rfl, by rwa [List.append_nil]⟩
  | cons e more ih =>
    obtain ⟨hsource, htarget, htargets, hcyclic⟩ := hmore e List.mem_cons_self
    obtain ⟨t₁, hadd, ht₁⟩ := h.add? hsource htarget htargets hcyclic
    obtain ⟨t₂, hfold, ht₂⟩ := ih ht₁ fun e' he' => hmore e' (List.mem_cons_of_mem _ he')
    refine ⟨t₂, ?_, ?_⟩
    · rw [List.foldlM_cons, hadd]
      exact hfold
    · rwa [List.append_cons]

end EdgeTables

/-! ## Levels -/

/-- The heights of the components looked at so far, and those components by height. -/
structure LevelTables where
  heights : Array Nat
  levels : Array (List Nat) := #[]

namespace LevelTables

/-- Note the height of component `i`, given the successors of components. -/
def add? (successors : Array (List Nat)) (t : LevelTables) (i : Nat) : Option LevelTables := do
  let targets ← successors[i]?
  let known ← targets.mapM (t.heights[·]?)
  let height := (known.map (· + 1)).foldl max 0
  let heights ← store? t.heights i height
  -- there may be no level of this height yet
  let grown := t.levels ++ Array.replicate (height + 1 - t.levels.size) []
  let level ← grown[height]?
  let levels ← store? grown height (level ++ [i])
  return ⟨heights, levels⟩

end LevelTables

namespace Condensation

/-- Those of the first `n` components that have height `l`. -/
def levelBelow (c : Condensation) (n l : Nat) : List Nat :=
  (List.range n).filter fun i => (c.heightsBelow n)[i]? = some l

/-- The number of levels of the first `n` components. -/
def levelCount (c : Condensation) (n : Nat) : Nat := ((c.heightsBelow n).map (· + 1)).foldl max 0

/-- One more component adds a level if it is higher than those before. -/
theorem levelCount_succ (c : Condensation) (n : Nat) :
    c.levelCount (n + 1) = max (c.levelCount n) (c.heightAbove (c.heightsBelow n) n + 1) := by
  rw [levelCount, heightsBelow_succ, List.map_append, List.foldl_append]
  rfl

/-- There is nothing above the top level. -/
theorem levelBelow_of_le {c : Condensation} {n l : Nat} (h : c.levelCount n ≤ l) :
    c.levelBelow n l = [] := by
  refine List.filter_eq_nil_iff.2 fun i _ => ?_
  rw [decide_eq_true_eq]
  intro hi
  have hlt : l + 1 ≤ c.levelCount n :=
    le_foldl_max (List.mem_map.2 ⟨l, List.mem_of_getElem? hi, rfl⟩)
  omega

/-- The next component goes to the end of the level of its height. -/
theorem levelBelow_succ (c : Condensation) (n l : Nat) :
    c.levelBelow (n + 1) l
      = c.levelBelow n l ++ if c.heightAbove (c.heightsBelow n) n = l then [n] else [] := by
  have hlow : ∀ i ∈ List.range n, (c.heightsBelow (n + 1))[i]? = (c.heightsBelow n)[i]? := by
    intro i hi
    have hlt := List.mem_range.1 hi
    rw [heightsBelow_succ, List.getElem?_append_left (by rwa [length_heightsBelow])]
  have hlast : (c.heightsBelow (n + 1))[n]? = some (c.heightAbove (c.heightsBelow n) n) :=
    heightsBelow_getElem? n.lt_succ_self
  rw [levelBelow, List.range_succ, List.filter_append, levelBelow]
  congr 1
  · exact List.filter_congr fun i hi => by rw [hlow i hi]
  · simp [List.filter_singleton, hlast, cond_eq_ite]

end Condensation

namespace LevelTables

/-- `t.Holds c n`: the tables hold the heights of the first `n` components and these components by
height. -/
structure Holds (t : LevelTables) (c : Condensation) (n : Nat) : Prop where
  size_heights : t.heights.size = c.size
  heights_eq : ∀ i < n, t.heights[i]? = (c.heightsBelow n)[i]?
  size_levels : t.levels.size = c.levelCount n
  levels_eq : ∀ l < c.levelCount n, t.levels[l]? = some (c.levelBelow n l)

variable {c : Condensation} {t : LevelTables} {n : Nat}

/-- The levels, with empty ones added on top. -/
theorem Holds.getElem?_grown (h : t.Holds c n) (top : Nat) {l : Nat}
    (hl : l < max (c.levelCount n) (top + 1)) :
    (t.levels ++ Array.replicate (top + 1 - t.levels.size) [])[l]? = some (c.levelBelow n l) := by
  have hsize := h.size_levels
  by_cases hlt : l < c.levelCount n
  · rw [Array.getElem?_append_left (by omega), h.levels_eq l hlt]
  · rw [Array.getElem?_append_right (by omega), Array.getElem?_replicate, if_pos (by omega),
      Condensation.levelBelow_of_le (by omega)]

/-- The height of the next component can be noted, if its successors are among those before it. -/
theorem Holds.add? (h : t.Holds c n) (hn : n < c.size) (hlow : ∀ j ∈ c.successors n, j < n)
    {successors : Array (List Nat)} (hsuccessors : successors[n]? = some (c.successors n)) :
    ∃ t', t.add? successors n = some t' ∧ t'.Holds c (n + 1) := by
  have hknown : (c.successors n).mapM (t.heights[·]?)
      = some ((c.successors n).map fun j => (c.heightsBelow n)[j]?.getD 0) := by
    refine mapM_eq_some fun j hj => ?_
    have hlt := hlow j hj
    rw [h.heights_eq j hlt, Condensation.heightsBelow_getElem? hlt, Option.getD_some]
  have hheight :
      (((c.successors n).map fun j => (c.heightsBelow n)[j]?.getD 0).map (· + 1)).foldl max 0
      = c.heightAbove (c.heightsBelow n) n := by
    rw [List.map_map]
    rfl
  -- the level of this height is there after growing, and is what it was, or empty
  have htop := h.getElem?_grown (c.heightAbove (c.heightsBelow n) n)
    (l := c.heightAbove (c.heightsBelow n) n) (by omega)
  have hsize : (t.levels ++ Array.replicate (c.heightAbove (c.heightsBelow n) n + 1 - t.levels.size)
      []).size = c.levelCount (n + 1) := by
    rw [Array.size_append, Array.size_replicate, h.size_levels, Condensation.levelCount_succ]
    omega
  have hlt : c.heightAbove (c.heightsBelow n) n < c.levelCount (n + 1) := by
    rw [Condensation.levelCount_succ]
    omega
  rw [← hsize] at hlt
  rw [← h.size_heights] at hn
  simp only [LevelTables.add?, hsuccessors, hknown, hheight, store?_of_lt hn, htop,
    store?_of_lt hlt, Option.bind_eq_bind, Option.bind_some]
  -- in turn: the size of the heights, each of them, the number of levels, each of them
  refine ⟨_, rfl, ?_, fun i hi => ?_, ?_, fun l hl => ?_⟩
  · rw [Array.size_setIfInBounds, h.size_heights]
  · rw [Array.getElem?_setIfInBounds]
    split
    · next heq =>
      subst heq
      rw [Condensation.heightsBelow_getElem? hi]
    · next hne =>
      have hi' : i < n := by omega
      rw [h.heights_eq i hi', Condensation.heightsBelow_getElem? hi',
        Condensation.heightsBelow_getElem? hi]
  · rw [Array.size_setIfInBounds, hsize]
  · rw [Condensation.levelCount_succ] at hl
    rw [Array.getElem?_setIfInBounds, h.getElem?_grown _ hl, Condensation.levelBelow_succ]
    split
    · next heq => rw [heq]
    · rw [List.append_nil]

/-- The heights of all components can be noted in turn. -/
theorem Holds.addAll? (h : t.Holds c 0) (hlow : ∀ i, ∀ j ∈ c.successors i, j < i)
    {successors : Array (List Nat)}
    (hsuccessors : ∀ i < c.size, successors[i]? = some (c.successors i)) (hn : n ≤ c.size) :
    ∃ t', (List.range n).foldlM (LevelTables.add? successors) t = some t' ∧ t'.Holds c n := by
  induction n with
  | zero => exact ⟨t, rfl, h⟩
  | succ n ih =>
    obtain ⟨t₁, hfold, ht₁⟩ := ih (by omega)
    obtain ⟨t₂, hadd, ht₂⟩ := ht₁.add? hn (hlow n) (hsuccessors n hn)
    refine ⟨t₂, ?_, ht₂⟩
    rw [List.range_succ, List.foldlM_append, hfold]
    show (LevelTables.add? successors t₁ n).bind some = some t₂
    rw [hadd, Option.bind_some]

theorem holds_start (c : Condensation) : LevelTables.Holds ⟨.replicate c.size 0, #[]⟩ c 0 where
  size_heights := Array.size_replicate
  heights_eq _ hi := by omega
  size_levels := rfl
  levels_eq _ hl := absurd hl (Nat.not_lt_zero _)

end LevelTables

/-! ## The tables -/

namespace CondensationTables

/-- For each node the number of its component, given the components of a graph. -/
def places? (size : Nat) (components : List (List Nat)) : Option (Array Nat) :=
  (components.zipIdx.flatMap fun e => e.1.map fun node => (node, e.2)).foldlM
    (fun places e => store? places e.1 e.2) (.replicate size 0)

/-- The tables of a graph. -/
def of? (size : Nat) (edges : List (Nat × Nat)) : Option CondensationTables := do
  let g ← edges.foldlM Digraph.addEdge? ⟨size, []⟩
  let componentOf ← places? size g.components
  let between ← edges.foldlM (EdgeTables.add? componentOf) (.start g.components)
  let successors := between.targets.map fun targets => (SortedSet.ofList targets).toList
  let byHeight ← (List.range g.components.length).foldlM (LevelTables.add? successors)
    ⟨.replicate g.components.length 0, #[]⟩
  return ⟨g.components.toArray, componentOf, successors, between.cyclic, byHeight.levels⟩

/-- `t.Describes c`: the tables say the same as a condensation. -/
structure Describes (t : CondensationTables) (c : Condensation) : Prop where
  components_eq : t.components.toList = c.components
  componentOf_eq : ∀ v < c.graph.size, t.componentOf[v]? = some (c.componentOf v)
  successors_eq : t.successors.toList = (List.range c.size).map c.successors
  cyclic_eq : ∀ i < c.size, t.cyclic[i]? = some (c.isCyclic i)
  levels_eq : t.levels.toList = c.levels

variable {g : Digraph}

/-- The nodes of each component, as entries of the table of places. -/
theorem mem_places_iff (hg : g.WellFormed) {v i : Nat} :
    (v, i) ∈ (g.components.zipIdx.flatMap fun e => e.1.map fun node => (node, e.2)) ↔
      v < g.size ∧ (Condensation.of g).componentOf v = i := by
  rw [← Condensation.mem_members_iff hg, Condensation.members, List.mem_flatMap]
  constructor
  · rintro ⟨⟨members, k⟩, he, hmem⟩
    obtain ⟨u, hu, heq⟩ := List.mem_map.1 hmem
    obtain ⟨rfl, rfl⟩ := Prod.mk.inj heq
    rwa [show (Condensation.of g).components[k]? = some members from
      List.mem_zipIdx_iff_getElem?.1 he]
  · intro hv
    cases hi : (Condensation.of g).components[i]? with
    | none => simp [hi] at hv
    | some members =>
      rw [hi, Option.getD_some] at hv
      exact ⟨(members, i), List.mem_zipIdx_iff_getElem?.2 hi, List.mem_map.2 ⟨v, hv, rfl⟩⟩

/-- The component of every node is noted. -/
theorem exists_places? (hg : g.WellFormed) : ∃ places, places? g.size g.components = some places ∧
    ∀ v < g.size, places[v]? = some ((Condensation.of g).componentOf v) := by
  obtain ⟨places, hfold, -, -, hset⟩ := exists_foldlM_store?
    (g.components.zipIdx.flatMap fun e => e.1.map fun node => (node, e.2))
    (.replicate g.size 0) fun e he => by
      rw [Array.size_replicate]
      exact ((mem_places_iff hg).1 he).1
  refine ⟨places, hfold, fun v hv => ?_⟩
  refine hset (v, (Condensation.of g).componentOf v) ((mem_places_iff hg).2 ⟨hv, rfl⟩) ?_
  intro e he heq
  rw [← ((mem_places_iff hg).1 he).2, heq]

/-- The targets of a component, in order and without repetition, are its successors. -/
theorem toList_targets (hg : g.WellFormed) {i : Nat} {targets : List Nat}
    (h : ∀ j, j ∈ targets ↔ j ≠ i ∧ ∃ e ∈ g.edges,
      (Condensation.of g).componentOf e.1 = i ∧ (Condensation.of g).componentOf e.2 = j) :
    (SortedSet.ofList targets).toList = (Condensation.of g).successors i := by
  have hincreasing : ((Condensation.of g).successors i).Pairwise (fun a b => compare a b = .lt) :=
    (List.pairwise_lt_range.imp fun hlt => Nat.compare_eq_lt.2 hlt).filter _
  refine SortedSet.increasing_ext (SortedSet.increasing _) hincreasing fun j => ?_
  rw [Condensation.mem_successors hg, ← h]
  exact SortedSet.mem_ofList

/-- An edge that stays in a component makes it cyclic. -/
theorem isCyclic_eq_true_iff (hg : g.WellFormed) {i : Nat} :
    (Condensation.of g).isCyclic i = true ↔ 1 < ((Condensation.of g).members i).length ∨
      ∃ e ∈ g.edges,
        (Condensation.of g).componentOf e.1 = i ∧ (Condensation.of g).componentOf e.2 = i := by
  simp only [Condensation.isCyclic, Bool.or_eq_true, decide_eq_true_eq, List.any_eq_true,
    Bool.and_eq_true]
  constructor
  · rintro (hlong | ⟨e, he, hmem, heq⟩)
    · exact .inl hlong
    · have hsource := ((Condensation.mem_members_iff hg).1 hmem).2
      exact .inr ⟨e, he, hsource, heq ▸ hsource⟩
  · rintro (hlong | ⟨e, he, hsource, htarget⟩)
    · exact .inl hlong
    · have hfrom := (Condensation.mem_members_iff hg).2 ⟨(hg e he).1, hsource⟩
      have hto := (Condensation.mem_members_iff hg).2 ⟨(hg e he).2, htarget⟩
      by_cases heq : e.1 = e.2
      · exact .inr ⟨e, he, hfrom, heq⟩
      · exact .inl (one_lt_length_of_ne hfrom hto heq)

/-- The cells of an array in order, given cell by cell. -/
theorem toList_eq_map_range {α : Type} {cells : Array α} {n : Nat} {f : Nat → α}
    (hsize : cells.size = n) (h : ∀ i < n, cells[i]? = some (f i)) :
    cells.toList = (List.range n).map f := by
  refine List.ext_getElem? fun i => ?_
  rw [Array.getElem?_toList]
  by_cases hi : i < n
  · rw [h i hi, List.getElem?_map, List.getElem?_range hi, Option.map_some]
  · rw [Array.getElem?_eq_none (by omega), List.getElem?_eq_none (by simp; omega)]

/-- No look-up fails when the edges are taken in. -/
theorem exists_between (hg : g.WellFormed) {places : Array Nat}
    (hplace : ∀ v < g.size, places[v]? = some ((Condensation.of g).componentOf v)) :
    ∃ between, g.edges.foldlM (EdgeTables.add? places) (.start g.components) = some between ∧
      between.targets.size = (Condensation.of g).size ∧ ∀ i < (Condensation.of g).size,
        (between.targets.map fun targets => (SortedSet.ofList targets).toList)[i]?
          = some ((Condensation.of g).successors i) ∧
        between.cyclic[i]? = some ((Condensation.of g).isCyclic i) := by
  have htargets : (EdgeTables.start g.components).targets.size = (Condensation.of g).size :=
    Array.size_replicate
  have hcyclic : (EdgeTables.start g.components).cyclic.size = (Condensation.of g).size := by
    rw [EdgeTables.start, List.size_toArray, List.length_map]
    rfl
  obtain ⟨between, hbetween, hcollects⟩ := (EdgeTables.Collects.refl (.start g.components)
    (Condensation.of g).componentOf).addAll? g.edges fun e he => by
      have hlt := Condensation.componentOf_lt hg (hg e he).1
      exact ⟨hplace _ (hg e he).1, hplace _ (hg e he).2, htargets ▸ hlt, hcyclic ▸ hlt⟩
  rw [List.nil_append] at hcollects
  have htargets' := hcollects.size_targets.trans htargets
  refine ⟨between, hbetween, htargets', fun i hi => ⟨?_, ?_⟩⟩
  · have hrow := Array.getElem?_eq_getElem (htargets' ▸ hi)
    -- the tables start with no targets, so that all targets come from edges
    have hnone : (EdgeTables.start g.components).targets[i]? = some [] := by
      rw [EdgeTables.start, Array.getElem?_replicate]
      exact if_pos hi
    rw [Array.getElem?_map, hrow, Option.map_some, toList_targets hg fun j => ?_]
    have hmem := hcollects.mem_targets i j
    rw [hrow, hnone, Option.getD_some, Option.getD_some] at hmem
    rw [hmem, or_iff_right List.not_mem_nil]
  · have hcell := Array.getElem?_eq_getElem (hcollects.size_cyclic.trans hcyclic ▸ hi)
    -- those of several members count as cyclic from the start; the loops come from edges
    have hlong : (EdgeTables.start g.components).cyclic[i]?
        = some (decide (1 < ((Condensation.of g).members i).length)) := by
      rw [EdgeTables.start, List.getElem?_toArray, List.getElem?_map]
      exact congrArg _ (Condensation.members_of_lt hi)
    have hiff := hcollects.cyclic_iff i
    rw [hcell, hlong, Option.some_inj, Option.some_inj, decide_eq_true_eq,
      ← isCyclic_eq_true_iff hg] at hiff
    rw [hcell, Bool.eq_iff_iff.2 hiff]

/-- **Components**: if the edges join nodes of the graph, then no look-up fails, and the tables say
the same as the condensation. -/
theorem exists_of? (hg : g.WellFormed) :
    ∃ t, of? g.size g.edges = some t ∧ t.Describes (.of g) := by
  have hgraph : g.edges.foldlM Digraph.addEdge? ⟨g.size, []⟩ = some g := Digraph.foldlM_addEdge? hg
  obtain ⟨places, hplaces, hplace⟩ := exists_places? hg
  obtain ⟨between, hbetween, htargets, hcells⟩ := exists_between hg hplace
  obtain ⟨byHeight, hlevels, hholds⟩ := (LevelTables.holds_start (.of g)).addAll?
    (fun i j => Condensation.lt_of_mem_successors hg) (fun i hi => (hcells i hi).1) le_rfl
  refine ⟨⟨g.components.toArray, places,
    between.targets.map fun targets => (SortedSet.ofList targets).toList, between.cyclic,
    byHeight.levels⟩, ?_, rfl, hplace, ?_, fun i hi => (hcells i hi).2, ?_⟩
  · simp only [of?, hgraph, hplaces, hbetween, Option.bind_eq_bind, Option.bind_some]
    rw [show g.components.length = (Condensation.of g).size from rfl, hlevels]
    rfl
  · exact toList_eq_map_range (by rw [Array.size_map, htargets]) fun i hi => (hcells i hi).1
  · exact toList_eq_map_range hholds.size_levels hholds.levels_eq

end CondensationTables

end Interlock
