import Interlock.Proofs.ComponentSearch

/-!
# Components and their numbers

- `Condensation.componentOf_le`: an edge never leads to a component with a larger number.
- `Condensation.mem_members_iff`: the members of a component are the nodes with its
  number.
- `Condensation.componentOf_eq_iff`: nodes have the same number if each leads to the
  other.
- `Condensation.isCyclic_iff`: a component is cyclic if a member leads back to itself.
- `Condensation.components_strong`: the components are the strongly connected ones.
- `Condensation.mem_successors`: the successors of a component.
-/

namespace Interlock

theorem one_lt_length_of_ne {α : Type} {l : List α} {u v : α} (hu : u ∈ l) (hv : v ∈ l)
    (hne : u ≠ v) : 1 < l.length := by
  by_contra hle
  match l, hu, hv with
  | [w], hu, hv =>
    exact hne ((List.mem_singleton.1 hu).trans (List.mem_singleton.1 hv).symm)
  | _ :: _ :: _, _, _ => simp at hle

/-! ## Places in stacked components -/

namespace Digraph

variable {g : Digraph} {found : List (List Nat)} {component : List Nat} {v : Nat}

theorem findIdx_lt_length_iff : found.findIdx (v ∈ ·) < found.length ↔ v ∈ found.flatten := by
  rw [List.findIdx_lt_length, List.mem_flatten]
  simp only [decide_eq_true_eq]

/-- One more component does not change the numbers of the nodes that were found before. -/
theorem findIdx_snoc_of_mem (hv : v ∈ found.flatten) :
    (found ++ [component]).findIdx (v ∈ ·) = found.findIdx (v ∈ ·) := by
  rw [List.findIdx_append, if_pos (findIdx_lt_length_iff.2 hv)]

/-- The nodes of the last component get the next number. -/
theorem findIdx_snoc_of_not_mem (hv : v ∉ found.flatten) (hmem : v ∈ component) :
    (found ++ [component]).findIdx (v ∈ ·) = found.length := by
  rw [List.findIdx_append, if_neg (mt findIdx_lt_length_iff.1 hv), List.findIdx_cons,
    decide_eq_true hmem]
  exact Nat.zero_add _

theorem mem_getD_snoc {i : Nat} : v ∈ (found ++ [component])[i]?.getD [] ↔
    v ∈ found[i]?.getD [] ∨ i = found.length ∧ v ∈ component := by
  rcases Nat.lt_trichotomy i found.length with hi | rfl | hi
  · rw [List.getElem?_append_left hi]
    simp [hi.ne]
  · simp
  · rw [List.getElem?_eq_none (by simp; omega), List.getElem?_eq_none hi.le]
    simp [hi.ne']

namespace Stacked

/-- Each component was the last one when it was found. -/
theorem exists_isTop (h : Stacked g found) (hmem : component ∈ found) :
    ∃ below, IsTop g below component := by
  induction h with
  | nil => cases hmem
  | @snoc found _ _ htop ih =>
    rcases List.mem_append.1 hmem with hmem | hmem
    · exact ih hmem
    · rw [List.mem_singleton.1 hmem]
      exact ⟨found.flatten, htop⟩

theorem pairwise_disjoint (h : Stacked g found) : found.Pairwise List.Disjoint := by
  induction h with
  | nil => exact .nil
  | @snoc found component _ htop ih =>
    refine List.pairwise_append.2 ⟨ih, List.pairwise_singleton _ _, ?_⟩
    intro earlier hearlier later hlater v hv hv'
    rw [List.mem_singleton.1 hlater] at hv'
    exact htop.disjoint v hv' (List.mem_flatten.2 ⟨earlier, hearlier, hv⟩)

/-- Edges lead to the same component or to one found before. -/
theorem findIdx_le (h : Stacked g found) {u : Nat} (he : (u, v) ∈ g.edges)
    (hu : u ∈ found.flatten) : found.findIdx (v ∈ ·) ≤ found.findIdx (u ∈ ·) := by
  induction h with
  | nil => cases hu
  | @snoc found component hfound htop ih =>
    -- either the edge is between components found before, or it leaves the last one, which keeps it
    -- or leads below
    by_cases hold : u ∈ found.flatten
    · rw [findIdx_snoc_of_mem hold, findIdx_snoc_of_mem (hfound.closed he hold)]
      exact ih hold
    · rw [flatten_snoc, List.mem_append] at hu
      have hmem := hu.resolve_left hold
      rw [findIdx_snoc_of_not_mem hold hmem]
      rcases htop.exits u hmem v he with hv | hv
      · rw [findIdx_snoc_of_not_mem (htop.disjoint v hv) hv]
      · rw [findIdx_snoc_of_mem hv]
        exact (findIdx_lt_length_iff.2 hv).le

/-- A component holds the nodes that are first found in it. -/
theorem mem_getD_iff (h : Stacked g found) {i : Nat} :
    v ∈ found[i]?.getD [] ↔ v ∈ found.flatten ∧ found.findIdx (v ∈ ·) = i := by
  induction h with
  | nil => simp
  | @snoc found component _ htop ih =>
    rw [mem_getD_snoc, ih, flatten_snoc, List.mem_append]
    by_cases hold : v ∈ found.flatten
    · have hnot : v ∉ component := fun hv => htop.disjoint v hv hold
      rw [findIdx_snoc_of_mem hold]
      simp [hold, hnot]
    · by_cases hv : v ∈ component
      · rw [findIdx_snoc_of_not_mem hold hv]
        simp [hold, hv, eq_comm]
      · simp [hold, hv]

end Stacked

/-- A ring of three nodes with two parallel edges, a node with a loop that the ring leads to, and
two nodes that lead there. -/
def ring : Digraph where
  size := 6
  edges := [(0, 1), (1, 2), (2, 0), (1, 2), (2, 3), (3, 3), (4, 0), (4, 3), (5, 3)]

end Digraph

namespace Condensation

variable {g : Digraph}

/-! ## Numbers -/

/-- **Numbers fall along edges**: an edge never leads to a component with a larger number. -/
theorem componentOf_le (hg : g.WellFormed) {u v : Nat} (he : (u, v) ∈ g.edges) :
    (of g).componentOf v ≤ (of g).componentOf u := by
  obtain ⟨hstacked, hall⟩ := Digraph.components_spec hg
  exact hstacked.findIdx_le he ((hall u).2 (hg _ he).1)

/-- Nor does a way of several edges. -/
theorem componentOf_le_of_reaches (hg : g.WellFormed) {u v : Nat} (h : g.Reaches u v) :
    (of g).componentOf v ≤ (of g).componentOf u := by
  induction h with
  | refl => exact le_rfl
  | tail _ he ih => exact (componentOf_le hg he).trans ih

/-- The members of a component are the nodes that have its number. -/
theorem mem_members_iff (hg : g.WellFormed) {i v : Nat} :
    v ∈ (of g).members i ↔ v < g.size ∧ (of g).componentOf v = i := by
  obtain ⟨hstacked, hall⟩ := Digraph.components_spec hg
  rw [← hall]
  exact hstacked.mem_getD_iff

theorem componentOf_lt (hg : g.WellFormed) {v : Nat} (hv : v < g.size) :
    (of g).componentOf v < (of g).size :=
  Digraph.findIdx_lt_length_iff.2 (((Digraph.components_spec hg).2 v).2 hv)

theorem lt_size_of_mem_members (hg : g.WellFormed) {i v : Nat} (hv : v ∈ (of g).members i) :
    i < (of g).size := by
  obtain ⟨hlt, rfl⟩ := (mem_members_iff hg).1 hv
  exact componentOf_lt hg hlt

theorem members_of_lt {i : Nat} (hi : i < (of g).size) :
    (of g).components[i]? = some ((of g).members i) := by
  rw [members, List.getElem?_eq_getElem hi, Option.getD_some]

theorem exists_isTop_members (hg : g.WellFormed) {i : Nat} (hi : i < (of g).size) :
    ∃ below, g.IsTop below ((of g).members i) :=
  (Digraph.components_spec hg).1.exists_isTop (List.mem_of_getElem? (members_of_lt hi))

/-! ## Strong connection -/

/-- Two nodes have the same number if each leads to the other. -/
theorem componentOf_eq_iff (hg : g.WellFormed) {u v : Nat} (hu : u < g.size) (hv : v < g.size) :
    (of g).componentOf u = (of g).componentOf v ↔ g.Reaches u v ∧ g.Reaches v u := by
  constructor
  · intro heq
    obtain ⟨below, htop⟩ := exists_isTop_members hg (componentOf_lt hg hu)
    have hmemu := (mem_members_iff hg).2 ⟨hu, rfl⟩
    have hmemv := (mem_members_iff hg).2 ⟨hv, heq.symm⟩
    exact ⟨htop.connected u hmemu v hmemv, htop.connected v hmemv u hmemu⟩
  · rintro ⟨huv, hvu⟩
    exact le_antisymm (componentOf_le_of_reaches hg hvu) (componentOf_le_of_reaches hg huv)

/-- A node that leads to `v`, and that `v` leads to, is in the component of `v`. -/
theorem mem_members_of_reaches (hg : g.WellFormed) {i u v : Nat} (hv : v ∈ (of g).members i)
    (hu : u < g.size) (huv : g.Reaches u v) (hvu : g.Reaches v u) : u ∈ (of g).members i := by
  obtain ⟨hvlt, rfl⟩ := (mem_members_iff hg).1 hv
  exact (mem_members_iff hg).2 ⟨hu, (componentOf_eq_iff hg hu hvlt).2 ⟨huv, hvu⟩⟩

/-- All members of a component lead to each other. -/
theorem reaches_of_mem_members (hg : g.WellFormed) {i u v : Nat} (hu : u ∈ (of g).members i)
    (hv : v ∈ (of g).members i) : g.Reaches u v := by
  obtain ⟨hult, rfl⟩ := (mem_members_iff hg).1 hu
  obtain ⟨hvlt, heq⟩ := (mem_members_iff hg).1 hv
  exact ((componentOf_eq_iff hg hult hvlt).1 heq.symm).1

/-- A member leads to another one by an edge that stays in the component. -/
theorem exists_edge_of_members (hg : g.WellFormed) {i u v : Nat} (hu : u ∈ (of g).members i)
    (hv : v ∈ (of g).members i) (hne : u ≠ v) : ∃ w ∈ (of g).members i, (u, w) ∈ g.edges := by
  rcases Relation.ReflTransGen.cases_head (reaches_of_mem_members hg hu hv) with
    heq | ⟨w, he, hwv⟩
  · exact absurd heq hne
  · refine ⟨w, mem_members_of_reaches hg hv (hg _ he).2 hwv ?_, he⟩
    exact (reaches_of_mem_members hg hv hu).trans (.edge he)

/-- Members are listed in ascending order, so two places hold different ones. -/
theorem exists_ne_of_one_lt_length (hg : g.WellFormed) {i : Nat}
    (hlong : 1 < ((of g).members i).length) :
    ∃ u ∈ (of g).members i, ∃ v ∈ (of g).members i, u ≠ v := by
  have hfirst := List.getElem_mem (Nat.zero_lt_of_lt hlong)
  obtain ⟨below, htop⟩ := exists_isTop_members hg (lt_size_of_mem_members hg hfirst)
  have hlt := List.pairwise_iff_getElem.1 htop.sorted 0 1 (Nat.zero_lt_of_lt hlong) hlong
    Nat.zero_lt_one
  exact ⟨_, List.getElem_mem _, _, List.getElem_mem _, hlt.ne⟩

/-- A component is cyclic if a member leads back to itself. -/
theorem isCyclic_iff (hg : g.WellFormed) {i : Nat} : (of g).isCyclic i = true ↔
    ∃ v ∈ (of g).members i, Relation.TransGen (fun u w => (u, w) ∈ g.edges) v v := by
  simp only [isCyclic, Bool.or_eq_true, decide_eq_true_eq, List.any_eq_true, Bool.and_eq_true]
  constructor
  · rintro (hlong | ⟨⟨u, w⟩, he, hu, heq⟩)
    · obtain ⟨u, hu, v, hv, hne⟩ := exists_ne_of_one_lt_length hg hlong
      refine ⟨u, hu, ?_⟩
      -- two members: go to the other one and back
      rcases Relation.reflTransGen_iff_eq_or_transGen.1 (reaches_of_mem_members hg hu hv) with
        heq | hloop
      · exact absurd heq.symm hne
      · exact hloop.trans_left (reaches_of_mem_members hg hv hu)
    · obtain rfl : u = w := heq
      exact ⟨u, hu, .single he⟩
  · rintro ⟨v, hv, hback⟩
    obtain ⟨w, he, hwv⟩ := Relation.TransGen.head'_iff.1 hback
    -- the first edge of the way back is a loop, or it leads to another member
    by_cases heq : w = v
    · exact .inr ⟨(v, w), he, hv, heq.symm⟩
    · have hw := mem_members_of_reaches hg hv (hg _ he).2 hwv (.edge he)
      exact .inl (one_lt_length_of_ne hw hv heq)

/-- Two nodes stand in one component if they have the same number. -/
theorem exists_component_iff (hg : g.WellFormed) {u v : Nat} (hu : u < g.size) (hv : v < g.size) :
    (∃ component ∈ (of g).components, u ∈ component ∧ v ∈ component) ↔
      (of g).componentOf u = (of g).componentOf v := by
  constructor
  · rintro ⟨component, hmem, huc, hvc⟩
    obtain ⟨i, hi⟩ := List.getElem?_of_mem hmem
    have hmembers : (of g).members i = component := by rw [members, hi, Option.getD_some]
    rw [← hmembers, mem_members_iff hg] at huc hvc
    exact huc.2.trans hvc.2.symm
  · intro heq
    refine ⟨_, List.mem_of_getElem? (members_of_lt (componentOf_lt hg hu)), ?_, ?_⟩
    · exact (mem_members_iff hg).2 ⟨hu, rfl⟩
    · exact (mem_members_iff hg).2 ⟨hv, heq.symm⟩

/-- **Strong components**: the components are non-empty, ascending, disjoint and hold all nodes; the
number of a node is the place of its component; nodes share a component if each leads to the other;
and a component is cyclic if one of its nodes leads back to itself. -/
theorem components_strong (hg : g.WellFormed) :
    (∀ component ∈ (of g).components, component ≠ [] ∧ component.Pairwise (· < ·)) ∧
    (of g).components.Pairwise List.Disjoint ∧
    (∀ v, (∃ component ∈ (of g).components, v ∈ component) ↔ v < g.size) ∧
    (∀ v < g.size, ∃ component,
      (of g).components[(of g).componentOf v]? = some component ∧ v ∈ component) ∧
    (∀ u < g.size, ∀ v < g.size,
      (∃ component ∈ (of g).components, u ∈ component ∧ v ∈ component) ↔
        g.Reaches u v ∧ g.Reaches v u) ∧
    ∀ i component, (of g).components[i]? = some component →
      ((of g).isCyclic i = true ↔
        ∃ v ∈ component, Relation.TransGen (fun u w => (u, w) ∈ g.edges) v v) := by
  obtain ⟨hstacked, hall⟩ := Digraph.components_spec hg
  refine ⟨?_, hstacked.pairwise_disjoint, ?_, ?_, ?_, ?_⟩
  · intro component hmem
    obtain ⟨below, htop⟩ := hstacked.exists_isTop hmem
    exact ⟨htop.nonempty, htop.sorted⟩
  · intro v
    exact List.mem_flatten.symm.trans (hall v)
  · intro v hv
    exact ⟨_, members_of_lt (componentOf_lt hg hv), (mem_members_iff hg).2 ⟨hv, rfl⟩⟩
  · intro u hu v hv
    exact (exists_component_iff hg hu hv).trans (componentOf_eq_iff hg hu hv)
  · intro i component hi
    have hmembers : (of g).members i = component := by rw [members, hi, Option.getD_some]
    rw [isCyclic_iff hg, hmembers]

theorem components_strong_ring :
    Digraph.ring.WellFormed ∧ (of .ring).components = [[3], [0, 1, 2], [4], [5]] ∧
    (Digraph.ring.Reaches 0 2 ∧ Digraph.ring.Reaches 2 0) ∧
    ¬ (Digraph.ring.Reaches 2 3 ∧ Digraph.ring.Reaches 3 2) ∧
    (∃ v ∈ [3], Relation.TransGen (fun u w => (u, w) ∈ Digraph.ring.edges) v v) ∧
    ¬ ∃ v ∈ [4], Relation.TransGen (fun u w => (u, w) ∈ Digraph.ring.edges) v v := by
  have hg : Digraph.ring.WellFormed := by decide
  have hcomponents : (of .ring).components = [[3], [0, 1, 2], [4], [5]] := by decide
  obtain ⟨-, -, -, -, hsame, hcyclic⟩ := components_strong hg
  rw [hcomponents] at hsame hcyclic
  refine ⟨hg, hcomponents, ?_, ?_, ?_, ?_⟩
  · exact (hsame 0 (by decide) 2 (by decide)).1 ⟨[0, 1, 2], by decide⟩
  · intro hboth
    have hnone : ¬ ∃ component ∈ [[3], [0, 1, 2], [4], [5]], 2 ∈ component ∧ 3 ∈ component := by
      decide
    exact hnone ((hsame 2 (by decide) 3 (by decide)).2 hboth)
  · exact (hcyclic 0 [3] rfl).1 (by decide)
  · intro hloop
    have hfalse : (of .ring).isCyclic 2 = false := by decide
    rw [(hcyclic 2 [4] rfl).2 hloop] at hfalse
    cases hfalse

/-! ## Successors -/

/-- The successors of a component are the other components that its edges enter. -/
theorem mem_successors (hg : g.WellFormed) {i j : Nat} : j ∈ (of g).successors i ↔
    j ≠ i ∧ ∃ e ∈ g.edges, (of g).componentOf e.1 = i ∧ (of g).componentOf e.2 = j := by
  -- all ends of edges are nodes, so being a member is a matter of the number
  have hentered : (∃ e ∈ g.edges, e.1 ∈ (of g).members i ∧ (of g).componentOf e.2 = j) ↔
      ∃ e ∈ g.edges, (of g).componentOf e.1 = i ∧ (of g).componentOf e.2 = j := by
    refine exists_congr fun e => and_congr_right fun he => and_congr_left fun _ => ?_
    rw [mem_members_iff hg, and_iff_right (hg e he).1]
  simp only [successors, List.mem_filter, List.mem_range, Bool.and_eq_true, decide_eq_true_eq,
    List.mem_filterMap, Option.ite_none_right_eq_some, Option.some_inj]
  rw [← hentered]
  constructor
  · exact And.right
  · rintro ⟨hne, e, he, hmem, rfl⟩
    exact ⟨componentOf_lt hg (hg e he).2, hne, e, he, hmem, rfl⟩

/-- The successors of a component have smaller numbers. -/
theorem lt_of_mem_successors (hg : g.WellFormed) {i j : Nat} (h : j ∈ (of g).successors i) :
    j < i := by
  obtain ⟨hne, e, he, rfl, rfl⟩ := (mem_successors hg).1 h
  exact Nat.lt_of_le_of_ne (componentOf_le hg he) hne

end Condensation

end Interlock
