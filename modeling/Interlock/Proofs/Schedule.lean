import Interlock.Proofs.Condensation

/-!
# The levels of a condensation

A component's level is its height: the length of the longest chain of components, each
entered by an edge of the one before, that starts there.

- `Condensation.Leads`, `Condensation.Descends`: edges and paths between components.
- `Condensation.heights_getElem?`: heights by recursion on successors.
- `Condensation.descends_of_height`, `Condensation.le_height`: the height is the length of
  the longest path.
- `Condensation.mem_level_iff`: the components of a level.
- `Condensation.levels_schedule`: the levels are a schedule from the bottom up.
-/

namespace Interlock

namespace Condensation

/-- An edge leads from component `i` to the other component `j`. -/
def Leads (c : Condensation) (i j : Nat) : Prop :=
  j ≠ i ∧ ∃ e ∈ c.graph.edges, c.componentOf e.1 = i ∧ c.componentOf e.2 = j

/-- `c.Descends n i`: a path of `n` edges between components starts at component `i`. -/
inductive Descends (c : Condensation) : Nat → Nat → Prop
  | stop (i : Nat) : Descends c 0 i
  | step {n i j : Nat} : c.Leads i j → Descends c n j → Descends c (n + 1) i

/-! ## Heights -/

section Heights

variable {c : Condensation}

theorem le_foldl_max {l : List Nat} {n : Nat} (hn : n ∈ l) : n ≤ l.foldl max 0 := by
  rw [List.foldl_max_eq_max (List.ne_nil_of_mem hn), Nat.zero_max]
  exact List.le_max_of_mem hn

theorem foldl_max_mem {l : List Nat} (h : l.foldl max 0 ≠ 0) : l.foldl max 0 ∈ l := by
  have hne : l ≠ [] := by
    rintro rfl
    exact h rfl
  rw [List.foldl_max_eq_max hne, Nat.zero_max]
  exact List.max_mem hne

/-- Heights are found in the order of numbers. -/
theorem heightsBelow_succ (c : Condensation) (n : Nat) :
    c.heightsBelow (n + 1) = c.heightsBelow n ++ [c.heightAbove (c.heightsBelow n) n] := by
  rw [heightsBelow, List.range_succ, List.foldl_append]
  rfl

theorem length_heightsBelow (c : Condensation) (n : Nat) : (c.heightsBelow n).length = n := by
  induction n with
  | zero => rfl
  | succ n ih => rw [heightsBelow_succ, List.length_append, ih, List.length_singleton]

theorem length_heights (c : Condensation) : c.heights.length = c.size :=
  length_heightsBelow c c.size

/-- Later components do not change the height of a component. -/
theorem heightsBelow_getElem? {i n : Nat} (hi : i < n) :
    (c.heightsBelow n)[i]? = some (c.heightAbove (c.heightsBelow i) i) := by
  induction n, hi using Nat.le_induction with
  | base =>
    have hconcat := List.getElem?_concat_length (l := c.heightsBelow i)
      (a := c.heightAbove (c.heightsBelow i) i)
    rw [length_heightsBelow] at hconcat
    rw [heightsBelow_succ, hconcat]
  | succ n hle ih =>
    rw [heightsBelow_succ, List.getElem?_append_left (by rw [length_heightsBelow]; omega), ih]

/-- A height depends on the heights of successors only. -/
theorem heightAbove_congr {known known' : List Nat} {i : Nat}
    (h : ∀ j ∈ c.successors i, known[j]? = known'[j]?) :
    c.heightAbove known i = c.heightAbove known' i := by
  unfold heightAbove
  rw [List.map_congr_left fun j hj => by rw [h j hj]]

/-- A component is higher than each of its successors. -/
theorem le_heightAbove {known : List Nat} {i j h : Nat} (hj : j ∈ c.successors i)
    (hknown : known[j]? = some h) : h + 1 ≤ c.heightAbove known i :=
  le_foldl_max (List.mem_map.2 ⟨j, hj, by rw [hknown, Option.getD_some]⟩)

/-- Some successor is one step lower. -/
theorem exists_of_heightAbove_eq_succ {known : List Nat} {i h : Nat}
    (heq : c.heightAbove known i = h + 1) : ∃ j ∈ c.successors i, known[j]?.getD 0 = h := by
  have hmem := foldl_max_mem (heq.trans_ne (Nat.succ_ne_zero h))
  rw [← heightAbove, heq] at hmem
  obtain ⟨j, hj, hheight⟩ := List.mem_map.1 hmem
  exact ⟨j, hj, Nat.succ.inj hheight⟩

theorem lt_size_of_height {i h : Nat} (hh : c.heights[i]? = some h) : i < c.size := by
  rw [← length_heights]
  exact (List.getElem?_eq_some_iff.1 hh).1

theorem exists_height {i : Nat} (hi : i < c.size) : ∃ h, c.heights[i]? = some h := by
  rw [← length_heights] at hi
  exact ⟨_, List.getElem?_eq_getElem hi⟩

end Heights

variable {g : Digraph}

/-- The height of a component is one more than the largest height of its successors. -/
theorem heights_getElem? (hg : g.WellFormed) {i : Nat} (hi : i < (of g).size) :
    (of g).heights[i]? = some ((of g).heightAbove (of g).heights i) := by
  rw [heights, heightsBelow_getElem? hi, Option.some_inj]
  refine heightAbove_congr fun j hj => ?_
  have hlt := lt_of_mem_successors hg hj
  rw [heightsBelow_getElem? hlt, heightsBelow_getElem? (hlt.trans hi)]

/-- A successor has a smaller height. -/
theorem height_lt_of_successor (hg : g.WellFormed) {i j h : Nat} (hj : j ∈ (of g).successors i)
    (hh : (of g).heights[i]? = some h) : ∃ h' < h, (of g).heights[j]? = some h' := by
  have hi := lt_size_of_height hh
  obtain ⟨h', hh'⟩ := exists_height ((lt_of_mem_successors hg hj).trans hi)
  rw [heights_getElem? hg hi, Option.some_inj] at hh
  have hle := le_heightAbove hj hh'
  exact ⟨h', by omega, hh'⟩

/-- A component that is not at the bottom has a successor one step lower. -/
theorem exists_successor_of_height (hg : g.WellFormed) {i h : Nat}
    (hh : (of g).heights[i]? = some (h + 1)) :
    ∃ j ∈ (of g).successors i, (of g).heights[j]? = some h := by
  have hi := lt_size_of_height hh
  rw [heights_getElem? hg hi, Option.some_inj] at hh
  obtain ⟨j, hj, hheight⟩ := exists_of_heightAbove_eq_succ hh
  obtain ⟨h', hh'⟩ := exists_height ((lt_of_mem_successors hg hj).trans hi)
  rw [hh', Option.getD_some] at hheight
  exact ⟨j, hj, hheight ▸ hh'⟩

/-- All heights below that of a component occur. -/
theorem exists_height_eq (hg : g.WellFormed) {i h l : Nat} (hh : (of g).heights[i]? = some h)
    (hl : l ≤ h) : ∃ j : Nat, (of g).heights[j]? = some l := by
  induction h generalizing i with
  | zero =>
    obtain rfl : l = 0 := Nat.le_zero.1 hl
    exact ⟨i, hh⟩
  | succ h ih =>
    by_cases heq : l = h + 1
    · exact ⟨i, heq ▸ hh⟩
    · obtain ⟨j, -, hj⟩ := exists_successor_of_height hg hh
      exact ih hj (by omega)

/-- Edges between components lead to successors. -/
theorem leads_iff (hg : g.WellFormed) {i j : Nat} :
    (of g).Leads i j ↔ j ∈ (of g).successors i := (mem_successors hg).symm

/-- A path as long as the height starts at a component. -/
theorem descends_of_height (hg : g.WellFormed) {i h : Nat} (hh : (of g).heights[i]? = some h) :
    (of g).Descends h i := by
  induction h generalizing i with
  | zero => exact .stop i
  | succ h ih =>
    obtain ⟨j, hj, hheight⟩ := exists_successor_of_height hg hh
    exact .step ((leads_iff hg).2 hj) (ih hheight)

/-- No path from a component is longer than its height. -/
theorem le_height (hg : g.WellFormed) {i h n : Nat} (hh : (of g).heights[i]? = some h)
    (hn : (of g).Descends n i) : n ≤ h := by
  induction hn generalizing h with
  | stop => exact Nat.zero_le h
  | step hleads _ ih =>
    obtain ⟨h', hlt, hh'⟩ := height_lt_of_successor hg ((leads_iff hg).1 hleads) hh
    exact (ih hh').trans_lt hlt

/-- Heights fall along paths. -/
theorem height_lt_of_transGen (hg : g.WellFormed) {i j h : Nat}
    (hij : Relation.TransGen (of g).Leads i j) (hh : (of g).heights[i]? = some h) :
    ∃ h' < h, (of g).heights[j]? = some h' := by
  induction hij with
  | single hleads => exact height_lt_of_successor hg ((leads_iff hg).1 hleads) hh
  | tail _ hleads ih =>
    obtain ⟨h', hlt, hh'⟩ := ih
    obtain ⟨h'', hlt', hh''⟩ := height_lt_of_successor hg ((leads_iff hg).1 hleads) hh'
    exact ⟨h'', hlt'.trans hlt, hh''⟩

/-! ## Levels -/

section Levels

variable {c : Condensation}

/-- There is a level for each height up to the largest. -/
theorem length_levels (c : Condensation) :
    c.levels.length = (c.heights.map (· + 1)).foldl max 0 := by
  rw [levels, List.length_map, List.length_range]

/-- A level lists the components of its height in ascending order. -/
theorem eq_of_levels_getElem? {l : Nat} {level : List Nat} (h : c.levels[l]? = some level) :
    level = (List.range c.size).filter fun i => c.heights[i]? = some l := by
  obtain ⟨hl, rfl⟩ := List.getElem?_eq_some_iff.1 h
  simp only [levels, List.getElem_map, List.getElem_range]

/-- A level holds the components of one height. -/
theorem mem_level_iff {l : Nat} {level : List Nat} (h : c.levels[l]? = some level) {i : Nat} :
    i ∈ level ↔ c.heights[i]? = some l := by
  rw [eq_of_levels_getElem? h, List.mem_filter, List.mem_range, decide_eq_true_eq,
    and_iff_right_iff_imp]
  exact lt_size_of_height

theorem pairwise_level {l : Nat} {level : List Nat} (h : c.levels[l]? = some level) :
    level.Pairwise (· < ·) := by
  rw [eq_of_levels_getElem? h]
  exact List.pairwise_lt_range.filter _

/-- Every component has a level. -/
theorem exists_level {i h : Nat} (hh : c.heights[i]? = some h) :
    ∃ level, c.levels[h]? = some level ∧ i ∈ level := by
  have hlt : h < c.levels.length := by
    rw [length_levels]
    exact le_foldl_max (List.mem_map.2 ⟨h, List.mem_of_getElem? hh, rfl⟩)
  have hlevel := List.getElem?_eq_getElem hlt
  exact ⟨_, hlevel, (mem_level_iff hlevel).2 hh⟩

/-- The levels hold all components. -/
theorem mem_levels {i : Nat} : i ∈ c.levels.flatten ↔ i < c.size := by
  rw [List.mem_flatten]
  constructor
  · rintro ⟨level, hlevel, hi⟩
    obtain ⟨l, hl⟩ := List.getElem?_of_mem hlevel
    exact lt_size_of_height ((mem_level_iff hl).1 hi)
  · intro hi
    obtain ⟨h, hh⟩ := exists_height hi
    obtain ⟨level, hlevel, hmem⟩ := exists_level hh
    exact ⟨level, List.mem_of_getElem? hlevel, hmem⟩

/-- No component is on two levels, or twice on one. -/
theorem nodup_levels (c : Condensation) : c.levels.flatten.Nodup := by
  rw [List.nodup_flatten]
  constructor
  · intro level hlevel
    obtain ⟨l, hl⟩ := List.getElem?_of_mem hlevel
    exact (pairwise_level hl).imp Nat.ne_of_lt
  · rw [List.pairwise_iff_getElem]
    intro l l' hl hl' hlt i hi hi'
    have hheight := (mem_level_iff (List.getElem?_eq_getElem hl)).1 hi
    rw [(mem_level_iff (List.getElem?_eq_getElem hl')).1 hi', Option.some_inj] at hheight
    omega

/-- So each component is listed once. -/
theorem levels_perm (c : Condensation) : c.levels.flatten.Perm (List.range c.size) :=
  (List.perm_ext_iff_of_nodup (nodup_levels c) List.nodup_range).2 fun _ =>
    mem_levels.trans List.mem_range.symm

end Levels

/-- No level is empty. -/
theorem level_ne_nil (hg : g.WellFormed) {l : Nat} {level : List Nat}
    (h : (of g).levels[l]? = some level) : level ≠ [] := by
  have hlt := (List.getElem?_eq_some_iff.1 h).1
  rw [length_levels] at hlt
  -- the top level belongs to some component, and paths from there pass all levels
  obtain ⟨top, htop, heq⟩ := List.mem_map.1 (foldl_max_mem (Nat.ne_zero_of_lt hlt))
  obtain ⟨i, hi⟩ := List.getElem?_of_mem htop
  obtain ⟨j, hj⟩ := exists_height_eq hg hi (by omega : l ≤ top)
  exact List.ne_nil_of_mem ((mem_level_iff h).2 hj)

/-- The successors of a component are on the levels before its own. -/
theorem successor_mem_lower (hg : g.WellFormed) {lower upper : List (List Nat)} {level : List Nat}
    (hlevels : (of g).levels = lower ++ level :: upper) {i j : Nat} (hi : i ∈ level)
    (hj : j ∈ (of g).successors i) : j ∈ lower.flatten := by
  -- the number of a level is the number of those before it
  have hlevel : (of g).levels[lower.length]? = some level := by
    rw [hlevels, List.getElem?_append_right le_rfl, Nat.sub_self, List.getElem?_cons_zero]
  obtain ⟨h, hlt, hh⟩ := height_lt_of_successor hg hj ((mem_level_iff hlevel).1 hi)
  obtain ⟨earlier, hearlier, hmem⟩ := exists_level hh
  rw [hlevels, List.getElem?_append_left hlt] at hearlier
  exact List.mem_flatten.2 ⟨earlier, List.mem_of_getElem? hearlier, hmem⟩

/-- **Schedule**: edges between components lead to smaller numbers; the successors of a component
are the others that its edges enter; the levels hold every component once, in order and without
gaps; the level of a component is the length of the longest path of components from it; so its
successors are on earlier levels, and no path joins two components of one level. -/
theorem levels_schedule (hg : g.WellFormed) :
    (∀ e ∈ g.edges, (of g).componentOf e.1 ≠ (of g).componentOf e.2 →
      (of g).componentOf e.2 < (of g).componentOf e.1) ∧
    (∀ i, ((of g).successors i).Pairwise (· < ·) ∧
      ∀ j, j ∈ (of g).successors i ↔ (of g).Leads i j) ∧
    (of g).levels.flatten.Perm (List.range (of g).size) ∧
    ∀ l level, (of g).levels[l]? = some level → level ≠ [] ∧ level.Pairwise (· < ·) ∧
      ∀ i ∈ level, (of g).Descends l i ∧ (∀ n, (of g).Descends n i → n ≤ l) ∧
        (∀ j ∈ (of g).successors i, ∃ k < l, ∃ earlier,
          (of g).levels[k]? = some earlier ∧ j ∈ earlier) ∧
        ∀ j ∈ level, ¬ Relation.TransGen (of g).Leads i j := by
  refine ⟨?_, ?_, levels_perm _, ?_⟩
  · intro e he hne
    exact Nat.lt_of_le_of_ne (componentOf_le hg he) hne.symm
  · intro i
    exact ⟨List.pairwise_lt_range.filter _, fun j => (leads_iff hg).symm⟩
  · intro l level hlevel
    refine ⟨level_ne_nil hg hlevel, pairwise_level hlevel, fun i hi => ?_⟩
    have hheight := (mem_level_iff hlevel).1 hi
    refine ⟨descends_of_height hg hheight, fun n => le_height hg hheight, ?_, ?_⟩
    · intro j hj
      obtain ⟨k, hlt, hk⟩ := height_lt_of_successor hg hj hheight
      exact ⟨k, hlt, exists_level hk⟩
    · intro j hj hpath
      -- on one level heights are the same, but they fall along a path
      obtain ⟨k, hlt, hk⟩ := height_lt_of_transGen hg hpath hheight
      rw [(mem_level_iff hlevel).1 hj, Option.some_inj] at hk
      omega

theorem levels_schedule_ring :
    Digraph.ring.WellFormed ∧ (of .ring).levels = [[0], [1, 3], [2]] ∧
    (of .ring).successors 2 = [0, 1] ∧ (of .ring).Leads 2 0 ∧
    (of .ring).Descends 2 2 ∧ (∀ n, (of .ring).Descends n 2 → n ≤ 2) ∧
    ¬ Relation.TransGen (of .ring).Leads 1 3 := by
  have hg : Digraph.ring.WellFormed := by decide
  have hlevels : (of .ring).levels = [[0], [1, 3], [2]] := by decide
  have hsuccessors : (of .ring).successors 2 = [0, 1] := by decide
  obtain ⟨-, hleads, -, hlevel⟩ := levels_schedule hg
  rw [hlevels] at hlevel
  obtain ⟨-, -, hmiddle⟩ := hlevel 1 [1, 3] rfl
  obtain ⟨-, -, htop⟩ := hlevel 2 [2] rfl
  obtain ⟨hpath, hlongest, -, -⟩ := htop 2 (by decide)
  obtain ⟨-, -, -, hapart⟩ := hmiddle 1 (by decide)
  refine ⟨hg, hlevels, hsuccessors, ?_, hpath, hlongest, hapart 3 (by decide)⟩
  exact ((hleads 2).2 0).1 (by rw [hsuccessors]; decide)

end Condensation

end Interlock
