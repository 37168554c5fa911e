import Interlock.Proofs.Search

/-!
# Depth-first search on numbered nodes, with every look-up guarded

The search as a loop with an explicit stack and an array of marks. Each look-up may fail,
and then so does the whole search; a search that does not come to an end has no result
either. Where all nodes are numbers of marks, it finds what the recursive search finds.

- `store?`, `exists_foldlM_store?`: write to a cell that exists, to several.
- `mapM_eq_filterMap`, `mapM_eq_some`: the items of a list, if no step on one fails.
- `StackSearch.finish?`, `searchRoot?`, `searchOrder?`: the search from a stack, from one root,
  from several.
- `searchOrder?_eq_some`: no look-up fails, and the result is the reverse post-order.
-/

namespace Interlock

/-! ## Steps that may fail -/

/-- Write to a cell of an array, if it exists. -/
def store? {α : Type} (cells : Array α) (i : Nat) (a : α) : Option (Array α) :=
  if i < cells.size then some (cells.setIfInBounds i a) else none

theorem store?_of_lt {α : Type} {cells : Array α} {i : Nat} (h : i < cells.size) (a : α) :
    store? cells i a = some (cells.setIfInBounds i a) := if_pos h

/-- Writing to cells that all exist succeeds. A cell to which one value only was written holds it,
and a cell to which nothing was written is as before. -/
theorem exists_foldlM_store? {α : Type} (es : List (Nat × α)) (cells : Array α)
    (h : ∀ e ∈ es, e.1 < cells.size) :
    ∃ cells', es.foldlM (fun cells e => store? cells e.1 e.2) cells = some cells' ∧
      cells'.size = cells.size ∧ (∀ i, (∀ e ∈ es, e.1 ≠ i) → cells'[i]? = cells[i]?) ∧
      ∀ e ∈ es, (∀ e' ∈ es, e'.1 = e.1 → e'.2 = e.2) → cells'[e.1]? = some e.2 := by
  induction es generalizing cells with
  | nil => exact ⟨cells, rfl, rfl, fun _ _ => rfl, fun _ he => (nomatch he)⟩
  | cons d es ih =>
    have hd : d.1 < cells.size := h d List.mem_cons_self
    have hsize : (cells.setIfInBounds d.1 d.2).size = cells.size := Array.size_setIfInBounds
    obtain ⟨cells', hfold, hsize', hsame, hset⟩ := ih (cells.setIfInBounds d.1 d.2)
      fun e he => hsize ▸ h e (List.mem_cons_of_mem _ he)
    refine ⟨cells', ?_, hsize'.trans hsize, fun i hi => ?_, fun e he honly => ?_⟩
    · rw [List.foldlM_cons, store?_of_lt hd]
      exact hfold
    · rw [hsame i fun e he => hi e (List.mem_cons_of_mem _ he), Array.getElem?_setIfInBounds,
        if_neg (hi d List.mem_cons_self)]
    · -- the value written first stays unless the cell is written to again
      by_cases hagain : ∃ e' ∈ es, e'.1 = e.1
      · obtain ⟨e', he', heq⟩ := hagain
        have hlast := hset e' he' fun e'' he'' heq' =>
          (honly e'' (List.mem_cons_of_mem _ he'') (heq'.trans heq)).trans
            (honly e' (List.mem_cons_of_mem _ he') heq).symm
        rw [← heq, hlast, honly e' (List.mem_cons_of_mem _ he') heq]
      · rcases List.mem_cons.1 he with rfl | he
        · rw [hsame e.1 fun e' he' heq => hagain ⟨e', he', heq⟩,
            Array.getElem?_setIfInBounds_self_of_lt hd]
        · exact absurd ⟨e, he, rfl⟩ hagain

/-- If no step on an item of a list fails, the results are those of the items in turn. -/
theorem mapM_eq_filterMap {α β : Type} {f : α → Option β} {as : List α}
    (h : ∀ a ∈ as, ∃ b, f a = some b) : as.mapM f = some (as.filterMap f) := by
  induction as with
  | nil => rfl
  | cons a as ih =>
    obtain ⟨b, hb⟩ := h a List.mem_cons_self
    rw [List.mapM_cons, hb, ih fun c hc => h c (List.mem_cons_of_mem _ hc),
      List.filterMap_cons_some hb]
    rfl

theorem mapM_eq_some {α β : Type} {f : α → Option β} {g : α → β} {as : List α}
    (h : ∀ a ∈ as, f a = some (g a)) : as.mapM f = some (as.map g) := by
  rw [mapM_eq_filterMap fun a ha => ⟨g a, h a ha⟩, List.filterMap_congr h, List.filterMap_eq_map']

/-! ## The search -/

/-- A search under way. An entry of the stack is a node with the number of its successors followed
so far. -/
structure StackSearch where
  marks : Array Bool
  stack : List (Nat × Nat)
  /-- The nodes left so far, the latest first. -/
  left : List Nat

/-- Search on until the stack is empty; `peek` gives the next successor of a node, and none if all
were followed. -/
def StackSearch.finish? (peek : Nat → Nat → Option (Option Nat)) (s : StackSearch) :
    Option (Array Bool × List Nat) :=
  match s with
  | ⟨marks, [], left⟩ => some (marks, left)
  | ⟨marks, (v, i) :: rest, left⟩ => do
    match ← peek v i with
    | none => mk marks rest (v :: left) |>.finish? peek
    | some w =>
      if ← marks[w]? then mk marks ((v, i + 1) :: rest) left |>.finish? peek
      else
        let marks ← store? marks w true
        mk marks ((w, 0) :: (v, i + 1) :: rest) left |>.finish? peek
partial_fixpoint

/-- Search from a root, unless it is marked. -/
def searchRoot? (peek : Nat → Nat → Option (Option Nat)) (state : Array Bool × List Nat)
    (root : Nat) : Option (Array Bool × List Nat) := do
  if ← state.1[root]? then return state
  else
    let marks ← store? state.1 root true
    StackSearch.finish? peek ⟨marks, [(root, 0)], state.2⟩

/-- The nodes reached from the roots in a graph of `size` nodes, latest left first. -/
def searchOrder? (peek : Nat → Nat → Option (Option Nat)) (size : Nat) (roots : List Nat) :
    Option (List Nat) :=
  (roots.foldlM (searchRoot? peek) (.replicate size false, [])).map (·.2)

/-! ## Agreement with the recursive search -/

/-- `Marked size marks s`: the marked nodes are those that the search entered. -/
structure Marked (size : Nat) (marks : Array Bool) (s : Search Nat) : Prop where
  size_eq : marks.size = size
  getElem?_eq : ∀ v < size, marks[v]? = some (decide (v ∈ s.entered))

namespace Marked

variable {size : Nat} {marks : Array Bool} {s : Search Nat}

theorem start (size : Nat) : Marked size (.replicate size false) {} where
  size_eq := Array.size_replicate
  getElem?_eq v hv := by simp [hv]

/-- Marking a node is entering it. -/
theorem enter (h : Marked size marks s) {v : Nat} (hv : v < size) :
    ∃ marks', store? marks v true = some marks' ∧
      Marked size marks' { s with entered := v :: s.entered } := by
  refine ⟨_, store?_of_lt (h.size_eq ▸ hv) true, ?_, fun w hw => ?_⟩
  · rw [Array.size_setIfInBounds, h.size_eq]
  · rw [Array.getElem?_setIfInBounds, h.size_eq]
    by_cases hvw : v = w
    · rw [if_pos hvw, if_pos hv]
      simp [hvw]
    · rw [if_neg hvw, h.getElem?_eq w hw]
      simp [Ne.symm hvw]

end Marked

section Agreement

variable {peek : Nat → Nat → Option (Option Nat)} {next : Nat → List Nat} {size : Nat}

/-- `Follows peek next size depth`: with at most `depth` nodes to enter, the loop follows the
successors that are left of the topmost node as the recursion does, and then leaves the node. -/
def Follows (peek : Nat → Nat → Option (Option Nat)) (next : Nat → List Nat) (size depth : Nat) :
    Prop :=
  ∀ (v i : Nat) (marks : Array Bool) (s : Search Nat) (rest : List (Nat × Nat)), v < size →
    Marked size marks s → (Search.pending (Finset.range size) s).card ≤ depth →
    ∃ marks', Marked size marks' (((next v).drop i).foldl (fun s w => s.visit next depth w) s) ∧
      StackSearch.finish? peek ⟨marks, (v, i) :: rest, s.left⟩ = StackSearch.finish? peek ⟨marks',
        rest, v :: (((next v).drop i).foldl (fun s w => s.visit next depth w) s).left⟩

/-- Then it also visits a new node as the recursion does. -/
theorem Follows.visit {depth : Nat} (h : Follows peek next size depth) {w : Nat} (hw : w < size)
    {marks : Array Bool} {s : Search Nat} (hnew : w ∉ s.entered) (hmarks : Marked size marks s)
    (hs : (Search.pending (Finset.range size) s).card ≤ depth + 1) (rest : List (Nat × Nat)) :
    ∃ marks', Marked size marks' (s.visit next (depth + 1) w) ∧
      ((store? marks w true).bind fun marks =>
          StackSearch.finish? peek ⟨marks, (w, 0) :: rest, s.left⟩)
        = StackSearch.finish? peek ⟨marks', rest, (s.visit next (depth + 1) w).left⟩ := by
  have hpending := Search.card_pending_lt (Finset.mem_range.2 hw) hnew
  obtain ⟨marks₁, hstore, hmarks₁⟩ := hmarks.enter hw
  obtain ⟨marks₂, hmarks₂, hbelow⟩ := h w 0 marks₁ _ rest hw hmarks₁ (by omega)
  rw [Search.visit, if_neg hnew, hstore, Option.bind_some]
  exact ⟨marks₂, ⟨hmarks₂.size_eq, hmarks₂.getElem?_eq⟩, hbelow⟩

variable (hpeek : ∀ v < size, ∀ i, peek v i = some ((next v)[i]?))
  (hnext : ∀ v < size, ∀ w ∈ next v, w < size)

include hnext in
/-- A visit does not add to the nodes that are still to enter. -/
theorem card_pending_visit_le {depth w : Nat} (hw : w < size) {s : Search Nat}
    (hs : (Search.pending (Finset.range size) s).card ≤ depth) :
    (Search.pending (Finset.range size) (s.visit next depth w)).card ≤ depth := by
  have hclosed : ∀ v ∈ Finset.range size, ∀ w ∈ next v, w ∈ Finset.range size := by
    intro v hv w hw
    exact Finset.mem_range.2 (hnext v (Finset.mem_range.1 hv) w hw)
  have hextends := Search.extends_visit hclosed depth (Finset.mem_range.2 hw) hs
  exact (Finset.card_le_card (Search.pending_subset (Finset.range size) hextends.mono)).trans hs

include hpeek hnext

/-- The outer induction is on the depth of the recursion, the inner one on the successors left. -/
theorem follows (depth : Nat) : Follows peek next size depth := by
  induction depth using Nat.strongRecOn with
  | _ depth ih =>
    intro v i marks s rest hv hmarks hs
    generalize hws : (next v).drop i = ws
    induction ws generalizing i marks s with
    | nil =>
      have hnone : (next v)[i]? = none := List.getElem?_eq_none (List.drop_eq_nil_iff.1 hws)
      refine ⟨marks, hmarks, ?_⟩
      rw [StackSearch.finish?, hpeek v hv, hnone]
      rfl
    | cons w ws ihws =>
      have hw : (next v)[i]? = some w := by rw [← List.head?_drop, hws, List.head?_cons]
      have hlt : w < size := hnext v hv w (List.mem_of_getElem? hw)
      have hrest : (next v).drop (i + 1) = ws := by rw [← List.tail_drop, hws, List.tail_cons]
      have hstep : StackSearch.finish? peek ⟨marks, (v, i) :: rest, s.left⟩
          = if w ∈ s.entered then StackSearch.finish? peek ⟨marks, (v, i + 1) :: rest, s.left⟩
            else (store? marks w true).bind fun marks =>
              StackSearch.finish? peek ⟨marks, (w, 0) :: (v, i + 1) :: rest, s.left⟩ := by
        rw [StackSearch.finish?, hpeek v hv, hw]
        show (marks[w]?.bind fun seen => if seen then _ else _) = _
        rw [hmarks.getElem?_eq w hlt, Option.bind_some]
        simp only [decide_eq_true_eq]
        rfl
      rw [hstep, List.foldl_cons]
      by_cases hentered : w ∈ s.entered
      · rw [if_pos hentered, Search.visit_of_entered hentered]
        exact ihws (i + 1) marks s hmarks hs hrest
      · -- a node is left to enter, so there is one more level to the recursion
        have hpending := Search.card_pending_lt (Finset.mem_range.2 hlt) hentered
        obtain ⟨depth, rfl⟩ : ∃ n, depth = n + 1 := ⟨depth - 1, by omega⟩
        obtain ⟨marks', hmarks', hvisit⟩ :=
          (ih depth (Nat.lt_succ_self depth)).visit hlt hentered hmarks hs ((v, i + 1) :: rest)
        rw [if_neg hentered, hvisit]
        exact ihws (i + 1) marks' _ hmarks' (card_pending_visit_le hnext hlt hs) hrest

/-- Searching from one root is visiting it. -/
theorem searchRoot?_eq_some {v : Nat} (hv : v < size) {marks : Array Bool} {s : Search Nat}
    (hmarks : Marked size marks s) (hs : (Search.pending (Finset.range size) s).card ≤ size) :
    ∃ marks', Marked size marks' (s.visit next size v) ∧
      searchRoot? peek (marks, s.left) v = some (marks', (s.visit next size v).left) := by
  unfold searchRoot?
  rw [hmarks.getElem?_eq v hv]
  by_cases hentered : v ∈ s.entered
  · rw [Search.visit_of_entered hentered, decide_eq_true hentered]
    exact ⟨marks, hmarks, rfl⟩
  · obtain ⟨depth, rfl⟩ : ∃ n, size = n + 1 := ⟨size - 1, by omega⟩
    obtain ⟨marks', hmarks', hvisit⟩ :=
      (follows hpeek hnext depth).visit hv hentered hmarks hs []
    rw [decide_eq_false hentered]
    refine ⟨marks', hmarks', hvisit.trans ?_⟩
    rw [StackSearch.finish?]

/-- Searching from several roots is visiting them in turn. -/
theorem foldlM_searchRoot?_eq_some {roots : List Nat} (hroots : ∀ v ∈ roots, v < size)
    {marks : Array Bool} {s : Search Nat} (hmarks : Marked size marks s)
    (hs : (Search.pending (Finset.range size) s).card ≤ size) :
    ∃ marks', roots.foldlM (searchRoot? peek) (marks, s.left)
      = some (marks', (Search.visitAll next size roots s).left) := by
  induction roots generalizing marks s with
  | nil => exact ⟨marks, rfl⟩
  | cons v roots ih =>
    have hv := hroots v List.mem_cons_self
    obtain ⟨marks', hmarks', hroot⟩ := searchRoot?_eq_some hpeek hnext hv hmarks hs
    rw [List.foldlM_cons, hroot]
    exact ih (fun w hw => hroots w (List.mem_cons_of_mem _ hw)) hmarks'
      (card_pending_visit_le hnext hv hs)

/-- **Search**: no look-up of the search fails, and it finds the reverse post-order. -/
theorem searchOrder?_eq_some {roots : List Nat} (hroots : ∀ v ∈ roots, v < size) :
    searchOrder? peek size roots = some (reversePostOrder next size roots) := by
  have hs : (Search.pending (Finset.range size) {}).card ≤ size := by
    refine (Finset.card_le_card Finset.sdiff_subset).trans ?_
    rw [Finset.card_range]
  obtain ⟨marks', hfold⟩ := foldlM_searchRoot?_eq_some hpeek hnext hroots (.start size) hs
  rw [searchOrder?, hfold]
  rfl

end Agreement

end Interlock
