import Interlock.Graph.Search
import Mathlib.Data.Finset.Card
import Mathlib.Data.Finset.SDiff
import Mathlib.Logic.Relation

/-!
# Depth-first search visits what it should

A search from some roots enters the roots and all that they lead to past the nodes
entered before, and leaves each of these nodes once, after the nodes that it leads to
wherever no cycle forbids it.

- `Search.Extends`: what a search from given roots does to the nodes entered and left.
- `Search.extends_visit`, `Search.extends_visitAll`: every search does this, provided
  that its depth bounds the number of nodes not yet entered.
- `Search.Ordered`: the order in which nodes are left respects edges, except for those on
  cycles.
- `Search.ordered_visit`, `Search.ordered_visitAll`: every search keeps it so, since only
  nodes on the current path are entered and not left.
- `Search.head?_left_visitAll`: a root that leads to all others is left last.
- `mem_reversePostOrder`, `nodup_reversePostOrder`, `forward_or_leadsTo`: a search from all
  nodes lists each once, and edges lead forward in its order unless they are on cycles.
-/

namespace Interlock

/-- `LeadsTo next u v`: following `next` any number of times leads from `u` to `v`. -/
def LeadsTo {α : Type} (next : α → List α) : α → α → Prop :=
  Relation.ReflTransGen fun u v => v ∈ next u

namespace Search

variable {α : Type} [DecidableEq α] {next : α → List α}

/-- A step from a node that was entered between `s` and `s'`. -/
def StepsBetween (next : α → List α) (s s' : Search α) (u v : α) : Prop :=
  v ∈ next u ∧ u ∈ s'.entered ∧ u ∉ s.entered

/-- What a search from `roots` does, from `s` before to `s'` after. -/
structure Extends (next : α → List α) (roots : List α) (s s' : Search α) : Prop where
  mono : ∀ v ∈ s.entered, v ∈ s'.entered
  roots_entered : ∀ v ∈ roots, v ∈ s'.entered
  /-- A node entered by the search leads to entered nodes only. -/
  closed : ∀ v ∈ s'.entered, v ∉ s.entered → ∀ w ∈ next v, w ∈ s'.entered
  /-- A node entered by the search is led to from a root. -/
  reached : ∀ v ∈ s'.entered, v ∉ s.entered →
    ∃ r ∈ roots, Relation.ReflTransGen (StepsBetween next s s') r v
  /-- The nodes left by the search are those entered by it. -/
  left_iff : ∀ v, v ∈ s'.left ↔ v ∈ s.left ∨ v ∈ s'.entered ∧ v ∉ s.entered
  nodup : s.left.Nodup → (∀ v ∈ s.left, v ∈ s.entered) → s'.left.Nodup

namespace Extends

variable {roots roots' : List α} {s s' s'' : Search α}

omit [DecidableEq α] in
/-- Nothing happens when all roots are entered already. -/
theorem rfl (h : ∀ v ∈ roots, v ∈ s.entered) : Extends next roots s s where
  mono _ hv := hv
  roots_entered := h
  closed v hv hnew := absurd hv hnew
  reached v hv hnew := absurd hv hnew
  left_iff v := by
    constructor
    · exact .inl
    · rintro (hv | ⟨hv, hnew⟩)
      · exact hv
      · exact absurd hv hnew
  nodup hs _ := hs

omit [DecidableEq α] in
/-- The nodes left stay among the nodes entered. -/
theorem left_entered (h : Extends next roots s s') (hs : ∀ v ∈ s.left, v ∈ s.entered) :
    ∀ v ∈ s'.left, v ∈ s'.entered := by
  intro v hv
  rcases (h.left_iff v).1 hv with hv | ⟨hv, -⟩
  · exact h.mono v (hs v hv)
  · exact hv

/-- One search after another. -/
theorem trans (h : Extends next roots s s') (h' : Extends next roots' s' s'') :
    Extends next (roots ++ roots') s s'' where
  mono v hv := h'.mono v (h.mono v hv)
  roots_entered v hv := by
    rcases List.mem_append.1 hv with hv | hv
    · exact h'.mono v (h.roots_entered v hv)
    · exact h'.roots_entered v hv
  closed v hv hnew w hw := by
    -- the node was entered by the first search or by the second
    by_cases hmid : v ∈ s'.entered
    · exact h'.mono w (h.closed v hmid hnew w hw)
    · exact h'.closed v hv hmid w hw
  reached v hv hnew := by
    by_cases hmid : v ∈ s'.entered
    · obtain ⟨r, hr, hpath⟩ := h.reached v hmid hnew
      refine ⟨r, List.mem_append_left _ hr, Relation.ReflTransGen.mono ?_ _ _ hpath⟩
      rintro a b ⟨hb, ha, hanew⟩
      exact ⟨hb, h'.mono a ha, hanew⟩
    · obtain ⟨r, hr, hpath⟩ := h'.reached v hv hmid
      refine ⟨r, List.mem_append_right _ hr, Relation.ReflTransGen.mono ?_ _ _ hpath⟩
      rintro a b ⟨hb, ha, hanew⟩
      exact ⟨hb, ha, fun has => hanew (h.mono a has)⟩
  left_iff v := by
    rw [h'.left_iff, h.left_iff]
    constructor
    · rintro ((hv | ⟨hv, hnew⟩) | ⟨hv, hnew⟩)
      · exact .inl hv
      · exact .inr ⟨h'.mono v hv, hnew⟩
      · exact .inr ⟨hv, fun hs => hnew (h.mono v hs)⟩
    · rintro (hv | ⟨hv, hnew⟩)
      · exact .inl (.inl hv)
      · by_cases hmid : v ∈ s'.entered
        · exact .inl (.inr ⟨hmid, hnew⟩)
        · exact .inr ⟨hv, hmid⟩
  nodup hs hleft := h'.nodup (h.nodup hs hleft) (h.left_entered hleft)

/-- Entering a node, searching from what it leads to and leaving it again. -/
theorem around {v : α} {below : Search α} (hv : v ∉ s.entered)
    (h : Extends next (next v) { s with entered := v :: s.entered } below) :
    Extends next [v] s { below with left := v :: below.left } where
  mono w hw := h.mono w (List.mem_cons_of_mem _ hw)
  roots_entered w hw := by
    rw [List.mem_singleton.1 hw]
    exact h.mono v List.mem_cons_self
  closed w hw hnew := by
    by_cases hwv : w = v
    · rw [hwv]
      exact h.roots_entered
    · exact h.closed w hw fun hmem => (List.mem_cons.1 hmem).elim hwv hnew
  reached w hw hnew := by
    refine ⟨v, List.mem_singleton_self v, ?_⟩
    by_cases hwv : w = v
    · rw [hwv]
    · -- the first step leaves `v`, which this search enters; the rest is that of the search below
      obtain ⟨r, hr, hpath⟩ := h.reached w hw fun hmem => (List.mem_cons.1 hmem).elim hwv hnew
      refine .head ⟨hr, h.mono v List.mem_cons_self, hv⟩ (Relation.ReflTransGen.mono ?_ _ _ hpath)
      rintro a b ⟨hb, ha, hanew⟩
      exact ⟨hb, ha, fun has => hanew (List.mem_cons_of_mem _ has)⟩
  left_iff w := by
    show w ∈ v :: below.left ↔ w ∈ s.left ∨ w ∈ below.entered ∧ w ∉ s.entered
    rw [List.mem_cons, h.left_iff]
    constructor
    · rintro (rfl | hw | ⟨hw, hnew⟩)
      · exact .inr ⟨h.mono w List.mem_cons_self, hv⟩
      · exact .inl hw
      · exact .inr ⟨hw, fun hs => hnew (List.mem_cons_of_mem _ hs)⟩
    · rintro (hw | ⟨hw, hnew⟩)
      · exact .inr (.inl hw)
      · by_cases hwv : w = v
        · exact .inl hwv
        · exact .inr (.inr ⟨hw, fun hmem => (List.mem_cons.1 hmem).elim hwv hnew⟩)
  nodup hs hleft := by
    refine List.nodup_cons.2 ⟨fun hmem => ?_,
      h.nodup hs fun w hw => List.mem_cons_of_mem _ (hleft w hw)⟩
    rcases (h.left_iff v).1 hmem with hmem | ⟨-, hnew⟩
    · exact hv (hleft v hmem)
    · exact hnew List.mem_cons_self

end Extends

/-! ## Every search extends -/

/-- The nodes of `nodes` that are not entered yet. -/
def pending (nodes : Finset α) (s : Search α) : Finset α := nodes \ s.entered.toFinset

theorem mem_pending {nodes : Finset α} {s : Search α} {v : α} :
    v ∈ pending nodes s ↔ v ∈ nodes ∧ v ∉ s.entered := by
  rw [pending, Finset.mem_sdiff, List.mem_toFinset]

/-- Where more nodes are entered, fewer are left to enter. -/
theorem pending_subset (nodes : Finset α) {s s' : Search α}
    (h : ∀ v ∈ s.entered, v ∈ s'.entered) : pending nodes s' ⊆ pending nodes s := by
  intro v hv
  rw [mem_pending] at hv ⊢
  exact ⟨hv.1, fun hs => hv.2 (h v hs)⟩

/-- Entering a node leaves fewer nodes to enter. -/
theorem card_pending_lt {nodes : Finset α} {s : Search α} {v : α} (hv : v ∈ nodes)
    (hnew : v ∉ s.entered) :
    (pending nodes { s with entered := v :: s.entered }).card < (pending nodes s).card := by
  have hsub : pending nodes { s with entered := v :: s.entered } ⊆ pending nodes s :=
    pending_subset nodes fun w hw => List.mem_cons_of_mem _ hw
  refine Finset.card_lt_card ((Finset.ssubset_iff_of_subset hsub).2 ⟨v, ?_, ?_⟩)
  · exact mem_pending.2 ⟨hv, hnew⟩
  · exact fun hmem => (mem_pending.1 hmem).2 List.mem_cons_self

section Closed

variable {nodes : Finset α} (hnext : ∀ v ∈ nodes, ∀ w ∈ next v, w ∈ nodes)

/-- Searching from several roots in turn, when searching from each one extends. -/
theorem extends_foldl {search : α → Search α → Search α} {bound : Nat}
    (hsearch : ∀ v ∈ nodes, ∀ s, (pending nodes s).card ≤ bound → Extends next [v] s (search v s))
    {roots : List α} (hroots : ∀ v ∈ roots, v ∈ nodes) {s : Search α}
    (hs : (pending nodes s).card ≤ bound) :
    Extends next roots s (roots.foldl (fun s v => search v s) s) := by
  induction roots generalizing s with
  | nil => exact .rfl fun v hv => nomatch hv
  | cons v roots ih =>
    have hstep := hsearch v (hroots v List.mem_cons_self) s hs
    have hle := Finset.card_le_card (pending_subset nodes hstep.mono)
    exact hstep.trans (ih (fun w hw => hroots w (List.mem_cons_of_mem _ hw)) (le_trans hle hs))

include hnext

/-- A search from one node extends, if its depth bounds the number of nodes to enter. -/
theorem extends_visit (depth : Nat) {v : α} (hv : v ∈ nodes) {s : Search α}
    (hs : (pending nodes s).card ≤ depth) : Extends next [v] s (visit next depth v s) := by
  induction depth generalizing v s with
  | zero =>
    -- no node is left to enter, so `v` was entered
    have hempty := Finset.card_eq_zero.1 (Nat.le_zero.1 hs)
    have hentered : v ∈ s.entered := by
      refine Decidable.of_not_not fun hnew => ?_
      have hmem := mem_pending.2 ⟨hv, hnew⟩
      rw [hempty] at hmem
      exact Finset.notMem_empty v hmem
    exact .rfl fun w hw => List.mem_singleton.1 hw ▸ hentered
  | succ depth ih =>
    rw [visit]
    split
    · next hentered => exact .rfl fun w hw => List.mem_singleton.1 hw ▸ hentered
    · next hnew =>
      have hlt := card_pending_lt hv hnew
      exact .around hnew (extends_foldl (fun w hw s hs => ih hw hs) (hnext v hv) (by omega))

/-- A search from several nodes extends. -/
theorem extends_visitAll (depth : Nat) {roots : List α} (hroots : ∀ v ∈ roots, v ∈ nodes)
    {s : Search α} (hs : (pending nodes s).card ≤ depth) :
    Extends next roots s (visitAll next depth roots s) :=
  extends_foldl (fun _ hv _ hs => extends_visit hnext depth hv hs) hroots hs

end Closed

/-! ## Roots that were entered before -/

theorem visit_of_entered {depth : Nat} {v : α} {s : Search α} (h : v ∈ s.entered) :
    s.visit next depth v = s := by
  cases depth with
  | zero => rfl
  | succ depth => rw [visit, if_pos h]

/-- A search from nodes that were entered before does nothing. -/
theorem visitAll_of_entered {depth : Nat} {roots : List α} {s : Search α}
    (h : ∀ v ∈ roots, v ∈ s.entered) : visitAll next depth roots s = s := by
  induction roots with
  | nil => rfl
  | cons v roots ih =>
    show visitAll next depth roots (s.visit next depth v) = s
    rw [visit_of_entered (h v List.mem_cons_self)]
    exact ih fun w hw => h w (List.mem_cons_of_mem v hw)

omit [DecidableEq α] in
/-- A search that starts afresh enters all that a root leads to. -/
theorem Extends.entered_of_leadsTo {roots : List α} {s : Search α} (h : Extends next roots {} s)
    {r v : α} (hr : r ∈ roots) (hv : LeadsTo next r v) : v ∈ s.entered := by
  induction hv with
  | refl => exact h.roots_entered r hr
  | tail _ hstep ih => exact h.closed _ ih List.not_mem_nil _ hstep

/-- **The last node left**: a root that leads to all others. -/
theorem head?_left_visitAll {nodes : Finset α} (hnext : ∀ v ∈ nodes, ∀ w ∈ next v, w ∈ nodes)
    {depth : Nat} {first : α} {roots : List α} (hfirst : first ∈ nodes)
    (hdepth : (pending nodes {}).card ≤ depth) (hleads : ∀ v ∈ roots, LeadsTo next first v) :
    (visitAll next depth (first :: roots) {}).left.head? = some first := by
  have hentered : ∀ v ∈ roots, v ∈ (visit next depth first {}).entered := fun v hv =>
    (extends_visit hnext depth hfirst hdepth).entered_of_leadsTo (List.mem_singleton_self first)
      (hleads v hv)
  -- the first node is still to enter, so there is a level of the recursion for it
  have hpos : 0 < (pending nodes {}).card :=
    Finset.card_pos.2 ⟨first, mem_pending.2 ⟨hfirst, List.not_mem_nil⟩⟩
  obtain ⟨depth, rfl⟩ : ∃ n, depth = n + 1 := ⟨depth - 1, by omega⟩
  show (visitAll next (depth + 1) roots (visit next (depth + 1) first {})).left.head? = some first
  rw [visitAll_of_entered hentered, visit, if_neg List.not_mem_nil]
  rfl

/-! ## The order in which nodes are left -/

/-- Each node that was left stands before those that follow it, unless they lead back to it. -/
def Ordered (next : α → List α) (s : Search α) : Prop :=
  ∀ u ∈ s.left, ∀ v ∈ next u, [u, v].Sublist s.left ∨ LeadsTo next v u

/-- The search has entered the node and not left it yet. -/
def IsOpen (s : Search α) (v : α) : Prop := v ∈ s.entered ∧ v ∉ s.left

/-- `Ready next nodes depth roots s`: a search of the given depth may go on from the roots. The open
nodes are those on the way to them. -/
structure Ready (next : α → List α) (nodes : Finset α) (depth : Nat) (roots : List α)
    (s : Search α) : Prop where
  pending_le : (pending nodes s).card ≤ depth
  leads : ∀ v, s.IsOpen v → ∀ r ∈ roots, LeadsTo next v r
  ordered : s.Ordered next

omit [DecidableEq α] in
/-- A search leaves what it enters. -/
theorem Extends.isOpen_iff {roots : List α} {s s' : Search α} (h : Extends next roots s s')
    {v : α} : s'.IsOpen v ↔ s.IsOpen v := by
  rw [IsOpen, IsOpen, h.left_iff, not_or, not_and_not_right]
  constructor
  · rintro ⟨hv, hnot, hold⟩
    exact ⟨hold hv, hnot⟩
  · rintro ⟨hv, hnot⟩
    exact ⟨h.mono v hv, hnot, fun _ => hv⟩

section Ordered

variable {nodes : Finset α} {depth : Nat} {v : α} {roots : List α} {s s' : Search α}

/-- After a search from one root, the search may go on from the others. -/
theorem Ready.of_extends (h : Ready next nodes depth (v :: roots) s)
    (hextends : Extends next [v] s s') (hordered : s'.Ordered next) :
    Ready next nodes depth roots s' where
  pending_le :=
    (Finset.card_le_card (pending_subset nodes hextends.mono)).trans h.pending_le
  leads w hw r hr := h.leads w (hextends.isOpen_iff.1 hw) r (List.mem_cons_of_mem v hr)
  ordered := hordered

/-- When a node is entered, the search may go on from the nodes that follow it. -/
theorem Ready.enter (h : Ready next nodes (depth + 1) [v] s) (hv : v ∈ nodes)
    (hnew : v ∉ s.entered) :
    Ready next nodes depth (next v) { s with entered := v :: s.entered } where
  pending_le := by
    have hlt := card_pending_lt hv hnew
    have hle := h.pending_le
    omega
  leads w hw r hr := by
    have hstep : LeadsTo next v r := .single hr
    rcases List.mem_cons.1 hw.1 with rfl | hold
    · exact hstep
    · exact (h.leads w ⟨hold, hw.2⟩ v (List.mem_singleton_self v)).trans hstep
  ordered := h.ordered

omit [DecidableEq α] in
/-- When a node is left, what follows it was left before or is open, and then leads back to it. -/
theorem Ordered.leave (h : s'.Ordered next)
    (hextends : Extends next (next v) { s with entered := v :: s.entered } s')
    (hback : ∀ w, s.IsOpen w → LeadsTo next w v) :
    Ordered next { s' with left := v :: s'.left } := by
  intro u hu w hw
  rcases List.mem_cons.1 hu with rfl | hu
  · by_cases hleft : w ∈ s'.left
    · exact .inl ((List.singleton_sublist.2 hleft).cons_cons u)
    · right
      have hopen := hextends.isOpen_iff.1 ⟨hextends.roots_entered w hw, hleft⟩
      rcases List.mem_cons.1 hopen.1 with rfl | hold
      · exact .refl
      · exact hback w ⟨hold, hopen.2⟩
  · exact (h u hu w hw).imp_left fun hsub => hsub.cons v

variable (hnext : ∀ v ∈ nodes, ∀ w ∈ next v, w ∈ nodes)

include hnext

/-- Searching from several roots in turn, when searching from each one keeps the order. -/
theorem ordered_foldl
    (hvisit : ∀ v ∈ nodes, ∀ s, Ready next nodes depth [v] s → (visit next depth v s).Ordered next)
    (hroots : ∀ v ∈ roots, v ∈ nodes) (h : Ready next nodes depth roots s) :
    (roots.foldl (fun s v => visit next depth v s) s).Ordered next := by
  induction roots generalizing s with
  | nil => exact h.ordered
  | cons v roots ih =>
    have hv := hroots v List.mem_cons_self
    -- the open nodes lead to all roots, so also to the first
    have hfirst : Ready next nodes depth [v] s :=
      { h with
        leads := fun w hw r hr => h.leads w hw r (List.mem_singleton.1 hr ▸ List.mem_cons_self) }
    exact ih (fun w hw => hroots w (List.mem_cons_of_mem v hw))
      (h.of_extends (extends_visit hnext depth hv h.pending_le) (hvisit v hv s hfirst))

/-- A search from one node keeps the order. -/
theorem ordered_visit (hv : v ∈ nodes) (h : Ready next nodes depth [v] s) :
    (visit next depth v s).Ordered next := by
  induction depth generalizing v s with
  | zero => exact h.ordered
  | succ depth ih =>
    rw [visit]
    split
    · exact h.ordered
    · next hnew =>
      have hbelow := h.enter hv hnew
      exact (ordered_foldl hnext (fun w hw s hs => ih hw hs) (hnext v hv) hbelow).leave
        (extends_visitAll hnext depth (hnext v hv) hbelow.pending_le)
        fun w hw => h.leads w hw v (List.mem_singleton_self v)

/-- A search from several nodes keeps the order. -/
theorem ordered_visitAll (hroots : ∀ v ∈ roots, v ∈ nodes)
    (h : Ready next nodes depth roots s) : (visitAll next depth roots s).Ordered next :=
  ordered_foldl hnext (fun _ hv _ hs => ordered_visit hnext hv hs) hroots h

end Ordered

end Search

section PostOrder

variable {α : Type} [DecidableEq α] {next : α → List α} {size : Nat} {nodes : List α}
  (hnext : ∀ v ∈ nodes, ∀ w ∈ next v, w ∈ nodes) (hsize : nodes.length ≤ size)

include hnext hsize

omit hnext in
theorem card_pending_nodes_le : (Search.pending nodes.toFinset {}).card ≤ size :=
  calc (Search.pending nodes.toFinset {}).card
      ≤ nodes.toFinset.card := Finset.card_le_card Finset.sdiff_subset
    _ ≤ nodes.length := List.toFinset_card_le nodes
    _ ≤ size := hsize

omit hsize in
theorem next_mem_nodes : ∀ v ∈ nodes.toFinset, ∀ w ∈ next v, w ∈ nodes.toFinset := by
  intro v hv w hw
  exact List.mem_toFinset.2 (hnext v (List.mem_toFinset.1 hv) w hw)

theorem extends_reversePostOrder :
    Search.Extends next nodes {} (Search.visitAll next size nodes {}) :=
  Search.extends_visitAll (next_mem_nodes hnext) size (fun _ hv => List.mem_toFinset.2 hv)
    (card_pending_nodes_le hsize)

/-- A search from all nodes leaves every node. -/
theorem mem_reversePostOrder {v : α} : v ∈ reversePostOrder next size nodes ↔ v ∈ nodes := by
  have h := extends_reversePostOrder hnext hsize
  rw [reversePostOrder, h.left_iff]
  constructor
  · rintro (hv | ⟨hv, hnew⟩)
    · cases hv
    · obtain ⟨r, hr, hpath⟩ := h.reached v hv hnew
      induction hpath with
      | refl => exact hr
      | tail _ hstep ih => exact hnext _ (ih hstep.2.1 hstep.2.2) _ hstep.1
  · intro hv
    exact .inr ⟨h.roots_entered v hv, List.not_mem_nil⟩

/-- A search from all nodes leaves no node twice. -/
theorem nodup_reversePostOrder : (reversePostOrder next size nodes).Nodup :=
  (extends_reversePostOrder hnext hsize).nodup .nil fun _ hv => hv

/-- **Reverse post-order**: an edge leads forward, unless its target leads back to its source. -/
theorem forward_or_leadsTo {u v : α} (hu : u ∈ nodes) (hv : v ∈ next u) :
    [u, v].Sublist (reversePostOrder next size nodes) ∨ LeadsTo next v u := by
  have hready : Search.Ready next nodes.toFinset size nodes {} :=
    { pending_le := card_pending_nodes_le hsize
      leads := fun w hw => absurd hw.1 List.not_mem_nil
      ordered := fun w hw => absurd hw List.not_mem_nil }
  have hordered := Search.ordered_visitAll (next_mem_nodes hnext)
    (fun _ hw => List.mem_toFinset.2 hw) hready
  exact hordered u ((mem_reversePostOrder hnext hsize).2 hu) v hv

theorem mem_postOrder {v : α} : v ∈ postOrder next size nodes ↔ v ∈ nodes := by
  rw [postOrder, List.mem_reverse, mem_reversePostOrder hnext hsize]

theorem nodup_postOrder : (postOrder next size nodes).Nodup :=
  List.nodup_reverse.2 (nodup_reversePostOrder hnext hsize)

end PostOrder

end Interlock
