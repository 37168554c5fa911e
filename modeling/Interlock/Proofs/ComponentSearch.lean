import Interlock.Graph.Condensation
import Mathlib.Data.List.Infix
import Mathlib.Data.List.Nodup
import Mathlib.Data.List.Perm.Subperm
import Mathlib.Logic.Relation

/-!
# The search for components finds the strongly connected ones

While the search is under way, the nodes on the stack are ordered by number: each leads
to those above it, and back to a node of the current path further down. A node that is
its own low link closes this circle, and the nodes above it can lead to nowhere else on
the stack.

- `Digraph.Reaches`: a path along edges.
- `Digraph.IsTop`, `Digraph.Stacked`: components found in turn, each with edges only to
  itself and to those found before.
- `ComponentSearch.Invariant`: what holds while the search is under way.
- `ComponentSearch.Followed`, `ComponentSearch.Visited`: what holds after some edges of a
  node were followed, and after a search from a node.
- `ComponentSearch.visited_visit`: every search does this.
- `Digraph.components_spec`: the components are stacked and hold all nodes.
-/

namespace Interlock

namespace Digraph

variable {g : Digraph}

theorem mem_successors {u v : Nat} : v ∈ g.successors u ↔ (u, v) ∈ g.edges := by
  rw [successors, List.mem_reverse, List.mem_filterMap]
  constructor
  · rintro ⟨⟨a, b⟩, he, heq⟩
    split at heq
    · next ha =>
      obtain rfl : a = u := ha
      obtain rfl : b = v := Option.some_inj.1 heq
      exact he
    · cases heq
  · intro he
    exact ⟨(u, v), he, if_pos rfl⟩

theorem mem_nodes {v : Nat} : v ∈ g.nodes ↔ v < g.size := List.mem_range

/-- `g.Reaches u v`: a path of edges leads from `u` to `v`; it may be empty. -/
def Reaches (g : Digraph) : Nat → Nat → Prop :=
  Relation.ReflTransGen fun u v => (u, v) ∈ g.edges

theorem Reaches.refl (v : Nat) : g.Reaches v v := Relation.ReflTransGen.refl

theorem Reaches.edge {u v : Nat} (h : (u, v) ∈ g.edges) : g.Reaches u v := .single h

theorem Reaches.trans {u v w : Nat} (h : g.Reaches u v) (h' : g.Reaches v w) : g.Reaches u w :=
  Relation.ReflTransGen.trans h h'

/-! ## Components found in turn -/

/-- A strongly connected component on top of the nodes of `below`: its edges stay inside or lead
there. -/
structure IsTop (g : Digraph) (below component : List Nat) : Prop where
  nonempty : component ≠ []
  sorted : component.Pairwise (· < ·)
  lt_size : ∀ v ∈ component, v < g.size
  disjoint : ∀ v ∈ component, v ∉ below
  exits : ∀ u ∈ component, ∀ v, (u, v) ∈ g.edges → v ∈ component ∨ v ∈ below
  connected : ∀ u ∈ component, ∀ v ∈ component, g.Reaches u v

/-- A list of components, each on top of those before it. -/
inductive Stacked (g : Digraph) : List (List Nat) → Prop
  | nil : Stacked g []
  | snoc {found : List (List Nat)} {component : List Nat} :
      Stacked g found → IsTop g found.flatten component → Stacked g (found ++ [component])

theorem flatten_snoc (found : List (List Nat)) (component : List Nat) :
    (found ++ [component]).flatten = found.flatten ++ component := by
  simp

/-- Nothing leads out of stacked components. -/
theorem Stacked.closed {found : List (List Nat)} (h : Stacked g found) {u v : Nat}
    (he : (u, v) ∈ g.edges) (hu : u ∈ found.flatten) : v ∈ found.flatten := by
  induction h with
  | nil => cases hu
  | snoc _ htop ih =>
    rw [flatten_snoc, List.mem_append] at hu ⊢
    rcases hu with hu | hu
    · exact .inl (ih hu)
    · exact (htop.exits u hu v he).symm

end Digraph

namespace ComponentSearch

variable {g : Digraph} {path : List Nat} {s t : ComponentSearch} {v : Nat}

/-! ## Numbers -/

theorem number_le (s : ComponentSearch) (v : Nat) : s.number v ≤ s.entered.length := Nat.sub_le _ _

/-- A node keeps its number when others are entered. -/
theorem number_of_suffix (h : s.entered <:+ t.entered) (ht : t.entered.Nodup)
    (hv : v ∈ s.entered) : t.number v = s.number v := by
  obtain ⟨new, hnew⟩ := h
  rw [← hnew, List.nodup_append] at ht
  have hnot : v ∉ new := fun hmem => ht.2.2 v hmem v hv rfl
  unfold number
  rw [← hnew, List.length_append, List.idxOf_append_of_notMem hnot]
  omega

/-- The latest node has the largest number. -/
theorem number_of_cons_suffix (h : v :: s.entered <:+ t.entered) (ht : t.entered.Nodup) :
    t.number v = s.entered.length + 1 := by
  have hnumber := number_of_suffix (s := s.enter v) h ht List.mem_cons_self
  rw [hnumber]
  simp [number, enter]

/-- Later nodes have larger numbers. -/
theorem pairwise_number (h : s.entered.Nodup) :
    s.entered.Pairwise (fun a b => s.number b < s.number a) := by
  rw [List.pairwise_iff_getElem]
  intro i j hi hj hij
  unfold number
  rw [h.idxOf_getElem i hi, h.idxOf_getElem j hj]
  omega

/-! ## The invariant -/

/-- What holds while the search is under way. The nodes of `path` were entered and not left; they
may have edges that were not followed yet. -/
structure Invariant (g : Digraph) (path : List Nat) (s : ComponentSearch) : Prop where
  nodup : s.entered.Nodup
  lt_size : ∀ v ∈ s.entered, v < g.size
  sublist : s.stack.Sublist s.entered
  path_stack : ∀ v ∈ path, v ∈ s.stack
  entered_iff : ∀ v, v ∈ s.entered ↔ v ∈ s.stack ∨ v ∈ s.found.flatten
  disjoint : ∀ v ∈ s.stack, v ∉ s.found.flatten
  stacked : g.Stacked s.found
  /-- The edges of a node that was left lead to entered nodes. -/
  closed : ∀ u ∈ s.entered, u ∉ path → ∀ v, (u, v) ∈ g.edges → v ∈ s.entered
  /-- A node on the stack leads to those above it. -/
  down : ∀ u ∈ s.stack, ∀ v ∈ s.stack, s.number u ≤ s.number v → g.Reaches u v
  /-- A node on the stack leads to a node of the path that is not above it. -/
  up : ∀ v ∈ s.stack, ∃ u ∈ path, s.number u ≤ s.number v ∧ g.Reaches v u

namespace Invariant

theorem start (g : Digraph) : Invariant g [] {} where
  nodup := .nil
  lt_size _ hv := absurd hv List.not_mem_nil
  sublist := .slnil
  path_stack _ hv := absurd hv List.not_mem_nil
  entered_iff _ := by simp
  disjoint _ hv := absurd hv List.not_mem_nil
  stacked := .nil
  closed _ hu := absurd hu List.not_mem_nil
  down _ hu := absurd hu List.not_mem_nil
  up _ hv := absurd hv List.not_mem_nil

theorem stack_entered (h : Invariant g path s) {v : Nat} (hv : v ∈ s.stack) : v ∈ s.entered :=
  h.sublist.subset hv

theorem nodup_stack (h : Invariant g path s) : s.stack.Nodup := h.sublist.nodup h.nodup

/-- Nodes higher on the stack have larger numbers. -/
theorem number_lt {above rest : List Nat} (h : Invariant g path s)
    (hstack : s.stack = above ++ rest) {u w : Nat} (hu : u ∈ above) (hw : w ∈ rest) :
    s.number w < s.number u := by
  have hpairwise := (pairwise_number h.nodup).sublist h.sublist
  rw [hstack, List.pairwise_append] at hpairwise
  exact hpairwise.2.2 u hu w hw

/-- Entering a node that all nodes of the path lead to. -/
theorem enter (h : Invariant g path s) (hv : v < g.size) (hnew : v ∉ s.entered)
    (hpath : ∀ u ∈ path, g.Reaches u v) : Invariant g (v :: path) (s.enter v) := by
  have hnodup : (s.enter v).entered.Nodup := List.nodup_cons.2 ⟨hnew, h.nodup⟩
  have hsuffix : s.entered <:+ (s.enter v).entered := List.suffix_cons v s.entered
  have hsame : ∀ u ∈ s.stack, (s.enter v).number u = s.number u := fun u hu =>
    number_of_suffix hsuffix hnodup (h.stack_entered hu)
  have hlast : (s.enter v).number v = s.entered.length + 1 :=
    number_of_cons_suffix List.suffix_rfl hnodup
  constructor
  case nodup => exact hnodup
  case lt_size =>
    intro u hu
    rcases List.mem_cons.1 hu with rfl | hu
    · exact hv
    · exact h.lt_size u hu
  case sublist => exact h.sublist.cons_cons v
  case path_stack =>
    intro u hu
    rcases List.mem_cons.1 hu with rfl | hu
    · exact List.mem_cons_self
    · exact List.mem_cons_of_mem v (h.path_stack u hu)
  case entered_iff =>
    intro u
    show u ∈ v :: s.entered ↔ u ∈ v :: s.stack ∨ u ∈ s.found.flatten
    rw [List.mem_cons, List.mem_cons, h.entered_iff, or_assoc]
  case disjoint =>
    intro u hu hfound
    rcases List.mem_cons.1 hu with rfl | hu
    · exact hnew ((h.entered_iff u).2 (.inr hfound))
    · exact h.disjoint u hu hfound
  case stacked => exact h.stacked
  case closed =>
    intro u hu hout w he
    have huv : u ≠ v := fun heq => hout (heq ▸ List.mem_cons_self)
    have hold : u ∈ s.entered := (List.mem_cons.1 hu).resolve_left huv
    exact List.mem_cons_of_mem v
      (h.closed u hold (fun hmem => hout (List.mem_cons_of_mem v hmem)) w he)
  case down =>
    intro u hu w hw hle
    rcases List.mem_cons.1 hu with rfl | hold
    · rcases List.mem_cons.1 hw with rfl | hwold
      · exact .refl w
      · rw [hlast, hsame w hwold] at hle
        have := s.number_le w
        omega
    · rcases List.mem_cons.1 hw with rfl | hwold
      · -- a node on the stack leads to the path, and the path to the new node
        obtain ⟨p, hp, -, hup⟩ := h.up u hold
        exact hup.trans (hpath p hp)
      · rw [hsame u hold, hsame w hwold] at hle
        exact h.down u hold w hwold hle
  case up =>
    intro w hw
    rcases List.mem_cons.1 hw with rfl | hw
    · exact ⟨w, List.mem_cons_self, le_rfl, .refl w⟩
    · obtain ⟨p, hp, hle, hwp⟩ := h.up w hw
      refine ⟨p, List.mem_cons_of_mem v hp, ?_, hwp⟩
      rw [hsame p (h.path_stack p hp), hsame w hw]
      exact hle

end Invariant

/-! ## Following edges -/

/-- What holds after a search from `v`, with its low link, from `s` before. -/
structure Visited (g : Digraph) (path : List Nat) (v : Nat) (s : ComponentSearch)
    (p : Nat × ComponentSearch) : Prop where
  inv : Invariant g path p.2
  entered : s.entered <:+ p.2.entered
  stack : s.stack <:+ p.2.stack
  self : v ∈ p.2.entered
  /-- The low link is the number of `v`, or of a node on the stack that `v` leads to. -/
  low_eq : p.1 = s.entered.length + 1 ∨
    ∃ y ∈ p.2.stack, p.2.number y = p.1 ∧ g.Reaches v y
  /-- The low link bounds the edges from nodes above to nodes that were on the stack before. -/
  low_le : ∀ x ∈ p.2.stack, x ∉ s.stack → ∀ y ∈ s.stack, (x, y) ∈ g.edges → p.1 ≤ p.2.number y

/-- What holds after the edges from `v` to `ws` were followed, with the low link so far; `s` is
before `v` was entered. -/
structure Followed (g : Digraph) (path : List Nat) (v : Nat) (s : ComponentSearch) (ws : List Nat)
    (p : Nat × ComponentSearch) : Prop where
  inv : Invariant g (v :: path) p.2
  entered : v :: s.entered <:+ p.2.entered
  stack : v :: s.stack <:+ p.2.stack
  low_le_own : p.1 ≤ s.entered.length + 1
  low_eq : ∃ y ∈ p.2.stack, p.2.number y = p.1 ∧ g.Reaches v y
  targets : ∀ w ∈ ws, w ∈ p.2.entered ∧ (w ∈ s.stack → p.1 ≤ p.2.number w)
  low_le : ∀ x ∈ p.2.stack, x ∉ v :: s.stack → ∀ y ∈ s.stack, (x, y) ∈ g.edges →
    p.1 ≤ p.2.number y

/-- Before any edge is followed, the low link of a node is its own number. -/
theorem followed_enter (h : Invariant g path s) (hv : v < g.size) (hnew : v ∉ s.entered)
    (hpath : ∀ u ∈ path, g.Reaches u v) :
    Followed g path v s [] (s.entered.length + 1, s.enter v) where
  inv := h.enter hv hnew hpath
  entered := List.suffix_rfl
  stack := List.suffix_rfl
  low_le_own := le_rfl
  low_eq := ⟨v, List.mem_cons_self,
    number_of_cons_suffix List.suffix_rfl (h.enter hv hnew hpath).nodup, .refl v⟩
  targets _ hw := absurd hw List.not_mem_nil
  low_le _ hx hout := absurd hx hout

/-- A node that is its own low link is left with all nodes above it. -/
theorem leave_of_root {p : Nat × ComponentSearch} {above rest : List Nat}
    (hstack : p.2.stack = above ++ v :: rest) (hv : v ∉ above) (hlow : p.1 = p.2.number v) :
    leave g v p = (p.1, ⟨p.2.entered, rest,
      p.2.found ++ [g.nodes.filter (· ∈ above ++ [v])]⟩) := by
  obtain ⟨low, s⟩ := p
  have hne : ∀ u ∈ above, decide (u ≠ v) = true := fun u hu =>
    decide_eq_true fun heq => hv (heq ▸ hu)
  unfold leave
  dsimp only at hstack hlow ⊢
  rw [if_pos hlow, hstack, List.takeWhile_append_of_pos hne, List.dropWhile_append_of_pos hne]
  simp

theorem leave_of_inner {p : Nat × ComponentSearch} (hlow : p.1 ≠ p.2.number v) :
    leave g v p = p := by
  obtain ⟨low, s⟩ := p
  exact if_neg hlow

namespace Followed

variable {ws : List Nat} {p : Nat × ComponentSearch} {w : Nat}

/-- An edge to a node that is new. -/
theorem follow_new (h : Followed g path v s ws p) (he : (v, w) ∈ g.edges)
    (hw : w ∉ p.2.entered) {q : Nat × ComponentSearch}
    (hq : Visited g (v :: path) w p.2 q) : Followed g path v s (ws ++ [w]) (min p.1 q.1, q.2) := by
  have hsame : ∀ y ∈ p.2.stack, q.2.number y = p.2.number y := fun y hy =>
    number_of_suffix hq.entered hq.inv.nodup (h.inv.stack_entered hy)
  have hlength := h.entered.length_le
  rw [List.length_cons] at hlength
  constructor
  case inv => exact hq.inv
  case entered => exact h.entered.trans hq.entered
  case stack => exact h.stack.trans hq.stack
  case low_le_own => exact (min_le_left _ _).trans h.low_le_own
  case low_eq =>
    rcases le_total p.1 q.1 with hle | hle
    · obtain ⟨y, hy, hnumber, hvy⟩ := h.low_eq
      refine ⟨y, hq.stack.subset hy, ?_, hvy⟩
      rw [hsame y hy, hnumber, min_eq_left hle]
    · rcases hq.low_eq with hown | ⟨y, hy, hnumber, hwy⟩
      · -- the new node has a larger number than `v`
        have := h.low_le_own
        omega
      · exact ⟨y, hy, by rw [hnumber, min_eq_right hle], (Digraph.Reaches.edge he).trans hwy⟩
  case targets =>
    intro y hy
    rcases List.mem_append.1 hy with hy | hy
    · obtain ⟨hentered, hlow⟩ := h.targets y hy
      refine ⟨hq.entered.subset hentered, fun hstack => ?_⟩
      rw [hsame y (h.stack.subset (List.mem_cons_of_mem v hstack))]
      exact (min_le_left _ _).trans (hlow hstack)
    · obtain rfl := List.mem_singleton.1 hy
      refine ⟨hq.self, fun hstack => absurd ?_ hw⟩
      exact h.inv.stack_entered (h.stack.subset (List.mem_cons_of_mem v hstack))
  case low_le =>
    intro x hx hout y hy hxy
    have hyp : y ∈ p.2.stack := h.stack.subset (List.mem_cons_of_mem v hy)
    by_cases hxp : x ∈ p.2.stack
    · rw [hsame y hyp]
      exact (min_le_left _ _).trans (h.low_le x hxp hout y hy hxy)
    · exact (min_le_right _ _).trans (hq.low_le x hx hxp y hyp hxy)

/-- An edge to a node on the stack. -/
theorem follow_stack (h : Followed g path v s ws p) (he : (v, w) ∈ g.edges)
    (hw : w ∈ p.2.stack) : Followed g path v s (ws ++ [w]) (min p.1 (p.2.number w), p.2) where
  inv := h.inv
  entered := h.entered
  stack := h.stack
  low_le_own := (min_le_left _ _).trans h.low_le_own
  low_eq := by
    rcases le_total p.1 (p.2.number w) with hle | hle
    · rw [min_eq_left hle]
      exact h.low_eq
    · rw [min_eq_right hle]
      exact ⟨w, hw, rfl, .edge he⟩
  targets y hy := by
    rcases List.mem_append.1 hy with hy | hy
    · obtain ⟨hentered, hlow⟩ := h.targets y hy
      exact ⟨hentered, fun hstack => (min_le_left _ _).trans (hlow hstack)⟩
    · obtain rfl := List.mem_singleton.1 hy
      exact ⟨h.inv.stack_entered hw, fun _ => min_le_right _ _⟩
  low_le x hx hout y hy hxy := (min_le_left _ _).trans (h.low_le x hx hout y hy hxy)

/-- An edge to a node that has a component. -/
theorem follow_found (h : Followed g path v s ws p) (hentered : w ∈ p.2.entered)
    (hw : w ∉ p.2.stack) : Followed g path v s (ws ++ [w]) p where
  inv := h.inv
  entered := h.entered
  stack := h.stack
  low_le_own := h.low_le_own
  low_eq := h.low_eq
  targets y hy := by
    rcases List.mem_append.1 hy with hy | hy
    · exact h.targets y hy
    · obtain rfl := List.mem_singleton.1 hy
      exact ⟨hentered, fun hstack => absurd (h.stack.subset (List.mem_cons_of_mem v hstack)) hw⟩
  low_le := h.low_le

/-- One edge. -/
theorem follow {visit : Nat → ComponentSearch → Nat × ComponentSearch}
    (h : Followed g path v s ws p) (he : (v, w) ∈ g.edges)
    (hvisit : w ∉ p.2.entered → Visited g (v :: path) w p.2 (visit w p.2)) :
    Followed g path v s (ws ++ [w]) (follow visit p w) := by
  obtain ⟨low, t⟩ := p
  unfold ComponentSearch.follow
  dsimp only
  by_cases hnew : w ∉ t.entered
  · rw [if_pos hnew]
    exact h.follow_new he hnew (hvisit hnew)
  · rw [if_neg hnew]
    by_cases hstack : w ∈ t.stack
    · rw [if_pos hstack]
      exact h.follow_stack he hstack
    · rw [if_neg hstack]
      exact h.follow_found (not_not.1 hnew) hstack

/-- Several edges in turn. -/
theorem foldl_follow {visit : Nat → ComponentSearch → Nat × ComponentSearch}
    (hvisit : ∀ w, (v, w) ∈ g.edges → ∀ t, Invariant g (v :: path) t →
      v :: s.entered <:+ t.entered → w ∉ t.entered → Visited g (v :: path) w t (visit w t))
    (h : Followed g path v s ws p) {rest : List Nat} (hrest : ∀ w ∈ rest, (v, w) ∈ g.edges) :
    Followed g path v s (ws ++ rest) (rest.foldl (ComponentSearch.follow visit) p) := by
  induction rest generalizing ws p with
  | nil => simpa using h
  | cons w rest ih =>
    have he := hrest w List.mem_cons_self
    have hstep := h.follow he (hvisit w he p.2 h.inv h.entered)
    have hall := ih hstep fun y hy => hrest y (List.mem_cons_of_mem w hy)
    rw [List.append_assoc] at hall
    exact hall

/-! ## Leaving a node -/

section Leave

variable (h : Followed g path v s (g.successors v) p) (hs : Invariant g path s)

include h

theorem number_self : p.2.number v = s.entered.length + 1 :=
  number_of_cons_suffix h.entered h.inv.nodup

theorem number_same {y : Nat} (hy : y ∈ s.entered) : p.2.number y = s.number y :=
  number_of_suffix ((List.suffix_cons v s.entered).trans h.entered) h.inv.nodup hy

/-- All edges of the node were followed. -/
theorem mem_entered_of_edge {w : Nat} (he : (v, w) ∈ g.edges) : w ∈ p.2.entered :=
  (h.targets w (Digraph.mem_successors.2 he)).1

/-- After that, all edges of nodes off the path lead to entered nodes. -/
theorem closed_after : ∀ u ∈ p.2.entered, u ∉ path → ∀ w, (u, w) ∈ g.edges → w ∈ p.2.entered := by
  intro u hu hout w he
  by_cases huv : u = v
  · exact h.mem_entered_of_edge (huv ▸ he)
  · exact h.inv.closed u hu (fun hmem => (List.mem_cons.1 hmem).elim huv hout) w he

/-- The low link bounds all edges from new nodes to nodes that were on the stack before. -/
theorem low_le_after {x : Nat} (hx : x ∈ p.2.stack) (hout : x ∉ s.stack) {y : Nat}
    (hy : y ∈ s.stack) (he : (x, y) ∈ g.edges) : p.1 ≤ p.2.number y := by
  by_cases hxv : x = v
  · exact (h.targets y (Digraph.mem_successors.2 (hxv ▸ he))).2 hy
  · exact h.low_le x hx (fun hmem => (List.mem_cons.1 hmem).elim hxv hout) y hy he

/-- The new nodes on the stack are the node itself and those above it. -/
theorem mem_members {above : List Nat} (hstack : p.2.stack = above ++ v :: s.stack) {x : Nat} :
    x ∈ g.nodes.filter (· ∈ above ++ [v]) ↔ x ∈ p.2.stack ∧ x ∉ s.stack := by
  have hnodup := h.inv.nodup_stack
  rw [List.append_cons] at hstack
  rw [hstack, List.nodup_append] at hnodup
  rw [List.mem_filter, decide_eq_true_iff, hstack, List.mem_append (t := s.stack),
    Digraph.mem_nodes]
  constructor
  · rintro ⟨-, hx⟩
    exact ⟨.inl hx, fun hold => hnodup.2.2 x hx x hold rfl⟩
  · rintro ⟨hx, hout⟩
    have hnew := hx.resolve_right hout
    refine ⟨h.inv.lt_size x (h.inv.stack_entered ?_), hnew⟩
    rw [hstack]
    exact List.mem_append_left _ hnew

include hs

/-- If the node is its own low link, nodes above it lead only to such nodes and to components found
before. -/
theorem exits_new (hlow : p.1 = p.2.number v) {x y : Nat} (hx : x ∈ p.2.stack)
    (hout : x ∉ s.stack) (he : (x, y) ∈ g.edges) :
    y ∈ p.2.stack ∧ y ∉ s.stack ∨ y ∈ p.2.found.flatten := by
  have hpath : x ∉ path := fun hmem => hout (hs.path_stack x hmem)
  have hentered := h.closed_after x (h.inv.stack_entered hx) hpath y he
  rcases (h.inv.entered_iff y).1 hentered with hy | hy
  · refine .inl ⟨hy, fun hold => ?_⟩
    -- an edge further down would have a smaller number
    have hle := h.low_le_after hx hout hold he
    rw [hlow, h.number_self, h.number_same (hs.stack_entered hold)] at hle
    have := s.number_le y
    omega
  · exact .inr hy

/-- The same along a whole path. -/
theorem reaches_new (hlow : p.1 = p.2.number v) {x y : Nat} (hx : x ∈ p.2.stack)
    (hout : x ∉ s.stack) (hxy : g.Reaches x y) :
    y ∈ p.2.stack ∧ y ∉ s.stack ∨ y ∈ p.2.found.flatten := by
  induction hxy with
  | refl => exact .inl ⟨hx, hout⟩
  | tail _ he ih =>
    rcases ih with ⟨hy, hyout⟩ | hy
    · exact h.exits_new hs hlow hy hyout he
    · exact .inr (h.inv.stacked.closed he hy)

/-- If the node is its own low link, all nodes above it lead to it. -/
theorem reaches_self (hlow : p.1 = p.2.number v) {x : Nat} (hx : x ∈ p.2.stack)
    (hout : x ∉ s.stack) : g.Reaches x v := by
  obtain ⟨u, hu, -, hxu⟩ := h.inv.up x hx
  rcases List.mem_cons.1 hu with rfl | hu
  · exact hxu
  · -- the rest of the path is further down, where nothing leads to
    have hold := hs.path_stack u hu
    have hnew : u ∈ p.2.stack := h.stack.subset (List.mem_cons_of_mem v hold)
    rcases h.reaches_new hs hlow hx hout hxu with ⟨-, huout⟩ | hfound
    · exact absurd hold huout
    · exact absurd hfound (h.inv.disjoint u hnew)

/-- The new nodes on the stack form a component if the node is its own low link. -/
theorem isTop_members (hlow : p.1 = p.2.number v) {above : List Nat}
    (hstack : p.2.stack = above ++ v :: s.stack) :
    g.IsTop p.2.found.flatten (g.nodes.filter (· ∈ above ++ [v])) := by
  have hmem : ∀ x, x ∈ g.nodes.filter (· ∈ above ++ [v]) ↔ x ∈ p.2.stack ∧ x ∉ s.stack :=
    fun x => h.mem_members hstack
  have hself : v ∈ p.2.stack := h.stack.subset List.mem_cons_self
  constructor
  case nonempty =>
    have hv : v ∈ g.nodes.filter (· ∈ above ++ [v]) := by
      rw [List.mem_filter, decide_eq_true_iff, Digraph.mem_nodes]
      exact ⟨h.inv.lt_size v (h.inv.stack_entered hself),
        List.mem_append_right _ List.mem_cons_self⟩
    exact List.ne_nil_of_mem hv
  case sorted => exact List.pairwise_lt_range.filter _
  case lt_size =>
    intro x hx
    exact Digraph.mem_nodes.1 (List.mem_of_mem_filter hx)
  case disjoint =>
    intro x hx
    exact h.inv.disjoint x ((hmem x).1 hx).1
  case exits =>
    intro x hx y he
    obtain ⟨hstack, hout⟩ := (hmem x).1 hx
    rw [hmem]
    exact h.exits_new hs hlow hstack hout he
  case connected =>
    intro x hx y hy
    obtain ⟨hxstack, hxout⟩ := (hmem x).1 hx
    refine (h.reaches_self hs hlow hxstack hxout).trans (h.inv.down v hself y ((hmem y).1 hy).1 ?_)
    -- `v` is the lowest of them
    rw [List.mem_filter, decide_eq_true_iff, List.mem_append] at hy
    rcases hy.2 with habove | heq
    · exact (h.inv.number_lt hstack habove List.mem_cons_self).le
    · rw [List.mem_singleton.1 heq]

/-- The component is taken off the stack. -/
theorem visited_leave_root (hlow : p.1 = p.2.number v) {component : List Nat}
    (hmem : ∀ x, x ∈ component ↔ x ∈ p.2.stack ∧ x ∉ s.stack)
    (htop : g.IsTop p.2.found.flatten component) :
    Visited g path v s (p.1, ⟨p.2.entered, s.stack, p.2.found ++ [component]⟩) := by
  have hstack : s.stack <:+ p.2.stack := (List.suffix_cons v s.stack).trans h.stack
  have hsame : ∀ y ∈ s.stack,
      number ⟨p.2.entered, s.stack, p.2.found ++ [component]⟩ y = s.number y := fun y hy =>
    h.number_same (hs.stack_entered hy)
  constructor
  case inv =>
    constructor
    case nodup => exact h.inv.nodup
    case lt_size => exact h.inv.lt_size
    case sublist => exact hstack.sublist.trans h.inv.sublist
    case path_stack => exact hs.path_stack
    case entered_iff =>
      intro x
      dsimp only
      rw [Digraph.flatten_snoc, List.mem_append, hmem, h.inv.entered_iff]
      have hold : x ∈ s.stack → x ∈ p.2.stack := fun hx => hstack.subset hx
      tauto
    case disjoint =>
      intro x hx hfound
      dsimp only at hfound
      rw [Digraph.flatten_snoc, List.mem_append, hmem] at hfound
      rcases hfound with hfound | ⟨-, hout⟩
      · exact h.inv.disjoint x (hstack.subset hx) hfound
      · exact hout hx
    case stacked => exact h.inv.stacked.snoc htop
    case closed => exact h.closed_after
    case down =>
      intro x hx y hy hle
      rw [hsame x hx, hsame y hy] at hle
      exact hs.down x hx y hy hle
    case up =>
      intro x hx
      obtain ⟨u, hu, hle, hxu⟩ := hs.up x hx
      refine ⟨u, hu, ?_, hxu⟩
      rw [hsame u (hs.path_stack u hu), hsame x hx]
      exact hle
  case entered => exact (List.suffix_cons v s.entered).trans h.entered
  case stack => exact List.suffix_rfl
  case self => exact h.entered.subset List.mem_cons_self
  case low_eq => exact .inl (hlow.trans h.number_self)
  case low_le =>
    intro x hx hout
    exact absurd hx hout

omit hs in
/-- A node with a smaller low link stays on the stack: it leads further down the path. -/
theorem visited_leave_inner (hlow : p.1 ≠ p.2.number v) :
    Visited g path v s p := by
  have hlt : p.1 < p.2.number v := by
    have := h.low_le_own
    have := h.number_self
    omega
  constructor
  case inv =>
    constructor
    case nodup => exact h.inv.nodup
    case lt_size => exact h.inv.lt_size
    case sublist => exact h.inv.sublist
    case path_stack => exact fun u hu => h.inv.path_stack u (List.mem_cons_of_mem v hu)
    case entered_iff => exact h.inv.entered_iff
    case disjoint => exact h.inv.disjoint
    case stacked => exact h.inv.stacked
    case closed => exact h.closed_after
    case down => exact h.inv.down
    case up =>
      intro x hx
      obtain ⟨u, hu, hle, hxu⟩ := h.inv.up x hx
      rcases List.mem_cons.1 hu with rfl | hu
      · -- through the node of the low link
        obtain ⟨y, hy, hnumber, huy⟩ := h.low_eq
        obtain ⟨z, hz, hzle, hyz⟩ := h.inv.up y hy
        rcases List.mem_cons.1 hz with rfl | hz
        · omega
        · exact ⟨z, hz, by omega, (hxu.trans huy).trans hyz⟩
      · exact ⟨u, hu, hle, hxu⟩
  case entered => exact (List.suffix_cons v s.entered).trans h.entered
  case stack => exact (List.suffix_cons v s.stack).trans h.stack
  case self => exact h.entered.subset List.mem_cons_self
  case low_eq => exact .inr h.low_eq
  case low_le =>
    intro x hx hout y hy he
    exact h.low_le_after hx hout hy he

/-- Leaving a node. -/
theorem visited_leave : Visited g path v s (leave g v p) := by
  obtain ⟨above, hstack⟩ := h.stack
  by_cases hlow : p.1 = p.2.number v
  · have hv : v ∉ above := by
      intro hmem
      have := h.inv.number_lt hstack.symm hmem List.mem_cons_self
      omega
    rw [leave_of_root hstack.symm hv hlow]
    exact h.visited_leave_root hs hlow (fun x => h.mem_members hstack.symm)
      (h.isTop_members hs hlow hstack.symm)
  · rw [leave_of_inner hlow]
    exact h.visited_leave_inner hlow

end Leave

end Followed

/-! ## The whole search -/

/-- A new node leaves room for it. -/
theorem Invariant.length_lt (h : Invariant g path s) (hv : v < g.size) (hnew : v ∉ s.entered) :
    s.entered.length < g.size := by
  have hsub : v :: s.entered ⊆ List.range g.size := by
    intro u hu
    rcases List.mem_cons.1 hu with rfl | hu
    · exact List.mem_range.2 hv
    · exact List.mem_range.2 (h.lt_size u hu)
  have hlength := ((List.nodup_cons.2 ⟨hnew, h.nodup⟩).subperm hsub).length_le
  rw [List.length_cons, List.length_range] at hlength
  exact hlength

/-- A search from a new node that the whole path leads to. The depth is enough for the nodes that
are left. -/
theorem visited_visit (hg : g.WellFormed) {depth : Nat} (hdepth : g.size ≤ depth + s.entered.length)
    (h : Invariant g path s) (hv : v < g.size) (hnew : v ∉ s.entered)
    (hpath : ∀ u ∈ path, g.Reaches u v) : Visited g path v s (visit g depth v s) := by
  induction depth generalizing path s v with
  | zero =>
    have := h.length_lt hv hnew
    omega
  | succ depth ih =>
    rw [visit]
    refine Followed.visited_leave (Followed.foldl_follow ?_ (followed_enter h hv hnew hpath) ?_) h
    · intro w he t ht hsuffix hw
      have hlength := hsuffix.length_le
      rw [List.length_cons] at hlength
      refine ih (by omega) ht (hg _ he).2 hw ?_
      intro u hu
      rcases List.mem_cons.1 hu with rfl | hu
      · exact .edge he
      · exact (hpath u hu).trans (.edge he)
    · intro w hw
      exact Digraph.mem_successors.1 hw

/-- Starting from each of some nodes in turn. -/
theorem foldl_visitNew (hg : g.WellFormed) {vs : List Nat} (hvs : ∀ v ∈ vs, v < g.size)
    (h : Invariant g [] s) :
    Invariant g [] (vs.foldl (visitNew g) s) ∧
      s.entered ⊆ (vs.foldl (visitNew g) s).entered ∧
      ∀ v ∈ vs, v ∈ (vs.foldl (visitNew g) s).entered := by
  induction vs generalizing s with
  | nil => exact ⟨h, List.Subset.refl _, fun v hv => absurd hv List.not_mem_nil⟩
  | cons v vs ih =>
    -- one node: nothing is done if it was entered before
    have hstep : Invariant g [] (visitNew g s v) ∧ s.entered ⊆ (visitNew g s v).entered ∧
        v ∈ (visitNew g s v).entered := by
      unfold visitNew
      by_cases hmem : v ∈ s.entered
      · rw [if_pos hmem]
        exact ⟨h, List.Subset.refl _, hmem⟩
      · rw [if_neg hmem]
        -- the path is empty here, so nothing has to lead to the node
        have hvisited := visited_visit hg (Nat.le_add_right g.size s.entered.length) h
          (hvs v List.mem_cons_self) hmem fun u hu => absurd hu List.not_mem_nil
        exact ⟨hvisited.inv, hvisited.entered.subset, hvisited.self⟩
    obtain ⟨hinv, hsub, hmem⟩ := hstep
    obtain ⟨hall, hallsub, hallmem⟩ := ih (fun w hw => hvs w (List.mem_cons_of_mem v hw)) hinv
    refine ⟨hall, List.Subset.trans hsub hallsub, ?_⟩
    intro w hw
    rcases List.mem_cons.1 hw with rfl | hw
    · exact hallsub hmem
    · exact hallmem w hw

end ComponentSearch

namespace Digraph

variable {g : Digraph}

/-- **Components found in turn**: the components are stacked and hold all nodes. Nothing is left on
the stack when all nodes were tried. -/
theorem components_spec (hg : g.WellFormed) :
    Stacked g g.components ∧ ∀ v, v ∈ g.components.flatten ↔ v < g.size := by
  obtain ⟨hinv, -, hall⟩ := ComponentSearch.foldl_visitNew hg (fun v hv => mem_nodes.1 hv)
    (ComponentSearch.Invariant.start g)
  refine ⟨hinv.stacked, fun v => ?_⟩
  have hstack : v ∉ (g.nodes.foldl (ComponentSearch.visitNew g) {}).stack := by
    intro hv
    obtain ⟨u, hu, -⟩ := hinv.up v hv
    exact absurd hu List.not_mem_nil
  constructor
  · intro hv
    exact hinv.lt_size v ((hinv.entered_iff v).2 (.inr hv))
  · intro hv
    exact ((hinv.entered_iff v).1 (hall v (mem_nodes.2 hv))).resolve_left hstack

end Digraph

end Interlock
