import Interlock.Proofs.Search
import Interlock.Proofs.Solver

/-!
# The order of block visits

The solver visits blocks in reverse post-order. This order has the blocks that some path
leads to, each once, and an edge leads forward in it unless it is on a cycle. The worklist
keeps the waiting blocks sorted by it.

- `FlowGraph.mem_reversePostOrder`, `FlowGraph.nodup_reversePostOrder`: what is in the order.
- `FlowGraph.forward_or_leadsTo`: edges lead forward in the order, or are on a cycle.
- `FlowGraph.liveAcyclic_iff`: no cycle is reachable exactly if all edges lead forward, which can be
  decided.
- `FlowGraph.IsTopological`: orders in which each reachable block comes after its reachable
  predecessors; reverse post-order is one, if no cycle is reachable.
- `FlowGraph.liveEdges_eq`: the edges of reachable blocks, counted along the order.
- `Worklist.IsSorted`: the waiting blocks are sorted, and none waits twice.
-/

namespace Interlock

/-! ## Before and after in a list without repetitions -/

section Pairs

variable {α : Type} {a b c : α} {l₁ l₂ : List α}

theorem not_mem_of_nodup_middle (hnodup : (l₁ ++ b :: l₂).Nodup) : b ∉ l₁ ∧ b ∉ l₂ := by
  rw [← not_or, ← List.mem_append]
  exact (List.nodup_cons.1 (List.nodup_middle.1 hnodup)).1

/-- In a list without repetitions, what comes before an element stands to its left. -/
theorem mem_left_of_pair_sublist (hnodup : (l₁ ++ b :: l₂).Nodup)
    (h : [a, b].Sublist (l₁ ++ b :: l₂)) : a ∈ l₁ := by
  obtain ⟨-, hb⟩ := not_mem_of_nodup_middle hnodup
  obtain ⟨front, back, heq, hfront, hback⟩ := List.sublist_append_iff.1 h
  cases front with
  | nil =>
    rw [List.nil_append] at heq
    rw [← heq] at hback
    exact absurd (List.singleton_sublist.1 hback.of_cons_cons) hb
  | cons x front =>
    obtain ⟨rfl, -⟩ := List.cons.inj heq
    exact hfront.subset List.mem_cons_self

/-- What comes after it stands to its right. -/
theorem mem_right_of_pair_sublist (hnodup : (l₁ ++ b :: l₂).Nodup)
    (h : [b, c].Sublist (l₁ ++ b :: l₂)) : c ∈ l₂ := by
  obtain ⟨hb, -⟩ := not_mem_of_nodup_middle hnodup
  obtain ⟨front, back, heq, hfront, hback⟩ := List.sublist_append_iff.1 h
  cases front with
  | nil =>
    rw [List.nil_append] at heq
    rw [← heq] at hback
    exact List.singleton_sublist.1 hback.of_cons_cons
  | cons x front =>
    obtain ⟨rfl, -⟩ := List.cons.inj heq
    exact absurd (hfront.subset List.mem_cons_self) hb

theorem idxOf_lt_idxOf_of_mem [DecidableEq α] (hnodup : (l₁ ++ b :: l₂).Nodup) (hc : c ∈ l₂) :
    (l₁ ++ b :: l₂).idxOf b < (l₁ ++ b :: l₂).idxOf c := by
  obtain ⟨hb, hb'⟩ := not_mem_of_nodup_middle hnodup
  have hc' : c ∉ l₁ := fun hmem =>
    List.disjoint_of_nodup_append hnodup hmem (List.mem_cons_of_mem b hc)
  have hbc : b ≠ c := fun heq => hb' (heq ▸ hc)
  rw [List.idxOf_append_of_notMem hb, List.idxOf_append_of_notMem hc', List.idxOf_cons_self,
    List.idxOf_cons_ne l₂ hbc]
  omega

end Pairs

namespace FlowGraph

variable {Op : Type} {g : FlowGraph Op}

/-! ## Reverse post-order -/

/-- The search takes the edges that lead to blocks of the graph. -/
theorem mem_next {a b : Nat} : b ∈ g.next a ↔ b ∈ g.successors a ∧ b < g.size := by
  rw [next, List.mem_filter, List.mem_reverse, decide_eq_true_eq]

/-- In a graph without dangling edges it takes all, the last one first. -/
theorem next_of_wellFormed (hg : g.WellFormed) (v : Nat) : g.next v = (g.successors v).reverse :=
  List.filter_eq_self.2 fun _ hw =>
    decide_eq_true (hg.lt_size (List.mem_reverse.1 hw))

theorem next_mem_range (v : Nat) (_ : v ∈ Finset.range g.size) (w : Nat) (hw : w ∈ g.next v) :
    w ∈ Finset.range g.size :=
  Finset.mem_range.2 (mem_next.1 hw).2

/-- The fuel of the search is enough: at first, no more blocks are pending than there are. -/
theorem card_pending_le (g : FlowGraph Op) :
    (Search.pending (Finset.range g.size) {}).card ≤ g.size := by
  refine (Finset.card_le_card Finset.sdiff_subset).trans ?_
  rw [Finset.card_range]

theorem mem_range_of_mem_entry (h0 : 0 < g.size) (v : Nat) (hv : v ∈ [0]) :
    v ∈ Finset.range g.size := by
  rw [List.mem_singleton.1 hv]
  exact Finset.mem_range.2 h0

/-- The visiting order comes from one search that starts at the entry. -/
theorem extends_reversePostOrder (h0 : 0 < g.size) :
    Search.Extends g.next [0] {} (Search.visitAll g.next g.size [0] {}) :=
  Search.extends_visitAll next_mem_range g.size (mem_range_of_mem_entry h0) g.card_pending_le

theorem reversePostOrder_eq (h0 : 0 < g.size) :
    g.reversePostOrder = (Search.visitAll g.next g.size [0] {}).left := by
  rw [reversePostOrder, if_neg h0.ne']
  rfl

theorem reversePostOrder_eq_nil (h : ¬ 0 < g.size) : g.reversePostOrder = [] := by
  rw [reversePostOrder, if_pos (Nat.eq_zero_of_not_pos h)]

/-- The visiting order has each block at most once. -/
theorem nodup_reversePostOrder (g : FlowGraph Op) : g.reversePostOrder.Nodup := by
  by_cases h0 : 0 < g.size
  · rw [reversePostOrder_eq h0]
    exact (extends_reversePostOrder h0).nodup .nil fun _ hv => hv
  · rw [reversePostOrder_eq_nil h0]
    exact List.nodup_nil

/-- **Reachable blocks**: the visiting order has the blocks of the graph that some path leads to. -/
theorem mem_reversePostOrder {b : Nat} :
    b ∈ g.reversePostOrder ↔ b < g.size ∧ g.Reachable b := by
  by_cases h0 : 0 < g.size
  · have hextends := extends_reversePostOrder h0
    have hleft : ∀ v, v ∈ (Search.visitAll g.next g.size [0] {}).left ↔
        v ∈ (Search.visitAll g.next g.size [0] {}).entered := by
      intro v
      rw [hextends.left_iff v]
      simp
    rw [reversePostOrder_eq h0, hleft]
    constructor
    · intro hb
      obtain ⟨r, hr, hpath⟩ := hextends.reached b hb List.not_mem_nil
      obtain rfl := List.mem_singleton.1 hr
      -- by induction on the way from the entry, which the search took along edges of the graph
      clear hb
      induction hpath with
      | refl => exact ⟨h0, .entry⟩
      | tail _ hstep ih =>
        obtain ⟨hsucc, hlt⟩ := mem_next.1 hstep.1
        exact ⟨hlt, ih.2.step hsucc⟩
    · rintro ⟨hlt, p, hp⟩
      induction hp with
      | entry => exact hextends.roots_entered 0 (List.mem_singleton_self 0)
      | step _ hb ih =>
        -- only blocks of the graph have successors, so the path stays in the graph
        exact hextends.closed _ (ih (lt_size_of_mem_successors hb)) List.not_mem_nil _
          (mem_next.2 ⟨hb, hlt⟩)
  · rw [reversePostOrder_eq_nil h0]
    constructor
    · intro hb
      cases hb
    · rintro ⟨hlt, -⟩
      omega

/-- The rank of a reachable block is its place in the visiting order. -/
theorem rank_worklist_of_mem {b : Nat} (hb : b ∈ g.reversePostOrder) :
    g.worklist.rank b = g.reversePostOrder.idxOf b := if_pos hb

/-- All other blocks have the same rank, which is larger. -/
theorem rank_worklist_of_not_mem {b : Nat} (hb : b ∉ g.reversePostOrder) :
    g.worklist.rank b = wordMax := if_neg hb

theorem lt_size_of_mem_reversePostOrder {b : Nat} (hb : b ∈ g.reversePostOrder) : b < g.size :=
  (mem_reversePostOrder.1 hb).1

theorem leadsTo_successors {a b : Nat} (h : LeadsTo g.next a b) : LeadsTo g.successors a b :=
  Relation.ReflTransGen.mono (fun _ _ hstep => (mem_next.1 hstep).1) _ _ h

/-- **Forward edges**: an edge leads forward in the visiting order, unless its target leads back to
its source. -/
theorem forward_or_leadsTo {a b : Nat} (ha : a ∈ g.reversePostOrder) (hb : b ∈ g.successors a)
    (hlt : b < g.size) : [a, b].Sublist g.reversePostOrder ∨ LeadsTo g.successors b a := by
  have h0 : 0 < g.size := Nat.zero_lt_of_lt hlt
  -- nothing is entered before the search, so what it asks of its start holds trivially
  have hready : Search.Ready g.next (Finset.range g.size) g.size [0] {} :=
    { pending_le := g.card_pending_le
      leads := fun v hv => absurd hv.1 List.not_mem_nil
      ordered := fun u hu => absurd hu List.not_mem_nil }
  have hordered := Search.ordered_visitAll next_mem_range (mem_range_of_mem_entry h0) hready
  rw [reversePostOrder_eq h0] at ha ⊢
  exact (hordered a ha b (mem_next.2 ⟨hb, hlt⟩)).imp_right leadsTo_successors

/-- The edges of the reachable blocks, counted along the visiting order. -/
theorem liveEdges_eq (g : FlowGraph Op) :
    g.liveEdges = (g.reversePostOrder.flatMap g.successors).length := by
  have hblocks : g.reachableBlocks = g.reversePostOrder.toFinset := by
    ext b
    rw [mem_reachableBlocks, List.mem_toFinset, mem_reversePostOrder]
  rw [liveEdges, hblocks, List.sum_toFinset _ g.nodup_reversePostOrder, List.length_flatMap]

/-- The number of reachable blocks, counted along the visiting order. -/
theorem card_reachableBlocks (g : FlowGraph Op) :
    g.reachableBlocks.card = g.reversePostOrder.length := by
  rw [← List.toFinset_card_of_nodup g.nodup_reversePostOrder]
  congr 1
  ext b
  rw [mem_reachableBlocks, List.mem_toFinset, mem_reversePostOrder]

/-- Every reachable block but the entry is the target of an edge that leaves a reachable block. -/
theorem length_reversePostOrder_le (g : FlowGraph Op) :
    g.reversePostOrder.length ≤ 1 + g.liveEdges := by
  have hsubset : g.reversePostOrder ⊆ 0 :: g.reversePostOrder.flatMap g.successors := by
    intro b hb
    obtain ⟨-, path, hpath⟩ := mem_reversePostOrder.1 hb
    cases hpath with
    | entry => exact List.mem_cons_self
    | @step path a _ hpath hsucc =>
      have ha : a ∈ g.reversePostOrder :=
        mem_reversePostOrder.2 ⟨lt_size_of_mem_successors hsucc, path, hpath⟩
      exact List.mem_cons_of_mem 0 (List.mem_flatMap.2 ⟨a, ha, hsucc⟩)
  have hle := (List.subperm_of_subset g.nodup_reversePostOrder hsubset).length_le
  rw [List.length_cons, ← liveEdges_eq] at hle
  omega

/-! ## Topological orders -/

/-- No path leads into a cycle. -/
def LiveAcyclic (g : FlowGraph Op) : Prop :=
  ∀ b, g.Reachable b → ¬ Relation.TransGen (fun a c => c ∈ g.successors a) b b

/-- **Cycles**: no path leads into a cycle exactly if every edge that some path takes leads forward
in reverse post-order. -/
theorem liveAcyclic_iff : g.LiveAcyclic ↔ ∀ a ∈ g.reversePostOrder, ∀ b ∈ g.successors a,
    g.reversePostOrder.idxOf a < g.reversePostOrder.idxOf b := by
  constructor
  · intro hacyclic a ha b hb
    by_cases hlt : b < g.size
    · refine (forward_or_leadsTo ha hb hlt).elim (fun hpair => ?_) fun hback => ?_
      · obtain ⟨front, back, hsplit⟩ := List.append_of_mem (hpair.subset List.mem_cons_self)
        have hnodup := g.nodup_reversePostOrder
        rw [hsplit] at hpair hnodup ⊢
        exact idxOf_lt_idxOf_of_mem hnodup (mem_right_of_pair_sublist hnodup hpair)
      · exact absurd (.head' hb hback) (hacyclic a (mem_reversePostOrder.1 ha).2)
    · have hout : b ∉ g.reversePostOrder := fun hmem => hlt (lt_size_of_mem_reversePostOrder hmem)
      rw [List.idxOf_eq_length hout]
      exact List.idxOf_lt_length_of_mem ha
  · intro hforward b hb hcycle
    -- along a way that only leads forward, places in the order grow
    have hrank : ∀ c, Relation.TransGen (fun a c => c ∈ g.successors a) b c →
        g.Reachable c ∧ g.reversePostOrder.idxOf b < g.reversePostOrder.idxOf c := by
      intro c hc
      induction hc with
      | single hstep =>
        exact ⟨hb.step hstep,
          hforward b (mem_reversePostOrder.2 ⟨lt_size_of_mem_successors hstep, hb⟩) _ hstep⟩
      | tail _ hstep ih =>
        exact ⟨ih.1.step hstep, ih.2.trans (hforward _
          (mem_reversePostOrder.2 ⟨lt_size_of_mem_successors hstep, ih.1⟩) _ hstep)⟩
    exact Nat.lt_irrefl _ (hrank b hcycle).2

instance (g : FlowGraph Op) : Decidable g.LiveAcyclic := decidable_of_iff _ liveAcyclic_iff.symm

/-- The list has each block of the graph that some path leads to once, after all predecessors that
some path leads to. -/
structure IsTopological (g : FlowGraph Op) (order : List Nat) : Prop where
  nodup : order.Nodup
  mem_iff : ∀ b, b ∈ order ↔ b < g.size ∧ g.Reachable b
  forward : ∀ b ∈ order, ∀ a ∈ g.predecessors b, g.Reachable a → [a, b].Sublist order

/-- Reverse post-order is a topological order, if no path leads into a cycle. -/
theorem isTopological_reversePostOrder (hm : g.Mirrored) (hacyclic : g.LiveAcyclic) :
    g.IsTopological g.reversePostOrder where
  nodup := g.nodup_reversePostOrder
  mem_iff _ := mem_reversePostOrder
  forward b hb a ha hreach := by
    have hlt := lt_size_of_mem_reversePostOrder hb
    have hsucc : b ∈ g.successors a := (hm a b hlt).1 ha
    have hmem : a ∈ g.reversePostOrder :=
      mem_reversePostOrder.2 ⟨lt_size_of_mem_successors hsucc, hreach⟩
    refine (forward_or_leadsTo hmem hsucc hlt).resolve_right fun hback => ?_
    exact hacyclic a hreach (.head' hsucc hback)

end FlowGraph

/-! ## Waiting blocks -/

namespace Worklist

variable {w : Worklist} {b : Nat}

theorem order_push (w : Worklist) (b : Nat) : (w.push b).order = w.order := by
  rw [push]
  split <;> rfl

theorem order_pushAll (w : Worklist) (bs : List Nat) : (w.pushAll bs).order = w.order := by
  induction bs generalizing w with
  | nil => rfl
  | cons b bs ih => rw [pushAll, List.foldl_cons, ← pushAll, ih, order_push]

theorem rank_push (w : Worklist) (b : Nat) : (w.push b).rank = w.rank :=
  funext fun c => by rw [rank, rank, order_push]

/-- A block is inserted where its rank belongs. -/
theorem pairwise_insertBy {rank : Nat → Nat} {l : List Nat}
    (h : l.Pairwise fun x y => rank x ≤ rank y) (b : Nat) :
    (insertBy rank b l).Pairwise fun x y => rank x ≤ rank y := by
  induction l with
  | nil => exact List.pairwise_singleton _ b
  | cons c l ih =>
    obtain ⟨hfirst, hrest⟩ := List.pairwise_cons.1 h
    rw [insertBy]
    split
    · next hlt =>
      refine List.pairwise_cons.2 ⟨fun x hx => ?_, h⟩
      rcases List.mem_cons.1 hx with rfl | hx
      · exact Nat.le_of_lt hlt
      · exact (Nat.le_of_lt hlt).trans (hfirst x hx)
    · next hnot =>
      refine List.pairwise_cons.2 ⟨fun x hx => ?_, ih hrest⟩
      rcases mem_insertBy.1 hx with rfl | hx
      · exact Nat.le_of_not_lt hnot
      · exact hfirst x hx

theorem nodup_insertBy {rank : Nat → Nat} {l : List Nat} (h : l.Nodup) (hb : b ∉ l) :
    (insertBy rank b l).Nodup := by
  induction l with
  | nil => exact List.nodup_singleton b
  | cons c l ih =>
    obtain ⟨hc, hl⟩ := List.nodup_cons.1 h
    obtain ⟨hbc, hbl⟩ := not_or.1 (mt List.mem_cons.2 hb)
    rw [insertBy]
    split
    · exact List.nodup_cons.2 ⟨hb, h⟩
    · refine List.nodup_cons.2 ⟨fun hmem => ?_, ih hl hbl⟩
      rcases mem_insertBy.1 hmem with heq | hmem
      · exact hbc heq.symm
      · exact hc hmem

/-- The waiting blocks are in the visiting order, and none waits twice. -/
structure IsSorted (w : Worklist) : Prop where
  ranked : w.waiting.Pairwise fun b c => w.rank b ≤ w.rank c
  nodup : w.waiting.Nodup

/-- A pushed block is sorted in, unless it waits already. -/
theorem IsSorted.push (h : w.IsSorted) (b : Nat) : (w.push b).IsSorted := by
  constructor
  · rw [rank_push, Worklist.push]
    split
    · exact h.ranked
    · exact pairwise_insertBy h.ranked b
  · rw [Worklist.push]
    split
    · exact h.nodup
    · next hnew => exact nodup_insertBy h.nodup hnew

theorem IsSorted.pushAll (h : w.IsSorted) (bs : List Nat) : (w.pushAll bs).IsSorted := by
  induction bs generalizing w with
  | nil => exact h
  | cons b bs ih => exact ih (h.push b)

/-- The block of least rank is handed out and waits no longer. -/
theorem IsSorted.exists_pop (h : w.IsSorted) (hb : b ∈ w.waiting)
    (hleast : ∀ c ∈ w.waiting, c ≠ b → w.rank b < w.rank c) :
    ∃ rest, w.pop? = some (b, rest) ∧ rest.order = w.order ∧ rest.IsSorted ∧
      ∀ c, c ∈ rest.waiting ↔ c ∈ w.waiting ∧ c ≠ b := by
  obtain ⟨order, waiting⟩ := w
  cases waiting with
  | nil => cases hb
  | cons first rest =>
    obtain ⟨hfirst, hranked⟩ := List.pairwise_cons.1 h.ranked
    obtain ⟨hnew, hnodup⟩ := List.nodup_cons.1 h.nodup
    -- the first block has the least rank of all, which no other block shares with `b`
    have heq : first = b := by
      refine Decidable.of_not_not fun hne => ?_
      have hmem := (List.mem_cons.1 hb).resolve_left (Ne.symm hne)
      exact absurd (hleast first List.mem_cons_self hne) (Nat.not_lt.2 (hfirst b hmem))
    subst heq
    refine ⟨⟨order, rest⟩, rfl, rfl, ⟨hranked, hnodup⟩, fun c => ?_⟩
    show c ∈ rest ↔ c ∈ first :: rest ∧ c ≠ first
    constructor
    · intro hc
      exact ⟨List.mem_cons_of_mem first hc, fun heq => hnew (heq ▸ hc)⟩
    · rintro ⟨hc, hne⟩
      exact (List.mem_cons.1 hc).resolve_left hne

end Worklist

end Interlock
