import Interlock.Proofs.Guarded.CallGraph
import Interlock.Proofs.Guarded.Solver

/-!
# The orders that searches give

Depth-first search orders two things: the blocks of a graph, latest left first, and the
methods of a recursive component, earliest left first. Both orders have what they should
have once, and all edges that are not on cycles lead the same way in them.

- `FlowGraph.reversePostOrder_exact`: the order of blocks has those that some path leads to,
  the entry first, and the worklist numbers blocks by it.
- `CallsWithin`: the calls between listed methods.
- `CallsWithin.leadsTo`, `exists_callsWithin`: the search follows these calls.
- `calleeFirst_exact`: the order of methods has each listed one, callees first, and the
  smallest one of a component last.
-/

namespace Interlock

/-! ## Blocks -/

namespace FlowGraph

variable {Op : Type} {g : FlowGraph Op}

/-- The entry is left last. -/
theorem head?_reversePostOrder (h0 : 0 < g.size) : g.reversePostOrder.head? = some 0 := by
  rw [reversePostOrder_eq h0]
  exact Search.head?_left_visitAll next_mem_range (Finset.mem_range.2 h0) g.card_pending_le
    fun v hv => absurd hv List.not_mem_nil

/-- In a well-formed graph the order has all blocks that some path leads to. -/
theorem mem_reversePostOrder_iff (h0 : 0 < g.size) (hg : g.WellFormed) {b : Nat} :
    b ∈ g.reversePostOrder ↔ g.Reachable b := by
  rw [mem_reversePostOrder]
  exact and_iff_right_of_imp fun hb => hb.lt_size hg h0

/-- **Reverse post-order of blocks**: the order of a graph with an entry, all of whose edges lead to
blocks. The search with an explicit stack comes to an end and gives it. It has the blocks that some
path leads to, each once and the entry first. An edge leads forward unless its target leads back to
its source, so if no path leads into a cycle, all edges lead forward. The worklist gives each block
of the order its place, and all others the greatest number. -/
theorem reversePostOrder_exact (g : FlowGraph Op) (h0 : 0 < g.size) (hg : g.WellFormed) :
    g.reversePostOrder? = some g.reversePostOrder ∧
    g.reversePostOrder.Nodup ∧
    (∀ b, b ∈ g.reversePostOrder ↔ g.Reachable b) ∧
    g.reversePostOrder.head? = some 0 ∧
    (∀ u v, g.Reachable u → v ∈ g.successors u →
      [u, v].Sublist g.reversePostOrder ∨ LeadsTo g.successors v u) ∧
    (g.LiveAcyclic → ∀ u v, g.Reachable u → v ∈ g.successors u →
      [u, v].Sublist g.reversePostOrder) ∧
    ∀ b, (g.Reachable b → g.reversePostOrder[g.worklist.rank b]? = some b) ∧
      (¬ g.Reachable b → g.worklist.rank b = wordMax) := by
  have hmem := fun b => mem_reversePostOrder_iff h0 hg (b := b)
  have hforward : ∀ u v, g.Reachable u → v ∈ g.successors u →
      [u, v].Sublist g.reversePostOrder ∨ LeadsTo g.successors v u := fun u v hu hv =>
    forward_or_leadsTo ((hmem u).2 hu) hv (hg.lt_size hv)
  refine ⟨reversePostOrder?_eq_some hg, g.nodup_reversePostOrder, hmem, head?_reversePostOrder h0,
    hforward, fun hacyclic u v hu hv => ?_, fun b => ⟨fun hb => ?_, fun hb => ?_⟩⟩
  · -- a way back would close a cycle
    exact (hforward u v hu hv).resolve_right fun hback => hacyclic u hu (.head' hv hback)
  · rw [rank_worklist_of_mem ((hmem b).2 hb)]
    exact List.getElem?_idxOf ((hmem b).2 hb)
  · exact rank_worklist_of_not_mem fun hin => hb ((hmem b).1 hin)

/-- A loop with a way out of its middle, and a block that no edge leads to. -/
def exitedLoop : FlowGraph Nat :=
  .ofBlocks [([], [1]), ([], [2, 3]), ([], [1]), ([], []), ([], [3])]

theorem reversePostOrder_exact_exitedLoop : 0 < exitedLoop.size ∧ exitedLoop.WellFormed ∧
    exitedLoop.reversePostOrder? = some [0, 1, 2, 3] ∧
    (¬ [2, 1].Sublist exitedLoop.reversePostOrder ∧ LeadsTo exitedLoop.successors 1 2) ∧
    exitedLoop.worklist.rank 3 = 3 ∧ exitedLoop.worklist.rank 4 = 18446744073709551615 := by
  have h0 : 0 < exitedLoop.size := by decide
  have hg : exitedLoop.WellFormed := by decide
  have horder : exitedLoop.reversePostOrder = [0, 1, 2, 3] := by decide
  obtain ⟨hloop, -, hmem, -, hforward, -, hrank⟩ := reversePostOrder_exact exitedLoop h0 hg
  rw [horder] at hloop
  have hback : ¬ [2, 1].Sublist exitedLoop.reversePostOrder := by decide
  have hreached : exitedLoop.Reachable 2 := (hmem 2).1 (by decide)
  have hdead : ¬ exitedLoop.Reachable 4 := fun h => absurd ((hmem 4).2 h) (by decide)
  exact ⟨h0, hg, hloop, ⟨hback, (hforward 2 1 hreached (by decide)).resolve_left hback⟩, by decide,
    (hrank 4).2 hdead⟩

end FlowGraph

/-! ## Methods -/

/-- `CallsWithin fs f g`: both methods are listed, and the first one calls the second. -/
def CallsWithin (fs : List MethodFacts) (f g : MethodFacts) : Prop :=
  f ∈ fs ∧ g ∈ fs ∧ g.method ∈ f.callees

instance (fs : List MethodFacts) (f g : MethodFacts) : Decidable (CallsWithin fs f g) :=
  inferInstanceAs (Decidable (f ∈ fs ∧ g ∈ fs ∧ g.method ∈ f.callees))

section CalleeFirst

variable {fs : List MethodFacts} (hfs : (fs.map (·.method)).Nodup)

include hfs

/-- The search goes from a listed method to its callees that are listed. -/
theorem mem_calleesAmong {f : MethodFacts} (hf : f ∈ fs) {m : MethodId} :
    m ∈ calleesAmong fs f.method ↔ m ∈ f.callees ∧ m ∈ fs.map (·.method) := by
  rw [calleesAmong, find?_method hfs hf, List.mem_filter, List.any_eq_true, List.mem_map]
  simp only [decide_eq_true_eq]

/-- The search follows the calls between listed methods. -/
theorem CallsWithin.leadsTo {f g : MethodFacts}
    (h : Relation.ReflTransGen (CallsWithin fs) f g) :
    LeadsTo (calleesAmong fs) f.method g.method := by
  refine h.lift MethodFacts.method fun a b hcall => ?_
  obtain ⟨ha, hb, hcallee⟩ := hcall
  exact (mem_calleesAmong hfs ha).2 ⟨hcallee, List.mem_map.2 ⟨b, hb, rfl⟩⟩

/-- The search follows no other calls. -/
theorem exists_callsWithin {f : MethodFacts} (hf : f ∈ fs) {m : MethodId}
    (h : LeadsTo (calleesAmong fs) f.method m) :
    ∃ g ∈ fs, g.method = m ∧ Relation.ReflTransGen (CallsWithin fs) f g := by
  induction h with
  | refl => exact ⟨f, hf, rfl, .refl⟩
  | tail _ hstep ih =>
    obtain ⟨a, ha, rfl, hpath⟩ := ih
    obtain ⟨hcallee, hlisted⟩ := (mem_calleesAmong hfs ha).1 hstep
    obtain ⟨b, hb, rfl⟩ := List.mem_map.1 hlisted
    exact ⟨b, hb, rfl, hpath.tail ⟨ha, hb, hcallee⟩⟩

/-- Listed facts are found by their methods, in any order. -/
theorem filterMap_find?_method (gs : List MethodFacts) (hgs : ∀ g ∈ gs, g ∈ fs) :
    (gs.map (·.method)).filterMap (fun m => fs.find? (·.method = m)) = gs := by
  rw [List.filterMap_map]
  refine (List.filterMap_congr fun g hg => ?_).trans List.filterMap_some
  exact find?_method hfs (hgs g hg)

/-- A callee stands before its caller, unless it calls back. -/
theorem callee_first_or_back {f g : MethodFacts} (h : CallsWithin fs f g) :
    [g, f].Sublist (calleeFirst fs) ∨ Relation.ReflTransGen (CallsWithin fs) g f := by
  obtain ⟨hf, hg, hcallee⟩ := h
  have hnext : ∀ m ∈ fs.map (·.method), ∀ callee ∈ calleesAmong fs m,
      callee ∈ fs.map (·.method) := fun _ _ _ => mem_of_mem_calleesAmong
  have hstep : g.method ∈ calleesAmong fs f.method :=
    (mem_calleesAmong hfs hf).2 ⟨hcallee, List.mem_map.2 ⟨g, hg, rfl⟩⟩
  rcases forward_or_leadsTo hnext (Nat.le_of_eq (List.length_map _))
    (List.mem_map.2 ⟨f, hf, rfl⟩) hstep with hpair | hback
  · -- the pair turned round, with facts in place of methods
    rw [← filterMap_find?_method hfs [g, f] (by simp [hg, hf])]
    exact .inl (hpair.reverse.filterMap _)
  · obtain ⟨f', hf', heq, hpath⟩ := exists_callsWithin hfs hg hback
    rw [List.inj_on_of_nodup_map hfs hf' hf heq] at hpath
    exact .inr hpath

omit hfs in
/-- The first of some listed methods comes last, if it leads to all others. -/
theorem getLast?_calleeFirst {first : MethodFacts} {rest : List MethodFacts}
    (hfs : ((first :: rest).map (·.method)).Nodup)
    (hleads : ∀ f ∈ rest, Relation.ReflTransGen (CallsWithin (first :: rest)) first f) :
    (calleeFirst (first :: rest)).getLast? = some first := by
  have hnext : ∀ m ∈ (first :: rest).map (·.method), ∀ callee ∈ calleesAmong (first :: rest) m,
      callee ∈ (first :: rest).map (·.method) := fun _ _ _ => mem_of_mem_calleesAmong
  have hhead : (reversePostOrder (calleesAmong (first :: rest)) (first :: rest).length
      ((first :: rest).map (·.method))).head? = some first.method := by
    refine Search.head?_left_visitAll (next_mem_nodes hnext) (by simp)
      (card_pending_nodes_le (Nat.le_of_eq (List.length_map _))) fun m hm => ?_
    obtain ⟨f, hf, rfl⟩ := List.mem_map.1 hm
    exact CallsWithin.leadsTo hfs (hleads f hf)
  obtain ⟨others, hothers⟩ := List.head?_eq_some_iff.1 hhead
  have hlast := filterMap_find?_method hfs [first] (by simp)
  rw [List.map_singleton] at hlast
  rw [calleeFirst, postOrder, hothers, List.reverse_cons, List.filterMap_append, hlast,
    List.getLast?_concat]

end CalleeFirst

/-- **Callees first**: the order of methods with distinct numbers. The search with an explicit stack
comes to an end and gives this order. It has each of the methods once. A callee stands before its
caller, unless calls between the methods lead from it back to the caller. If such calls lead from
each method to each and the methods are in ascending order, the smallest one comes last. -/
theorem calleeFirst_exact (fs : List MethodFacts) (hfs : (fs.map (·.method)).Nodup) :
    calleeFirst? fs = some (calleeFirst fs) ∧
    (calleeFirst fs).Perm fs ∧
    (∀ f g, CallsWithin fs f g →
      [g, f].Sublist (calleeFirst fs) ∨ Relation.ReflTransGen (CallsWithin fs) g f) ∧
    ((∀ f ∈ fs, ∀ g ∈ fs, Relation.ReflTransGen (CallsWithin fs) f g) →
      (fs.map (·.method)).Pairwise (compare · · = .lt) →
      ∀ f ∈ fs, (∀ g ∈ fs, (compare f.method g.method).isLE) →
        (calleeFirst fs).getLast? = some f) := by
  refine ⟨calleeFirst?_eq_some hfs, calleeFirst_perm hfs,
    fun f g => callee_first_or_back hfs, fun hstrong hascending f hf hleast => ?_⟩
  cases fs with
  | nil => cases hf
  | cons first rest =>
    -- in ascending order, the smallest method is the one that the search starts from
    rw [List.map_cons, List.pairwise_cons] at hascending
    rcases List.mem_cons.1 hf with rfl | hrest
    · exact getLast?_calleeFirst hfs fun g hg => hstrong f hf g (List.mem_cons_of_mem f hg)
    · have hlt := hascending.1 f.method (List.mem_map.2 ⟨f, hrest, rfl⟩)
      have hle := hleast first List.mem_cons_self
      rw [Std.OrientedCmp.gt_of_lt hlt] at hle
      cases hle

/-- The facts of a method that only makes calls. -/
def MethodFacts.caller (m : MethodId) (callees : List MethodId) : MethodFacts where
  method := m
  thread := .unknown
  tagged := { calls := callees.map fun callee => ⟨⟨callee, ⟨m, 0, 0, 0⟩⟩, .empty⟩ }
  degraded := false

/-- Three methods that call each other in a ring; the middle one also calls itself. -/
def callRing : List MethodFacts :=
  [.caller ⟨3⟩ [⟨5⟩], .caller ⟨5⟩ [⟨5⟩, ⟨8⟩], .caller ⟨8⟩ [⟨3⟩]]

theorem calleeFirst_exact_callRing : (callRing.map (·.method)).Nodup ∧
    (∀ f ∈ callRing, ∀ g ∈ callRing, Relation.ReflTransGen (CallsWithin callRing) f g) ∧
    (callRing.map (·.method)).Pairwise (compare · · = .lt) ∧
    calleeFirst? callRing = some callRing.reverse ∧
    (calleeFirst callRing).getLast? = some (.caller ⟨3⟩ [⟨5⟩]) := by
  have hfs : (callRing.map (·.method)).Nodup := by decide
  have hascending : (callRing.map (·.method)).Pairwise (compare · · = .lt) := by decide
  have horder : calleeFirst callRing = callRing.reverse := by decide
  -- round the ring: from the first method to each, and from each to the first
  have hsecond : CallsWithin callRing (.caller ⟨3⟩ [⟨5⟩]) (.caller ⟨5⟩ [⟨5⟩, ⟨8⟩]) := by decide
  have hthird : CallsWithin callRing (.caller ⟨5⟩ [⟨5⟩, ⟨8⟩]) (.caller ⟨8⟩ [⟨3⟩]) := by decide
  have hfirst : CallsWithin callRing (.caller ⟨8⟩ [⟨3⟩]) (.caller ⟨3⟩ [⟨5⟩]) := by decide
  have hfrom : ∀ f ∈ callRing,
      Relation.ReflTransGen (CallsWithin callRing) (.caller ⟨3⟩ [⟨5⟩]) f :=
    List.forall_mem_cons.2 ⟨.refl, List.forall_mem_cons.2 ⟨.single hsecond,
      List.forall_mem_singleton.2 (.tail (.single hsecond) hthird)⟩⟩
  have hto : ∀ f ∈ callRing,
      Relation.ReflTransGen (CallsWithin callRing) f (.caller ⟨3⟩ [⟨5⟩]) :=
    List.forall_mem_cons.2 ⟨.refl, List.forall_mem_cons.2 ⟨.tail (.single hthird) hfirst,
      List.forall_mem_singleton.2 (.single hfirst)⟩⟩
  have hstrong : ∀ f ∈ callRing, ∀ g ∈ callRing,
      Relation.ReflTransGen (CallsWithin callRing) f g :=
    fun f hf g hg => (hto f hf).trans (hfrom g hg)
  obtain ⟨hloop, -, -, hlast⟩ := calleeFirst_exact callRing hfs
  rw [horder] at hloop
  exact ⟨hfs, hstrong, hascending, hloop, hlast hstrong hascending _ (by decide) (by decide)⟩

end Interlock
