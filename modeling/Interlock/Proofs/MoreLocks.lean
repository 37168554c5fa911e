import Interlock.Proofs.Coverage
import Mathlib.Data.List.Forall2

/-!
# Methods that hold more locks

Two methods do the same, but one of them holds more locks: on entry, after an
operation, or throughout a call. Then on every path more locks are held, and without a
budget for lock tracking the accesses of the other method cover its own.

- `Action.MoreLocks`, `Operation.MoreLocks`, `Method.MoreLocks`: the same, with more locks.
- `Method.MoreLocks.alwaysHeld_subset`: the locks held on every path.
- `Method.MoreLocks.fault?_eq`, `Method.MoreLocks.covers`: checks and facts of the two methods.
-/

namespace Interlock

/-- `a.MoreLocks a'`: the same access or call; at least the locks are held afterwards that are held
after `a`, and those held throughout the call. -/
structure Action.MoreLocks (a a' : Action) : Prop where
  target : a'.target? = a.target?
  callee : a'.callee? = a.callee?
  after : ∀ held, a.locksAfter held ⊆ a'.locksAfter held
  throughout : ∀ l ∈ a.callLocks, l ∈ a'.callLocks

theorem Action.MoreLocks.refl (a : Action) : a.MoreLocks a where
  target := rfl
  callee := rfl
  after _ := subset_rfl
  throughout _ hl := hl

/-- The same in the same line, with more locks. -/
structure Operation.MoreLocks (op op' : Operation) : Prop where
  line : op'.line = op.line
  action : op.action.MoreLocks op'.action

theorem Operation.MoreLocks.refl (op : Operation) : op.MoreLocks op := ⟨rfl, .refl _⟩

/-- `m.MoreLocks m'`: the methods are the same, except that `m'` may hold more locks. -/
structure Method.MoreLocks (m m' : Method) : Prop where
  interface : m'.interface = m.interface
  size : m'.body.size = m.body.size
  successors : m'.body.successors = m.body.successors
  predecessors : m'.body.predecessors = m.body.predecessors
  operations : ∀ b, List.Forall₂ Operation.MoreLocks (m.body.operations b) (m'.body.operations b)
  entry : m.locksOnEntry ⊆ m'.locksOnEntry

theorem Method.MoreLocks.refl (m : Method) : m.MoreLocks m where
  interface := rfl
  size := rfl
  successors := rfl
  predecessors := rfl
  operations _ := List.forall₂_same.2 fun op _ => .refl op
  entry := subset_rfl

/-- What is found first in a list is found first in one with related elements, if it makes no
difference between these. -/
theorem findSome?_eq_of_forall₂ {α β : Type} {R : α → α → Prop} {f : α → Option β} {l l' : List α}
    (h : List.Forall₂ R l l') (hf : ∀ {a a'}, R a a' → f a' = f a) :
    l'.findSome? f = l.findSome? f := by
  induction h with
  | nil => rfl
  | cons hab _ ih => rw [List.findSome?_cons, List.findSome?_cons, ih, hf hab]

/-! ## Locks on paths -/

/-- Operations with more locks, from more locks on, lead to more locks. -/
theorem runLocks_subset {ops ops' : List Operation} (h : List.Forall₂ Operation.MoreLocks ops ops')
    {held held' : Set LockId} (hheld : held ⊆ held') :
    runLocks ops held ⊆ runLocks ops' held' := by
  induction h generalizing held held' with
  | nil => exact hheld
  | cons hop _ ih =>
    exact ih (subset_trans (Action.locksAfter_mono _ hheld) (hop.action.after held'))

/-- Paths are a matter of successors. -/
theorem FlowGraph.Path.of_successors {Op : Type} {g g' : FlowGraph Op}
    (h : g'.successors = g.successors) {p : List Nat} {b : Nat} (hp : g.Path p b) :
    g'.Path p b := by
  induction hp with
  | entry => exact .entry
  | step _ hb ih => exact ih.step (h ▸ hb)

namespace Method

namespace MoreLocks

variable {m m' : Method} (h : m.MoreLocks m')

include h

theorem id_eq : m'.id = m.id := (congrArg Method.id h.interface :)

/-- The edges are the same, seen from either end. -/
theorem mirrored (hm : m.body.Mirrored) : m'.body.Mirrored := by
  intro a b hb
  rw [h.size] at hb
  rw [h.successors, h.predecessors]
  exact hm a b hb

/-- At least the same locks are held on each path, on which the same blocks run. -/
theorem heldOnPath_subset (p : List Nat) (pos : OpPos) :
    m.heldOnPath p pos ⊆ m'.heldOnPath p pos := by
  refine runLocks_subset ?_ h.entry
  refine List.rel_append ?_ (List.forall₂_take pos.op (h.operations pos.block))
  induction p with
  | nil => exact .nil
  | cons b p ih => exact List.rel_append (h.operations b) ih

/-- At least the same locks are held on every path. -/
theorem alwaysHeld_subset (pos : OpPos) : m.alwaysHeld pos ⊆ m'.alwaysHeld pos := by
  intro l hl p hp
  exact h.heldOnPath_subset p pos (hl p (hp.of_successors h.successors.symm))

theorem reachable {b : Nat} (hb : m'.body.Reachable b) : m.body.Reachable b := by
  obtain ⟨p, hp⟩ := hb
  exact ⟨p, hp.of_successors h.successors.symm⟩

/-- What stands at a place of one method stands there in the other. -/
theorem exists_operation {b i : Nat} {op' : Operation}
    (hop' : (m'.body.operations b)[i]? = some op') :
    ∃ op, (m.body.operations b)[i]? = some op ∧ op.MoreLocks op' := by
  obtain ⟨hi', rfl⟩ := List.getElem?_eq_some_iff.1 hop'
  have hi : i < (m.body.operations b).length := (h.operations b).length_eq ▸ hi'
  exact ⟨_, List.getElem?_eq_getElem hi, (h.operations b).get hi hi'⟩

end MoreLocks

/-! ## Items and checks -/

namespace MoreLocks

variable {m m' : Method} (h : m.MoreLocks m')

include h

/-- An access or call is told by what it does and where, not by locks. -/
theorem itemAt?_eq {op op' : Operation} (hop : op.MoreLocks op') (pos : OpPos) :
    m'.itemAt? pos op' = m.itemAt? pos op := by
  have hlocation : m'.locationOf pos op' = m.locationOf pos op := by
    rw [locationOf, locationOf, h.id_eq, hop.line]
  rw [Method.itemAt?_eq, Method.itemAt?_eq, hop.action.callee, hop.action.target, hlocation]

/-- The checks make no difference between the two methods. -/
theorem fault?_eq (known : List MethodId) : m'.fault? known = m.fault? known := by
  have hblock : m'.blockFault? known = m.blockFault? known := by
    funext b
    rw [blockFault?_eq, blockFault?_eq, h.successors, h.size, h.id_eq,
      findSome?_eq_of_forall₂ (h.operations b) fun hop => by rw [hop.line, hop.action.callee]]
  rw [fault?, fault?, h.size, h.id_eq, hblock]

end MoreLocks

/-! ## Facts -/

/-- Without a budget, the facts of a method are those of lock tracking. -/
theorem trackLocks_prepare {m : Method} (h0 : 0 < m.body.size) (hg : m.body.WellFormed)
    (hierarchy : Hierarchy) : m.trackLocks none = .ok (m.prepare hierarchy none).1.tagged := by
  obtain ⟨tagged, htagged⟩ := exists_trackLocks_none h0 hg
  rw [prepare, htagged]

/-- **Coverage**: without a budget, a method covers one that holds more locks. -/
theorem MoreLocks.covers {m m' : Method} (h : m.MoreLocks m') (h0 : 0 < m.body.size)
    (hg : m.body.WellFormed) (h0' : 0 < m'.body.size) (hg' : m'.body.WellFormed)
    (hm : m.body.Mirrored) {hierarchy hierarchy' : Hierarchy} (hs : hierarchy.Alike hierarchy') :
    (m.prepare hierarchy none).1.Covers (m'.prepare hierarchy' none).1 := by
  have htracked := trackLocks_prepare h0 hg hierarchy
  have htracked' := trackLocks_prepare h0' hg' hierarchy'
  refine ⟨?_, fun a' ha' => ?_, fun c' hc' => ?_⟩
  · rw [prepare_thread, prepare_thread]
    exact hs.classify h.interface.symm
  · -- an access of `m'` is at a place where `m` has the same access, and both are tagged with what
    -- is always held there
    obtain ⟨pos, op', hop', hb', hitem', hlocks'⟩ :=
      access_of_mem_tracked h0' hg' (h.mirrored hm) htracked' ha'
    obtain ⟨op, hop, hmore⟩ := h.exists_operation hop'
    rw [h.itemAt?_eq hmore] at hitem'
    obtain ⟨a, ha, haccess, hlocks⟩ :=
      exists_tracked_access h0 hg hm htracked hop (h.reachable hb') hitem'
    refine ⟨a, ha, haccess, ?_⟩
    show {l | l ∈ a.locks} ⊆ {l | l ∈ a'.locks}
    rw [hlocks, hlocks']
    exact h.alwaysHeld_subset pos
  · -- likewise for a call, which is made under the locks held throughout it as well
    obtain ⟨pos, op', hop', hb', hitem', hlocks'⟩ :=
      call_of_mem_tracked h0' hg' (h.mirrored hm) htracked' hc'
    obtain ⟨op, hop, hmore⟩ := h.exists_operation hop'
    rw [h.itemAt?_eq hmore] at hitem'
    obtain ⟨c, hc, hcall, hlocks⟩ :=
      exists_tracked_call h0 hg hm htracked hop (h.reachable hb') hitem'
    refine ⟨c, hc, hcall, ?_⟩
    show {l | l ∈ c.locks} ⊆ {l | l ∈ c'.locks}
    rw [hlocks, hlocks']
    exact Set.union_subset_union (h.alwaysHeld_subset pos) hmore.action.throughout

end Method

end Interlock
