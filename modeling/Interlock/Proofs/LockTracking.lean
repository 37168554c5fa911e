import Interlock.Proofs.LockPaths
import Interlock.Proofs.Solver

/-!
# Lock tracking is exact

Without a budget, lock tracking always succeeds, and it tags each access and each
call of the reachable blocks with exactly the locks held on every path to it.

- `Method.lockProblem_isMonotone`: the effects of blocks on sets of locks are monotone.
- `Method.entryState_toSet`: the solution at the start of a block is the meet over all
  paths to it. Below, because a path only ever follows edges of the equations; above,
  because the meet over all paths satisfies the equations itself.
- `Method.access_of_mem_tracked`, `Method.exists_tracked_access`: the tags, place by place.
- `Method.tagsExactly_of_trackLocks`, `Method.trackLocks_exact`: the tags in order.
-/

namespace Interlock

/-! ## Replaying a solution -/

section Replay

open Classical

/-- Replaying a solution hands out the operations of the reachable blocks in order, each with the
state carried along its block from the state before the block. -/
theorem Problem.Solves.replay_eq {Op D : Type} [JoinSemilattice D] {p : Problem Op D}
    {s : Solution D} (hs : p.Solves s) (effect : Op → D → D) :
    s.replay p.graph effect =
      (p.graph.positions.filter fun x => decide (p.graph.Reachable x.1.block)).map fun x =>
        (x.1, x.2, runOperations effect ((p.graph.operations x.1.block).take x.1.op)
          (p.entryState s x.1.block)) := by
  rw [Solution.replay, FlowGraph.positions, List.filter_flatMap, List.map_flatMap]
  refine List.flatMap_congr fun b _ => ?_
  -- a block is handed out whole if it is reachable, and not at all otherwise
  by_cases hb : p.graph.Reachable b
  · have hall : ((p.graph.operations b).mapIdx fun i op => ((⟨b, i⟩ : OpPos), op)).filter
        (fun x => decide (p.graph.Reachable x.1.block))
        = (p.graph.operations b).mapIdx fun i op => (⟨b, i⟩, op) := by
      rw [List.filter_eq_self]
      intro x hx
      obtain ⟨i, hi, rfl⟩ := List.mem_mapIdx.1 hx
      exact decide_eq_true hb
    rw [hs.pre_eq b hb, hall]
    simp only [if_pos ((hs.reached_iff b).2 hb), List.mapIdx_eq_zipIdx_map, List.map_map]
    rfl
  · have hnone : ((p.graph.operations b).mapIdx fun i op => ((⟨b, i⟩ : OpPos), op)).filter
        (fun x => decide (p.graph.Reachable x.1.block)) = [] := by
      rw [List.filter_eq_nil_iff]
      intro x hx
      obtain ⟨i, hi, rfl⟩ := List.mem_mapIdx.1 hx
      simpa using hb
    have hreached : s.isReached b ≠ true := fun h => hb ((hs.reached_iff b).1 h)
    rw [hnone, List.map_nil]
    split
    · exact if_neg hreached
    · rfl

end Replay

/-! ## States as sets -/

/-- The locks held, as a set. -/
def HeldLocks.toSet {named : LockSet} (d : HeldLocks named) : Set LockId := {l | l ∈ d.locks}

open Classical in
/-- The named ones among the locks of a set. -/
noncomputable def HeldLocks.ofSet {named : LockSet} (s : Set LockId) : HeldLocks named :=
  .of (named.filter fun l => decide (l ∈ s))

namespace HeldLocks

variable {named : LockSet}

theorem le_iff_toSet {a b : HeldLocks named} : a ≤ b ↔ b.toSet ⊆ a.toSet := le_iff

/-- Nothing is lost of a set of named locks. -/
theorem toSet_ofSet {s : Set LockId} (hs : s ⊆ {l | l ∈ named}) :
    (ofSet s : HeldLocks named).toSet = s := by
  classical
  ext l
  rw [toSet, Set.mem_ofPred_eq, ofSet, mem_of, SortedSet.mem_filter, decide_eq_true_eq]
  exact ⟨fun h => h.1.2, fun h => ⟨⟨hs h, h⟩, hs h⟩⟩

end HeldLocks

namespace Method

variable {m : Method}

/-- The effect of an operation of the method, as a change of a set. -/
theorem toSet_heldEffect {b : Nat} {op : Operation} (hop : op ∈ m.body.operations b)
    (d : HeldLocks m.lockUniverse) :
    (m.heldEffect op d).toSet = op.action.locksAfter d.toSet := by
  -- an operation adds no lock but its own, which the method names
  have hnamed : op.action.locksAfter d.toSet ⊆ {l | l ∈ m.lockUniverse} := by
    intro l hl
    rcases op.action.locksAfter_subset _ hl with hl | hl
    · exact d.mem_named l hl
    · exact mem_lockUniverse_of_operation hop hl
  have heffect : ∀ l, l ∈ op.action.lockEffect d.locks ↔ l ∈ op.action.locksAfter d.toSet := by
    intro l
    cases op.action with
    | acquire lock =>
      simp only [Action.lockEffect, Action.lock?, Action.locksAfter, Set.mem_union]
      cases lock.resolve? with
      | none => simp [HeldLocks.toSet]
      | some k => simp [HeldLocks.toSet, or_comm]
    | release lock =>
      simp only [Action.lockEffect, Action.lock?, Action.locksAfter, Set.mem_sdiff]
      cases lock.resolve? with
      | none => simp [HeldLocks.toSet]
      | some k => simp [HeldLocks.toSet]
    | read target => rfl
    | write target => rfl
    | call callee locksHeld => rfl
    | nop => rfl
  -- keeping to the locks that the method names drops none
  ext l
  rw [HeldLocks.toSet, Set.mem_ofPred_eq, heldEffect, HeldLocks.mem_of, heffect]
  exact and_iff_left_of_imp fun h => hnamed h

/-- The effects of several operations of the method, in turn. -/
theorem toSet_runOperations {ops : List Operation}
    (hops : ∀ op ∈ ops, ∃ b, op ∈ m.body.operations b) (d : HeldLocks m.lockUniverse) :
    (runOperations m.heldEffect ops d).toSet = runLocks ops d.toSet := by
  induction ops generalizing d with
  | nil => rfl
  | cons op ops ih =>
    obtain ⟨b, hb⟩ := hops op List.mem_cons_self
    show (runOperations m.heldEffect ops (m.heldEffect op d)).toSet
      = runLocks ops (op.action.locksAfter d.toSet)
    rw [ih (fun op' h => hops op' (List.mem_cons_of_mem _ h)), toSet_heldEffect hb]

theorem toSet_block (b : Nat) (d : HeldLocks m.lockUniverse) :
    (m.lockProblem.block b d).toSet = runLocks (m.body.operations b) d.toSet :=
  toSet_runOperations (fun _ h => ⟨b, h⟩) d

/-- The effects of blocks on sets of locks are monotone, and edges change nothing. -/
theorem lockProblem_isMonotone (m : Method) : m.lockProblem.IsMonotone where
  block b x y h := by
    rw [HeldLocks.le_iff_toSet, toSet_block, toSet_block]
    exact runLocks_mono _ (HeldLocks.le_iff_toSet.1 h)
  edge a b x y u h hu := by
    refine ⟨y, rfl, ?_⟩
    rw [← Option.some_inj.1 hu]
    exact h

/-! ## The meet over all paths -/

/-- The solution never has a lock that is not held on some path. -/
theorem entryState_toSet_subset (hm : m.body.Mirrored) (hg : m.body.WellFormed)
    {s : Solution (HeldLocks m.lockUniverse)} (hs : m.lockProblem.Solves s) {p : List Nat} {b : Nat}
    (hp : m.body.Path p b) : (m.lockProblem.entryState s b).toSet ⊆ m.heldOnPath p ⟨b, 0⟩ := by
  -- along the path: each edge brings the state after its source
  induction hp with
  | entry =>
    have hseed := (Problem.entryState_le_iff.1 (le_refl (m.lockProblem.entryState s 0))).1
    rw [if_pos rfl, HeldLocks.le_iff_toSet] at hseed
    exact fun l hl => mem_entryLocks.1 (HeldLocks.mem_of.1 (hseed hl)).1
  | @step p a b hp hb ih =>
    have ha : m.body.Reachable a := ⟨p, hp⟩
    have hbrought : m.lockProblem.brought s a b
        = some (m.lockProblem.block a (m.lockProblem.entryState s a)) := by
      rw [Problem.brought, if_pos ((hs.reached_iff a).2 ha), hs.post_eq a ha]
      rfl
    have hle := (Problem.entryState_le_iff.1 (le_refl (m.lockProblem.entryState s b))).2 a
      ((hm a b (hg.lt_size hb)).2 hb) _ hbrought
    rw [HeldLocks.le_iff_toSet, toSet_block] at hle
    rw [heldOnPath_step]
    exact subset_trans hle (runLocks_mono _ ih)

/-- The meet over all paths satisfies the equations. -/
theorem alwaysHeld_above (m : Method) :
    m.lockProblem.Above (fun b => .ofSet (m.alwaysHeld ⟨b, 0⟩))
      (fun b => m.lockProblem.block b (.ofSet (m.alwaysHeld ⟨b, 0⟩))) where
  seed := by
    rw [HeldLocks.le_iff_toSet, HeldLocks.toSet_ofSet (alwaysHeld_named ⟨0, 0⟩ .entry)]
    intro l hl
    have hentry : l ∈ m.locksOnEntry := hl [] .entry
    exact HeldLocks.mem_of.2 ⟨mem_entryLocks.2 hentry, locksOnEntry_named hentry⟩
  edge a b y ha hb hy := by
    have hpre := HeldLocks.toSet_ofSet (alwaysHeld_named ⟨a, 0⟩ ha)
    have hnext := HeldLocks.toSet_ofSet (alwaysHeld_named ⟨b, 0⟩ (ha.step hb))
    rw [← Option.some_inj.1 hy, HeldLocks.le_iff_toSet, toSet_block, hpre, hnext]
    exact alwaysHeld_step ha hb
  block b hb := le_refl _

/-- The solution at the start of a block is what is held there on every path. -/
theorem entryState_toSet (h0 : 0 < m.body.size) (hm : m.body.Mirrored) (hg : m.body.WellFormed)
    {budget : Option Nat} {s : Solution (HeldLocks m.lockUniverse)}
    (hs : m.lockProblem.solve budget = .ok s) {b : Nat} (hb : m.body.Reachable b) :
    (m.lockProblem.entryState s b).toSet = m.alwaysHeld ⟨b, 0⟩ := by
  have hmono := m.lockProblem_isMonotone
  have hsolves := Problem.solves_of_solve hg hm h0 hmono hs
  refine subset_antisymm (fun l hl p hp => entryState_toSet_subset hm hg hsolves hp hl) ?_
  -- the solution is the least one, and what is held on every path is another
  have hle := Problem.entryState_le_of_solve hg hm h0 hmono hs m.alwaysHeld_above hb
  rw [HeldLocks.le_iff_toSet, HeldLocks.toSet_ofSet (alwaysHeld_named ⟨b, 0⟩ hb)] at hle
  exact hle

/-- The state right before an operation: that at the start of its block, carried along. -/
def stateAt (m : Method) (s : Solution (HeldLocks m.lockUniverse)) (pos : OpPos) :
    HeldLocks m.lockUniverse :=
  runOperations m.heldEffect ((m.body.operations pos.block).take pos.op)
    (m.lockProblem.entryState s pos.block)

theorem toSet_stateAt (s : Solution (HeldLocks m.lockUniverse)) (pos : OpPos) :
    (m.stateAt s pos).toSet = runLocks ((m.body.operations pos.block).take pos.op)
      (m.lockProblem.entryState s pos.block).toSet :=
  toSet_runOperations (fun _ h => ⟨pos.block, List.mem_of_mem_take h⟩) _

/-- The state before an operation has exactly the locks held there on every path. -/
theorem stateAt_eq_alwaysHeld (h0 : 0 < m.body.size) (hm : m.body.Mirrored)
    (hg : m.body.WellFormed) {budget : Option Nat} {s : Solution (HeldLocks m.lockUniverse)}
    (hs : m.lockProblem.solve budget = .ok s) {pos : OpPos} (hb : m.body.Reachable pos.block) :
    (m.stateAt s pos).toSet = m.alwaysHeld pos := by
  rw [toSet_stateAt, entryState_toSet h0 hm hg hs hb, alwaysHeld_take hb]

end Method

/-! ## Tags -/

/-- The access, if the item is one. -/
def Item.access? : Item → Option Access
  | .access a => some a
  | .call _ => none

/-- The call, if the item is one. -/
def Item.call? : Item → Option CallSite
  | .access _ => none
  | .call c => some c

/-- The accesses of an extraction in order. -/
def Extraction.accesses (e : Extraction) : List Access := e.items.filterMap Item.access?

/-- The calls of an extraction in order. -/
def Extraction.calls (e : Extraction) : List CallSite := e.items.filterMap Item.call?

/-- The place of the operation at a location. -/
def Location.pos (loc : Location) : OpPos := ⟨loc.block, loc.op⟩

namespace Method

variable {m : Method}

/-- An operation that is an access stands where the access is placed. -/
theorem itemAt?_access {pos : OpPos} {op : Operation} {access : Access}
    (h : (m.itemAt? pos op).bind Item.access? = some access) :
    access.location = m.locationOf pos op ∧
      ∃ target, op.action.target? = some (target, access.kind) ∧
        target.resolve = .path access.path := by
  obtain ⟨item, hitem, haccess⟩ := Option.bind_eq_some_iff.1 h
  rw [itemAt?] at hitem
  split at hitem
  · obtain rfl := Option.some_inj.1 hitem
    cases haccess
  · split at hitem
    · next target kind htarget =>
      split at hitem
      · next path hpath =>
        obtain rfl := Option.some_inj.1 hitem
        obtain rfl := Option.some_inj.1 haccess
        exact ⟨rfl, target, htarget, hpath⟩
      · cases hitem
    · cases hitem

/-- An operation that is a call stands where the call is placed. -/
theorem itemAt?_call {pos : OpPos} {op : Operation} {call : CallSite}
    (h : (m.itemAt? pos op).bind Item.call? = some call) :
    call.location = m.locationOf pos op ∧
      ∃ locksHeld, op.action = .call call.callee locksHeld := by
  obtain ⟨item, hitem, hcall⟩ := Option.bind_eq_some_iff.1 h
  rw [itemAt?] at hitem
  split at hitem
  · next callee locksHeld haction =>
    obtain rfl := Option.some_inj.1 hitem
    obtain rfl := Option.some_inj.1 hcall
    exact ⟨rfl, locksHeld, haction⟩
  · split at hitem
    · split at hitem
      · obtain rfl := Option.some_inj.1 hitem
        cases hcall
      · cases hitem
    · cases hitem

/-- The accesses among tagged operations. -/
theorem tag_accesses (steps : Nat) (held : List (OpPos × Operation × LockSet)) :
    (m.tag steps held).accesses =
      held.filterMap fun x => ((m.itemAt? x.1 x.2.1).bind Item.access?).map (⟨·, x.2.2⟩) := by
  refine List.filterMap_congr ?_
  rintro ⟨pos, op, locks⟩ -
  dsimp only
  rcases m.itemAt? pos op with _ | a | c <;> rfl

/-- The calls among tagged operations. -/
theorem tag_calls (steps : Nat) (held : List (OpPos × Operation × LockSet)) :
    (m.tag steps held).calls = held.filterMap fun x =>
      ((m.itemAt? x.1 x.2.1).bind Item.call?).map
        (⟨·, x.2.2.insertMany x.2.1.action.callLocks⟩) := by
  refine List.filterMap_congr ?_
  rintro ⟨pos, op, locks⟩ -
  dsimp only
  rcases m.itemAt? pos op with _ | a | c <;> rfl

/-- What tracking answers with, read off a solution of the dataflow problem. -/
theorem trackLocks_eq_ok {budget : Option Nat} {tagged : Tagged}
    (h : m.trackLocks budget = .ok tagged) :
    ∃ s, m.lockProblem.solve budget = .ok s ∧
      tagged = m.tag s.steps
        ((s.replay m.body m.heldEffect).map fun (pos, op, d) => (pos, op, d.locks)) := by
  rw [trackLocks] at h
  cases hs : m.lockProblem.solve budget with
  | error e =>
    rw [hs] at h
    cases h
  | ok s =>
    rw [hs] at h
    exact ⟨s, rfl, (Except.ok.inj h).symm⟩

/-- Without a budget, tracking succeeds. -/
theorem exists_trackLocks_none (h0 : 0 < m.body.size) (hg : m.body.WellFormed) :
    ∃ tagged, m.trackLocks none = .ok tagged := by
  obtain ⟨s, hs⟩ := Problem.exists_solve_none hg h0 m.lockProblem_isMonotone
  rw [trackLocks, hs]
  exact ⟨_, rfl⟩

section Tags

open Classical

/-- The operations of the reachable blocks. -/
noncomputable def livePositions (m : Method) : List (OpPos × Operation) :=
  m.body.positions.filter fun x => decide (m.body.Reachable x.1.block)

/-- The items of the reachable blocks are the extracted ones that are placed there. -/
theorem filterMap_livePositions {β : Type} (kind? : Item → Option β) (place : β → Location)
    (hplace : ∀ {pos op x}, (m.itemAt? pos op).bind kind? = some x →
      place x = m.locationOf pos op) :
    (m.livePositions.filterMap fun x => (m.itemAt? x.1 x.2).bind kind?) =
      (m.extract.items.filterMap kind?).filter fun x =>
        decide (m.body.Reachable (place x).block) := by
  rw [livePositions, extract, List.filterMap_filterMap, List.filterMap_filter,
    List.filter_filterMap]
  refine List.filterMap_congr fun x _ => ?_
  cases hitem : (m.itemAt? x.1 x.2).bind kind? with
  | none => simp
  | some y =>
    have hblock : (place y).block = x.1.block := by rw [hplace hitem]; rfl
    simp [Option.filter, hblock]

/-- The answer of tracking: the items of the reachable blocks, each with the state before it. -/
theorem tracked_eq (h0 : 0 < m.body.size) (hm : m.body.Mirrored) (hg : m.body.WellFormed)
    {budget : Option Nat} {tagged : Tagged} (h : m.trackLocks budget = .ok tagged) :
    ∃ s, m.lockProblem.solve budget = .ok s ∧
      tagged.accesses = m.livePositions.filterMap (fun x =>
        ((m.itemAt? x.1 x.2).bind Item.access?).map fun a => ⟨a, (m.stateAt s x.1).locks⟩) ∧
      tagged.calls = m.livePositions.filterMap (fun x =>
        ((m.itemAt? x.1 x.2).bind Item.call?).map fun c =>
          ⟨c, (m.stateAt s x.1).locks.insertMany x.2.action.callLocks⟩) := by
  obtain ⟨s, hs, rfl⟩ := trackLocks_eq_ok h
  have hsolves := Problem.solves_of_solve hg hm h0 m.lockProblem_isMonotone hs
  have hheld : (s.replay m.body m.heldEffect).map (fun (pos, op, d) => (pos, op, d.locks)) =
      m.livePositions.map fun x => (x.1, x.2, (m.stateAt s x.1).locks) := by
    show (s.replay m.lockProblem.graph m.heldEffect).map _ = _
    rw [hsolves.replay_eq, List.map_map]
    rfl
  rw [tag_accesses, tag_calls, hheld, List.filterMap_map, List.filterMap_map]
  exact ⟨s, hs, rfl, rfl⟩

/-- Operations of reachable blocks, by place. -/
theorem mem_livePositions {pos : OpPos} {op : Operation} :
    (pos, op) ∈ m.livePositions ↔
      (m.body.operations pos.block)[pos.op]? = some op ∧ m.body.Reachable pos.block := by
  rw [livePositions, List.mem_filter, FlowGraph.mem_positions, decide_eq_true_eq]

section Tracked

variable (h0 : 0 < m.body.size) (hg : m.body.WellFormed) (hm : m.body.Mirrored)
  {budget : Option Nat} {tagged : Tagged} (h : m.trackLocks budget = .ok tagged)

include h0 hg hm h

/-- A tagged access is one of a reachable block, with the locks held there on every path. -/
theorem access_of_mem_tracked {a : TaggedAccess} (ha : a ∈ tagged.accesses) :
    ∃ pos op, (m.body.operations pos.block)[pos.op]? = some op ∧ m.body.Reachable pos.block ∧
      (m.itemAt? pos op).bind Item.access? = some a.access ∧
      {l | l ∈ a.locks} = m.alwaysHeld pos := by
  obtain ⟨s, hs, haccesses, -⟩ := tracked_eq h0 hm hg h
  rw [haccesses, List.mem_filterMap] at ha
  obtain ⟨⟨pos, op⟩, hx, hitem⟩ := ha
  obtain ⟨access, haccess, rfl⟩ := Option.map_eq_some_iff.1 hitem
  obtain ⟨hop, hb⟩ := mem_livePositions.1 hx
  exact ⟨pos, op, hop, hb, haccess, stateAt_eq_alwaysHeld h0 hm hg hs hb⟩

/-- So is a tagged call, which is also made under the locks that are known at the call. -/
theorem call_of_mem_tracked {c : TaggedCall} (hc : c ∈ tagged.calls) :
    ∃ pos op, (m.body.operations pos.block)[pos.op]? = some op ∧ m.body.Reachable pos.block ∧
      (m.itemAt? pos op).bind Item.call? = some c.call ∧
      {l | l ∈ c.locks} = m.alwaysHeld pos ∪ {l | l ∈ op.action.callLocks} := by
  obtain ⟨s, hs, -, hcalls⟩ := tracked_eq h0 hm hg h
  rw [hcalls, List.mem_filterMap] at hc
  obtain ⟨⟨pos, op⟩, hx, hitem⟩ := hc
  obtain ⟨call, hcall, rfl⟩ := Option.map_eq_some_iff.1 hitem
  obtain ⟨hop, hb⟩ := mem_livePositions.1 hx
  refine ⟨pos, op, hop, hb, hcall, ?_⟩
  rw [← stateAt_eq_alwaysHeld h0 hm hg hs hb]
  ext l
  exact SortedSet.mem_insertMany

/-- Each access of a reachable block is tagged, with the locks held there on every path. -/
theorem exists_tracked_access {pos : OpPos} {op : Operation} {access : Access}
    (hop : (m.body.operations pos.block)[pos.op]? = some op) (hb : m.body.Reachable pos.block)
    (hitem : (m.itemAt? pos op).bind Item.access? = some access) :
    ∃ a ∈ tagged.accesses, a.access = access ∧ {l | l ∈ a.locks} = m.alwaysHeld pos := by
  obtain ⟨s, hs, haccesses, -⟩ := tracked_eq h0 hm hg h
  refine ⟨⟨access, (m.stateAt s pos).locks⟩, ?_, rfl, stateAt_eq_alwaysHeld h0 hm hg hs hb⟩
  rw [haccesses, List.mem_filterMap]
  exact ⟨(pos, op), mem_livePositions.2 ⟨hop, hb⟩, by rw [hitem, Option.map_some]⟩

theorem exists_tracked_call {pos : OpPos} {op : Operation} {call : CallSite}
    (hop : (m.body.operations pos.block)[pos.op]? = some op) (hb : m.body.Reachable pos.block)
    (hitem : (m.itemAt? pos op).bind Item.call? = some call) :
    ∃ c ∈ tagged.calls, c.call = call ∧
      {l | l ∈ c.locks} = m.alwaysHeld pos ∪ {l | l ∈ op.action.callLocks} := by
  obtain ⟨s, hs, -, hcalls⟩ := tracked_eq h0 hm hg h
  refine ⟨⟨call, (m.stateAt s pos).locks.insertMany op.action.callLocks⟩, ?_, rfl, ?_⟩
  · rw [hcalls, List.mem_filterMap]
    exact ⟨(pos, op), mem_livePositions.2 ⟨hop, hb⟩, by rw [hitem, Option.map_some]⟩
  · rw [← stateAt_eq_alwaysHeld h0 hm hg hs hb]
    ext l
    exact SortedSet.mem_insertMany

end Tracked

/-- `m.TagsExactly tagged`: the tagged accesses and calls are the extracted ones of the reachable
blocks in order, each with the locks held there on every path. A call is also made under the locks
that are known to be held throughout it. -/
structure TagsExactly (m : Method) (tagged : Tagged) : Prop where
  accesses : tagged.accesses.map (·.access) =
    m.extract.accesses.filter fun a => decide (m.body.Reachable a.location.block)
  calls : tagged.calls.map (·.call) =
    m.extract.calls.filter fun c => decide (m.body.Reachable c.location.block)
  access_locks : ∀ a ∈ tagged.accesses, {l | l ∈ a.locks} = m.alwaysHeld a.access.location.pos
  call_locks : ∀ c ∈ tagged.calls, ∃ line locksHeld,
    (m.body.operations c.call.location.block)[c.call.location.op]?
      = some ⟨line, .call c.call.callee locksHeld⟩ ∧
    {l | l ∈ c.locks}
      = m.alwaysHeld c.call.location.pos ∪ {l | ∃ e ∈ locksHeld, e.resolve? = some l}

/-- Within any budget, what tracking answers with is exact. -/
theorem tagsExactly_of_trackLocks (h0 : 0 < m.body.size) (hg : m.body.WellFormed)
    (hm : m.body.Mirrored) {budget : Option Nat} {tagged : Tagged}
    (h : m.trackLocks budget = .ok tagged) : m.TagsExactly tagged := by
  obtain ⟨s, hs, haccesses, hcalls⟩ := tracked_eq h0 hm hg h
  refine ⟨?_, ?_, ?_, ?_⟩
  · rw [haccesses, List.map_filterMap, Extraction.accesses,
      ← filterMap_livePositions Item.access? (·.location) fun h => (itemAt?_access h).1]
    simp only [Option.map_map, Function.comp_def, Option.map_id']
  · rw [hcalls, List.map_filterMap, Extraction.calls,
      ← filterMap_livePositions Item.call? (·.location) fun h => (itemAt?_call h).1]
    simp only [Option.map_map, Function.comp_def, Option.map_id']
  · intro a ha
    rw [haccesses, List.mem_filterMap] at ha
    obtain ⟨⟨pos, op⟩, hx, hitem⟩ := ha
    obtain ⟨access, haccess, rfl⟩ := Option.map_eq_some_iff.1 hitem
    have hpos : access.location.pos = pos := by rw [(itemAt?_access haccess).1]; rfl
    rw [hpos]
    exact stateAt_eq_alwaysHeld h0 hm hg hs (mem_livePositions.1 hx).2
  · intro c hc
    rw [hcalls, List.mem_filterMap] at hc
    obtain ⟨⟨pos, op⟩, hx, hitem⟩ := hc
    obtain ⟨call, hcall, rfl⟩ := Option.map_eq_some_iff.1 hitem
    obtain ⟨hlocation, locksHeld, haction : op.action = _⟩ := itemAt?_call hcall
    obtain ⟨hop, hb⟩ := mem_livePositions.1 hx
    -- the call is placed where the operation stands
    have hpos : call.location.pos = pos := by rw [hlocation]; rfl
    refine ⟨op.line, locksHeld, ?_, ?_⟩
    · rw [hlocation, ← haction]
      exact hop
    · rw [hpos, ← stateAt_eq_alwaysHeld h0 hm hg hs hb]
      ext l
      show l ∈ (m.stateAt s pos).locks.insertMany op.action.callLocks ↔ _
      rw [SortedSet.mem_insertMany, haction, Action.callLocks, List.mem_filterMap]
      rfl

/-- **Exactness of lock tracking**: without a budget, tracking succeeds, and its tags are exact. -/
theorem trackLocks_exact (m : Method) (h0 : 0 < m.body.size) (hg : m.body.WellFormed)
    (hm : m.body.Mirrored) : ∃ tagged, m.trackLocks none = .ok tagged ∧ m.TagsExactly tagged := by
  obtain ⟨tagged, htagged⟩ := exists_trackLocks_none h0 hg
  exact ⟨tagged, htagged, tagsExactly_of_trackLocks h0 hg hm htagged⟩

/-- A method that counts in a loop under a lock which it releases on the way round, then reads the
counter and makes a call. A block that no edge leads to writes without any lock. -/
def countingLoop : Method where
  id := ⟨0⟩
  name := "count"
  declaringClass := "Counter"
  annotations := { synchronized := true }
  body := .ofBlocks
    [([⟨1, .acquire (.ofClass "Counter")⟩], [1]),
     ([⟨2, .write (.thisField "Counter" "total")⟩, ⟨3, .release (.ofClass "Counter")⟩], [1, 2]),
     ([⟨4, .read (.thisField "Counter" "total")⟩, ⟨5, .call ⟨1⟩ [.ofClass "Log"]⟩], []),
     ([⟨6, .write (.thisField "Counter" "total")⟩], [2])]

theorem trackLocks_exact_countingLoop :
    0 < countingLoop.body.size ∧ countingLoop.body.WellFormed ∧ countingLoop.body.Mirrored ∧
      ∃ tagged, countingLoop.trackLocks none = .ok tagged ∧ countingLoop.TagsExactly tagged :=
  ⟨by decide, by decide, FlowGraph.mirrored_ofBlocks _,
    countingLoop.trackLocks_exact (by decide) (by decide) (FlowGraph.mirrored_ofBlocks _)⟩

end Tags

end Method

end Interlock
