import Interlock.Proofs.CallGraph
import Interlock.Proofs.LockTracking
import Interlock.Proofs.Shown
import Interlock.Session

/-!
# The facts of a session

- `Program.accepted`: the methods of a program that pass the checks.
- `Method.itemAt?_eq`, `Method.blockFault?_eq`: what operations do and what is wrong with them,
  from what they call and access.
- `Session.get?_facts`, `Session.get?_facts_of_accepted`: the facts of a session are those of the
  accepted methods.
- `Method.Tags`: tagged accesses and calls are those of operations of the method.
- `Session.keyed_facts`, `Session.placed_of_get?_facts`: what the rounds ask of facts.
-/

namespace Interlock

/-! ## Accepted methods -/

/-- The methods of a program that are analysed: those whose number is new and that pass the
checks. -/
def Program.accepted (program : Program) : List Method :=
  let unique := (Intake.of program.methods).unique
  unique.filter fun m => (m.fault? (unique.map (·.id))).isNone

/-- The records that are taken in as new have distinct numbers. -/
theorem Intake.nodup_unique (methods : List Method) :
    ((Intake.of methods).unique.map (·.id)).Nodup := by
  have hfold : ∀ (methods : List Method) (intake : Intake), (intake.unique.map (·.id)).Nodup →
      ((methods.foldl Intake.add intake).unique.map (·.id)).Nodup := by
    intro methods
    induction methods with
    | nil => exact fun intake h => h
    | cons m methods ih =>
      intro intake h
      refine ih _ ?_
      rw [Intake.add]
      split
      · exact h
      · next hnew =>
        rw [List.map_append, List.nodup_append]
        refine ⟨h, List.nodup_singleton _, ?_⟩
        rintro a ha b hb rfl
        have heq : a = m.id := List.mem_singleton.1 hb
        exact hnew (heq ▸ ha)
  exact hfold methods {} .nil

/-- So have the accepted methods. -/
theorem Program.nodup_accepted (program : Program) : (program.accepted.map (·.id)).Nodup :=
  (Intake.nodup_unique program.methods).sublist (List.filter_sublist.map _)

/-! ## What operations do -/

/-- The method that an action calls. -/
def Action.callee? : Action → Option MethodId
  | call callee _ => some callee
  | _ => none

namespace Method

/-- The access or call that an operation performs, from what its action calls and accesses. -/
theorem itemAt?_eq (m : Method) (pos : OpPos) (op : Operation) :
    m.itemAt? pos op = match op.action.callee? with
      | some callee => some (.call ⟨callee, m.locationOf pos op⟩)
      | none => op.action.target?.bind fun (target, kind) =>
        match target.resolve with
        | .path path => some (.access ⟨path, kind, m.locationOf pos op⟩)
        | _ => none := by
  rw [itemAt?]
  cases op.action <;> rfl

/-- The fault of an operation, from what its action calls. -/
theorem blockFault?_eq (m : Method) (known : List MethodId) (b : Nat) :
    m.blockFault? known b = match (m.body.successors b).find? (m.body.size ≤ ·) with
      | some target => some (.missingBlock m.id b target)
      | none => (m.body.operations b).findSome? fun op =>
        op.action.callee?.bind fun callee =>
          if callee ∈ known then none else some (.unknownCallee m.id callee op.line) := by
  rw [blockFault?]
  cases (m.body.successors b).find? (m.body.size ≤ ·) with
  | some target => rfl
  | none =>
    refine congrArg (List.findSome? · _) (funext fun op => ?_)
    cases op.action <;> rfl

end Method

/-! ## Tags -/

namespace Method

variable {m : Method}

/-- Tagged accesses and calls are those of operations of the method. -/
structure Tags (m : Method) (tagged : Tagged) : Prop where
  access : ∀ a ∈ tagged.accesses, ∃ op,
    (m.body.operations a.access.location.block)[a.access.location.op]? = some op ∧
      (m.itemAt? a.access.location.pos op).bind Item.access? = some a.access
  call : ∀ c ∈ tagged.calls, ∃ op,
    (m.body.operations c.call.location.block)[c.call.location.op]? = some op ∧
      (m.itemAt? c.call.location.pos op).bind Item.call? = some c.call

/-- Tagged accesses and calls come from operations if each was found at some position. -/
theorem tags_of_positions {tagged : Tagged}
    (haccess : ∀ a ∈ tagged.accesses, ∃ x ∈ m.body.positions,
      (m.itemAt? x.1 x.2).bind Item.access? = some a.access)
    (hcall : ∀ c ∈ tagged.calls, ∃ x ∈ m.body.positions,
      (m.itemAt? x.1 x.2).bind Item.call? = some c.call) : m.Tags tagged where
  access a ha := by
    obtain ⟨⟨pos, op⟩, hx, hitem⟩ := haccess a ha
    have hpos : a.access.location.pos = pos := by rw [(itemAt?_access hitem).1]; rfl
    refine ⟨op, ?_, by rw [hpos]; exact hitem⟩
    have hop := FlowGraph.mem_positions.1 hx
    rw [← hpos] at hop
    exact hop
  call c hc := by
    obtain ⟨⟨pos, op⟩, hx, hitem⟩ := hcall c hc
    have hpos : c.call.location.pos = pos := by rw [(itemAt?_call hitem).1]; rfl
    refine ⟨op, ?_, by rw [hpos]; exact hitem⟩
    have hop := FlowGraph.mem_positions.1 hx
    rw [← hpos] at hop
    exact hop

/-- Replaying a solution hands out operations of reached blocks only. -/
theorem reached_of_mem_replay {D : Type} {s : Solution D} {g : FlowGraph Operation}
    {effect : Operation → D → D} {x : OpPos × Operation × D} (h : x ∈ s.replay g effect) :
    s.isReached x.1.block = true ∧ (x.1, x.2.1) ∈ g.positions := by
  obtain ⟨b, -, hb⟩ := List.mem_flatMap.1 h
  split at hb
  · split at hb
    · next hreached =>
      obtain ⟨i, hi, rfl⟩ := List.mem_mapIdx.1 hb
      exact ⟨hreached, FlowGraph.mem_positions.2 (List.getElem?_eq_getElem hi)⟩
    · cases hb
  · cases hb

/-- What tracking answers with was found in blocks that the solver reached. -/
theorem exists_position_of_trackLocks {budget : Option Nat} {tagged : Tagged}
    (h : m.trackLocks budget = .ok tagged) : ∃ s, m.lockProblem.solve budget = .ok s ∧
      (∀ a ∈ tagged.accesses, ∃ x ∈ m.body.positions, s.isReached x.1.block = true ∧
        (m.itemAt? x.1 x.2).bind Item.access? = some a.access) ∧
      ∀ c ∈ tagged.calls, ∃ x ∈ m.body.positions, s.isReached x.1.block = true ∧
        (m.itemAt? x.1 x.2).bind Item.call? = some c.call := by
  obtain ⟨s, hs, rfl⟩ := trackLocks_eq_ok h
  -- operations are replayed in reached blocks only
  have hheld : ∀ x ∈ (s.replay m.body m.heldEffect).map (fun y => (y.1, y.2.1, y.2.2.locks)),
      s.isReached x.1.block = true ∧ (x.1, x.2.1) ∈ m.body.positions := by
    intro x hx
    obtain ⟨y, hy, rfl⟩ := List.mem_map.1 hx
    exact reached_of_mem_replay hy
  refine ⟨s, hs, fun a ha => ?_, fun c hc => ?_⟩
  · rw [tag_accesses, List.mem_filterMap] at ha
    obtain ⟨x, hx, hitem⟩ := ha
    obtain ⟨access, haccess, rfl⟩ := Option.map_eq_some_iff.1 hitem
    exact ⟨_, (hheld x hx).2, (hheld x hx).1, haccess⟩
  · rw [tag_calls, List.mem_filterMap] at hc
    obtain ⟨x, hx, hitem⟩ := hc
    obtain ⟨call, hcall, rfl⟩ := Option.map_eq_some_iff.1 hitem
    exact ⟨_, (hheld x hx).2, (hheld x hx).1, hcall⟩

/-- The tags that tracking gives are those of operations. -/
theorem tags_trackLocks {budget : Option Nat} {tagged : Tagged}
    (h : m.trackLocks budget = .ok tagged) : m.Tags tagged := by
  obtain ⟨s, -, haccess, hcall⟩ := exists_position_of_trackLocks h
  refine tags_of_positions (fun a ha => ?_) (fun c hc => ?_)
  · obtain ⟨x, hx, -, hitem⟩ := haccess a ha
    exact ⟨x, hx, hitem⟩
  · obtain ⟨x, hx, -, hitem⟩ := hcall c hc
    exact ⟨x, hx, hitem⟩

theorem assumeNoLocks_accesses (m : Method) :
    m.assumeNoLocks.accesses = m.extract.accesses.map (⟨·, ∅⟩) := by
  rw [Extraction.accesses, List.map_filterMap]
  refine List.filterMap_congr fun item _ => ?_
  cases item <;> rfl

theorem assumeNoLocks_calls (m : Method) :
    m.assumeNoLocks.calls = m.extract.calls.map (⟨·, ∅⟩) := by
  rw [Extraction.calls, List.map_filterMap]
  refine List.filterMap_congr fun item _ => ?_
  cases item <;> rfl

/-- What is extracted from a body stands at some position. -/
theorem mem_extract_filterMap {β : Type} {kind? : Item → Option β} {y : β} :
    y ∈ m.extract.items.filterMap kind? ↔
      ∃ x ∈ m.body.positions, (m.itemAt? x.1 x.2).bind kind? = some y := by
  rw [extract, List.filterMap_filterMap, List.mem_filterMap]

/-- Without tracking, each access of the body is tagged with no lock. -/
theorem mem_assumeNoLocks_accesses {pos : OpPos} {op : Operation} {access : Access}
    (hop : (m.body.operations pos.block)[pos.op]? = some op)
    (hitem : (m.itemAt? pos op).bind Item.access? = some access) :
    ⟨access, ∅⟩ ∈ m.assumeNoLocks.accesses := by
  rw [assumeNoLocks_accesses]
  exact List.mem_map.2
    ⟨access, mem_extract_filterMap.2 ⟨(pos, op), FlowGraph.mem_positions.2 hop, hitem⟩, rfl⟩

theorem mem_assumeNoLocks_calls {pos : OpPos} {op : Operation} {call : CallSite}
    (hop : (m.body.operations pos.block)[pos.op]? = some op)
    (hitem : (m.itemAt? pos op).bind Item.call? = some call) :
    ⟨call, ∅⟩ ∈ m.assumeNoLocks.calls := by
  rw [assumeNoLocks_calls]
  exact List.mem_map.2
    ⟨call, mem_extract_filterMap.2 ⟨(pos, op), FlowGraph.mem_positions.2 hop, hitem⟩, rfl⟩

/-- So are the tags without tracking. -/
theorem tags_assumeNoLocks (m : Method) : m.Tags m.assumeNoLocks := by
  refine tags_of_positions (fun a ha => ?_) (fun c hc => ?_)
  · rw [assumeNoLocks_accesses] at ha
    obtain ⟨access, haccess, rfl⟩ := List.mem_map.1 ha
    exact mem_extract_filterMap.1 haccess
  · rw [assumeNoLocks_calls] at hc
    obtain ⟨call, hcall, rfl⟩ := List.mem_map.1 hc
    exact mem_extract_filterMap.1 hcall

/-! ## Facts of one method -/

section Prepare

variable (hierarchy : Hierarchy) (budget : Option Nat)

/-- The tags of a prepared method: those of lock tracking, or none if it gave up. -/
theorem prepare_tagged (m : Method) :
    m.trackLocks budget = .ok (m.prepare hierarchy budget).1.tagged ∨
      (m.prepare hierarchy budget).1.tagged = m.assumeNoLocks := by
  rw [prepare]
  split
  · next tagged htagged => exact .inl htagged
  · exact .inr rfl

theorem prepare_method (m : Method) : (m.prepare hierarchy budget).1.method = m.id := by
  rw [prepare]
  split <;> rfl

theorem prepare_thread (m : Method) :
    (m.prepare hierarchy budget).1.thread = hierarchy.classify m := by
  rw [prepare]
  split <;> rfl

/-- So the tags of a prepared method are those of operations, either way. -/
theorem tags_prepare (m : Method) : m.Tags (m.prepare hierarchy budget).1.tagged := by
  rcases m.prepare_tagged hierarchy budget with htrack | hassume
  · exact tags_trackLocks htrack
  · rw [hassume]
    exact m.tags_assumeNoLocks

end Prepare

/-- What stands at a location is told by the operation there: the method called, if it is a call. -/
theorem Tags.viaAt {f : MethodFacts} (h : m.Tags f.tagged) {loc : Location}
    {via : Option MethodId} (hvia : f.ViaAt loc via) : ∃ op,
      (m.body.operations loc.block)[loc.op]? = some op ∧
        via = ((m.itemAt? loc.pos op).bind Item.call?).map (·.callee) := by
  cases via with
  | none =>
    obtain ⟨a, ha, rfl⟩ := hvia
    obtain ⟨op, hop, hitem⟩ := h.access a ha
    obtain ⟨item, hat, haccess⟩ := Option.bind_eq_some_iff.1 hitem
    refine ⟨op, hop, ?_⟩
    rw [hat]
    cases item with
    | access a => rfl
    | call c => cases haccess
  | some callee =>
    obtain ⟨c, hc, rfl, rfl⟩ := hvia
    obtain ⟨op, hop, hitem⟩ := h.call c hc
    exact ⟨op, hop, by rw [hitem, Option.map_some]⟩

/-- Locations of tagged accesses and calls are in the method. -/
theorem Tags.method_of_viaAt {f : MethodFacts} (h : m.Tags f.tagged) {loc : Location}
    {via : Option MethodId} (hvia : f.ViaAt loc via) : loc.method = m.id := by
  cases via with
  | none =>
    obtain ⟨a, ha, rfl⟩ := hvia
    obtain ⟨op, -, hitem⟩ := h.access a ha
    rw [(itemAt?_access hitem).1]
    rfl
  | some callee =>
    obtain ⟨c, hc, rfl, -⟩ := hvia
    obtain ⟨op, -, hitem⟩ := h.call c hc
    rw [(itemAt?_call hitem).1]
    rfl

/-- An operation does one thing, so a location tells what stands there. -/
theorem Tags.placed {f : MethodFacts} (h : m.Tags f.tagged) : f.Placed := by
  intro loc via via' hvia hvia'
  obtain ⟨op, hop, rfl⟩ := h.viaAt hvia
  obtain ⟨op', hop', rfl⟩ := h.viaAt hvia'
  rw [Option.some_inj.1 (hop.symm.trans hop')]

end Method

/-! ## Facts of all methods -/

namespace Session

variable {program : Program} {config : Config}

/-- What summaries are built from is told by the facts. -/
theorem builder_eq (program : Program) (config : Config) : (Session.of program config).builder
    = ⟨(Session.of program config).facts, .of (Session.of program config).facts,
        config.maxFixpointRounds.map UInt64.toNat⟩ :=
  rfl

/-- **Facts**: those of a session are the facts of the accepted methods. -/
theorem get?_facts {m : MethodId} {f : MethodFacts} :
    (Session.of program config).facts.get? m = some f ↔
      ∃ method ∈ program.accepted, method.id = m ∧
        (method.prepare (Session.of program config).hierarchy
          (config.perMethodBudget.map UInt64.toNat)).1 = f := by
  have hfacts : (Session.of program config).facts = .ofList ((program.accepted.map fun method =>
      method.prepare (Session.of program config).hierarchy
        (config.perMethodBudget.map UInt64.toNat)).map fun p => (p.1.method, p.1)) := rfl
  have hkeys : (((program.accepted.map fun method =>
      method.prepare (Session.of program config).hierarchy
        (config.perMethodBudget.map UInt64.toNat)).map fun p => (p.1.method, p.1)).map (·.1))
      = program.accepted.map (·.id) := by
    rw [List.map_map, List.map_map]
    exact List.map_congr_left fun method _ => Method.prepare_method _ _ method
  -- the numbers of accepted methods are distinct, so look-ups find the facts of each
  have hnodup := program.nodup_accepted
  rw [← hkeys] at hnodup
  rw [hfacts, SortedMap.get?_ofList hnodup, ← SortedMap.mem_iff_lookup hnodup, List.map_map,
    List.mem_map]
  constructor
  · rintro ⟨method, hmethod, heq⟩
    obtain ⟨rfl, rfl⟩ := Prod.mk.inj heq
    exact ⟨method, hmethod, (Method.prepare_method _ _ method).symm, rfl⟩
  · rintro ⟨method, hmethod, rfl, rfl⟩
    exact ⟨method, hmethod, Prod.ext (Method.prepare_method _ _ method) rfl⟩

theorem keyed_facts (program : Program) (config : Config) :
    (Session.of program config).facts.Keyed := by
  intro m f hf
  obtain ⟨method, -, rfl, rfl⟩ := get?_facts.1 hf
  exact Method.prepare_method _ _ method

/-- The facts of an accepted method are found under its number. -/
theorem get?_facts_of_accepted (config : Config) {m : Method} (hm : m ∈ program.accepted) :
    (Session.of program config).facts.get? m.id
      = some (m.prepare (Session.of program config).hierarchy
          (config.perMethodBudget.map UInt64.toNat)).1 :=
  get?_facts.2 ⟨m, hm, rfl, rfl⟩

/-- In all facts of a session, a location tells what stands there. -/
theorem placed_of_get?_facts {m : MethodId} {f : MethodFacts}
    (hf : (Session.of program config).facts.get? m = some f) : f.Placed := by
  obtain ⟨method, -, -, rfl⟩ := get?_facts.1 hf
  exact (method.tags_prepare _ _).placed

end Session

/-- Two methods that call each other: one under a lock, the other writes. -/
def Program.pingPong : Program where
  methods := [
    { id := ⟨0⟩
      name := "ping"
      declaringClass := "Game"
      body := .ofBlocks
        [([⟨1, .acquire .receiver⟩, ⟨2, .call ⟨1⟩ []⟩, ⟨3, .release .receiver⟩], [])] },
    { id := ⟨1⟩
      name := "pong"
      declaringClass := "Game"
      body := .ofBlocks [([⟨4, .write (.thisField "Game" "score")⟩, ⟨5, .call ⟨0⟩ []⟩], [])] }]

end Interlock
