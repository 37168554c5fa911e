import Interlock.Proofs.Accounting
import Interlock.Proofs.Budgets
import Interlock.Proofs.SummaryForm

/-!
# Dead code

A block is dead if no path from the entry of its method leads to it. The solver reaches
reachable blocks only, so lock tracking hands out nothing that stands in dead blocks. When
it gives up on a method, however, the accesses and calls are taken from all blocks of the
body. What dead blocks do is then in the summary of the method and may be reported.

- `Method.reachable_of_trackLocks`: tracked accesses and calls are in reachable blocks.
- `Operation.Contributes`: what an operation leaves in a summary.
- `Program.IsDead`: locations in dead blocks.
- `Session.exists_dead_event_iff`: when a summary has events in dead blocks.
- `analyze_dead_code`: events and findings in dead blocks.
- `dead_write_reported`: a finding in a dead block.
-/

namespace Interlock

/-- A block other than the entry is dead if no block has an edge to it. -/
theorem FlowGraph.not_reachable_of_no_edge {Op : Type} {g : FlowGraph Op} {b : Nat} (hb : b ≠ 0)
    (hedge : ∀ block ∈ g.blocks.toList, b ∉ block.successors) : ¬ g.Reachable b := by
  rintro ⟨p, hp⟩
  cases hp with
  | entry => exact hb rfl
  | @step p a _ _ hmem =>
    rw [successors] at hmem
    cases hblock : g.blocks[a]? with
    | none =>
      rw [hblock] at hmem
      cases hmem
    | some block =>
      rw [hblock] at hmem
      exact hedge block (Array.mem_toList_iff.2 (Array.mem_of_getElem? hblock)) hmem

/-! ## Tracked and untracked methods -/

namespace Method

variable {m : Method} {budget : Option Nat}

/-- What lock tracking hands out stands in reachable blocks. -/
theorem reachable_of_trackLocks (h0 : 0 < m.body.size) (hg : m.body.WellFormed) {f : MethodFacts}
    (h : m.trackLocks budget = .ok f.tagged) {loc : Location} {via : Option MethodId}
    (hvia : f.ViaAt loc via) : m.body.Reachable loc.block := by
  obtain ⟨s, hs, haccess, hcall⟩ := exists_position_of_trackLocks h
  have hreached : ∀ {b}, s.isReached b = true → m.body.Reachable b :=
    fun hb => Problem.reachable_of_solve hg h0 m.lockProblem_isMonotone hs hb
  cases via with
  | none =>
    obtain ⟨a, ha, rfl⟩ := hvia
    obtain ⟨x, -, hx, hitem⟩ := haccess a ha
    rw [(itemAt?_access hitem).1]
    exact hreached hx
  | some callee =>
    obtain ⟨c, hc, rfl, -⟩ := hvia
    obtain ⟨x, -, hx, hitem⟩ := hcall c hc
    rw [(itemAt?_call hitem).1]
    exact hreached hx

variable (hierarchy : Hierarchy)

/-- Lock tracking gave up on a method that has an access or a call in a dead block. -/
theorem exists_error_of_dead (h0 : 0 < m.body.size) (hg : m.body.WellFormed) {loc : Location}
    {via : Option MethodId} (hvia : (m.prepare hierarchy budget).1.ViaAt loc via)
    (hdead : ¬ m.body.Reachable loc.block) : ∃ e, m.trackLocks budget = .error e := by
  cases htrack : m.trackLocks budget with
  | ok tagged =>
    have htagged : (m.prepare hierarchy budget).1.tagged = tagged := by rw [prepare, htrack]
    rw [← htagged] at htrack
    exact absurd (reachable_of_trackLocks h0 hg htrack hvia) hdead
  | error e => exact ⟨e, rfl⟩

theorem prepare_tagged_of_error {e : LimitReached} (h : m.trackLocks budget = .error e) :
    (m.prepare hierarchy budget).1.tagged = m.assumeNoLocks := by
  rw [prepare, h]

end Method

/-! ## What operations leave in a summary -/

/-- The operation reads or writes a place that has a path, or calls a method with accesses in its
summary. -/
def Operation.Contributes (op : Operation) (summaryOf : MethodId → Option Summary) : Prop :=
  (∃ target kind path, op.action.target? = some (target, kind) ∧ target.resolve = .path path) ∨
    ∃ callee locksHeld s, op.action = .call callee locksHeld ∧ summaryOf callee = some s ∧
      s.accesses ≠ []

namespace MethodFacts

variable {m : Method} {f : MethodFacts} {summaryOf : MethodId → Option Summary}

/-- An event stands at an operation that contributes. -/
theorem Origin.exists_contributes (htags : m.Tags f.tagged) {key : EventKey}
    {via : Option MethodId} (h : f.Origin summaryOf key via) : ∃ op,
      (m.body.operations key.location.block)[key.location.op]? = some op ∧
        op.Contributes summaryOf := by
  cases h with
  | @own a ha =>
    obtain ⟨op, hop, hitem⟩ := htags.access a ha
    obtain ⟨-, target, htarget, hpath⟩ := Method.itemAt?_access hitem
    exact ⟨op, hop, .inl ⟨target, _, _, htarget, hpath⟩⟩
  | @call c s e hc hs he =>
    obtain ⟨op, hop, hitem⟩ := htags.call c hc
    obtain ⟨-, locksHeld, haction⟩ := Method.itemAt?_call hitem
    exact ⟨op, hop, .inr ⟨_, locksHeld, s, haction, hs, List.ne_nil_of_mem he⟩⟩

/-- If no locks are assumed, every operation of the body that contributes leaves an event. -/
theorem exists_event_of_contributes (hf : f.tagged = m.assumeNoLocks) {pos : OpPos}
    {op : Operation} (hop : (m.body.operations pos.block)[pos.op]? = some op)
    (h : op.Contributes summaryOf) :
    ∃ e ∈ (f.summarize summaryOf).accesses, e.location = m.locationOf pos op := by
  -- an access that lacks no lock in particular
  suffices hshows : ∃ key : EventKey, key.location = m.locationOf pos op ∧
      (f.summarize summaryOf).Shows (.access key none) by
    obtain ⟨key, hkey, e, he, rfl, -⟩ := hshows
    exact ⟨e, he, hkey⟩
  have hnone : ∀ locks : LockSet, ∀ l ∈ (none : Option LockId), l ∉ locks :=
    fun _ l hl => absurd hl (Option.not_mem_none l)
  rcases h with ⟨target, kind, path, htarget, hpath⟩ | ⟨callee, locksHeld, s, haction, hs, hne⟩
  · have ha : _ ∈ f.tagged.accesses := hf ▸
      Method.mem_assumeNoLocks_accesses hop (Method.itemAt?_of_target? htarget hpath)
    exact ⟨_, rfl, summarize_shows.2 (.inl ⟨_, List.mem_map.2 ⟨_, ha, rfl⟩, rfl, hnone _⟩)⟩
  · have hitem : (m.itemAt? pos op).bind Item.call? = some ⟨callee, m.locationOf pos op⟩ := by
      rw [Method.itemAt?, haction]
      rfl
    have hc : _ ∈ f.tagged.calls := hf ▸ Method.mem_assumeNoLocks_calls hop hitem
    -- any event of the callee will do, since no lock is asked for
    obtain ⟨e, he⟩ := List.exists_mem_of_ne_nil s.accesses hne
    exact ⟨_, rfl, summarize_shows.2
      (.inr ⟨_, hc, .access e.key none, ⟨s, hs, e, he, rfl, hnone _⟩, .access (hnone _)⟩)⟩

end MethodFacts

/-! ## Events and findings -/

/-- The location is in a dead block of an accepted method. -/
def Program.IsDead (program : Program) (loc : Location) : Prop :=
  ∃ m ∈ program.accepted, m.id = loc.method ∧ ¬ m.body.Reachable loc.block

/-- Some operation in a dead block of the method contributes. -/
def Method.ContributesDead (m : Method) (summaryOf : MethodId → Option Summary) : Prop :=
  ∃ (pos : OpPos) (op : Operation), (m.body.operations pos.block)[pos.op]? = some op ∧
    ¬ m.body.Reachable pos.block ∧ op.Contributes summaryOf

section Session

variable {program : Program} {config : Config}

/-- Accepted methods with the same number are the same. -/
theorem Program.eq_of_accepted {m m' : Method} (hm : m ∈ program.accepted)
    (hm' : m' ∈ program.accepted) (hid : m.id = m'.id) : m = m' :=
  List.inj_on_of_nodup_map program.nodup_accepted hm hm' hid

/-- A summary has events in dead blocks exactly if lock tracking gave up on the method and some
operation there contributes. -/
theorem Session.exists_dead_event_iff {m : MethodId} {summary : Summary}
    (hs : (Session.of program config).builder.finished? (Session.of program config).store m
      = some summary) :
    (∃ e ∈ summary.accesses, program.IsDead e.location) ↔
      program.GivesUpOn config.perMethodBudget m ∧ ∃ method ∈ program.accepted, method.id = m ∧
        method.ContributesDead
          ((Session.of program config).builder.finished? (Session.of program config).store) := by
  obtain ⟨f, hf, rfl⟩ := eq_summarize hs
  obtain ⟨method, hmethod, rfl, rfl⟩ := get?_facts.1 hf
  have htags := method.tags_prepare (Session.of program config).hierarchy
    (config.perMethodBudget.map UInt64.toNat)
  constructor
  · rintro ⟨e, he, method', hmethod', hid, hdead⟩
    have hvia := (Summary.summarize_isOf _ _).via e he
    rw [htags.method_of_viaAt hvia] at hid
    -- the location names the method, so the dead block is one of its own
    obtain rfl := Program.eq_of_accepted hmethod' hmethod hid
    obtain ⟨h0, hg⟩ := Program.wellFormed_of_accepted hmethod
    obtain ⟨op, hop, hcontributes⟩ :=
      (MethodFacts.origin_of_mem_summarize he).exists_contributes htags
    exact ⟨⟨_, hmethod, rfl, Method.exists_error_of_dead _ h0 hg hvia hdead⟩,
      _, hmethod, rfl, e.location.pos, op, hop, hdead, hcontributes⟩
  · rintro ⟨⟨method₁, hmethod₁, hid₁, e, herror⟩, method₂, hmethod₂, hid₂, pos, op, hop, hdead,
      hcontributes⟩
    obtain rfl := Program.eq_of_accepted hmethod₁ hmethod hid₁
    obtain rfl := Program.eq_of_accepted hmethod₂ hmethod hid₂
    obtain ⟨e, he, hlocation⟩ := MethodFacts.exists_event_of_contributes
      (Method.prepare_tagged_of_error _ herror) hop hcontributes
    refine ⟨e, he, _, hmethod, ?_, ?_⟩
    · rw [hlocation]
      rfl
    · rw [hlocation]
      exact hdead

/-- The locations of a finding are those of events in the summaries of their methods. -/
theorem Collection.Owned.exists_event {c : Collection} (howned : c.Owned)
    {minConfidence : Confidence} {f : Finding} (hf : f ∈ c.findings minConfidence) {loc : Location}
    (hloc : loc ∈ [f.locationA, f.locationB]) :
    ∃ s, c.summaryOf loc.method = some s ∧ ∃ e ∈ s.accesses, e.location = loc := by
  obtain ⟨k, candidate, hcandidate, rfl⟩ := exists_candidate_of_mem_findings hf
  have harises := arises_of_mem_candidates hcandidate
  have hsummary : ∀ e ∈ c.exposed candidate.className,
      ∃ s, c.summaryOf e.location.method = some s ∧ ∃ e' ∈ s.accesses, e'.location = e.location := by
    intro e he
    obtain ⟨hlocation, s, hs, hmem⟩ := howned.reports he
    rw [hlocation]
    exact ⟨s, hs.2, e, hmem, rfl⟩
  rcases List.mem_pair.1 hloc with rfl | rfl
  · exact hsummary _ harises.first
  · exact hsummary _ harises.second

end Session

/-- **Dead code**: a finished summary has events in dead blocks exactly if lock tracking gave up on
its method and a dead block of the method contributes some; a finding has a location there only if
lock tracking gave up on the method of the location; and without a budget, lock tracking does not
give up. -/
theorem analyze_dead_code (program : Program) (config : Config) :
    (∀ m summary,
      (Session.of program config).builder.finished? (Session.of program config).store m
        = some summary →
      ((∃ e ∈ summary.accesses, program.IsDead e.location) ↔
        program.GivesUpOn config.perMethodBudget m ∧ ∃ method ∈ program.accepted, method.id = m ∧
          method.ContributesDead
            ((Session.of program config).builder.finished? (Session.of program config).store))) ∧
    (∀ f ∈ (analyze program config).findings, ∀ loc ∈ [f.locationA, f.locationB],
      program.IsDead loc → program.GivesUpOn config.perMethodBudget loc.method) ∧
    (config.perMethodBudget = none → ∀ m, ¬ program.GivesUpOn config.perMethodBudget m) := by
  refine ⟨fun m summary hs => Session.exists_dead_event_iff hs, fun f hf loc hloc hdead => ?_, ?_⟩
  · obtain ⟨summary, hs, e, he, rfl⟩ := (Session.owned program config).exists_event hf hloc
    exact ((Session.exists_dead_event_iff hs).1 ⟨e, he, hdead⟩).1
  · rintro hnone m ⟨method, hmethod, -, e, he⟩
    obtain ⟨h0, hg⟩ := Program.wellFormed_of_accepted hmethod
    have hlimit := Method.budget_of_trackLocks h0 hg he
    rw [hnone] at hlimit
    cases hlimit

/-! ## A finding in a dead block -/

/-- A method that returns before it would write. -/
def Method.returnsEarly : Method where
  id := ⟨0⟩
  name := "fill"
  declaringClass := "Cache"
  body := .ofBlocks [([⟨1, .nop⟩], [1]), ([⟨2, .nop⟩], []),
    ([⟨9, .write (.thisField "Cache" "entries")⟩], [1])]

/-- A shared cache with that method. -/
def Program.returnsEarly : Program where
  classes := [{ name := "Cache", annotations := { threadSafe := true } }]
  methods := [.returnsEarly]

/-- A budget of one visit for each method. -/
def Config.oneVisit : Config := { perMethodBudget := some 1 }

theorem Program.mem_accepted_returnsEarly : .returnsEarly ∈ Program.returnsEarly.accepted := by
  decide +kernel

theorem Method.not_reachable_returnsEarly : ¬ returnsEarly.body.Reachable 2 :=
  FlowGraph.not_reachable_of_no_edge (by decide) (by decide)

theorem Program.isDead_returnsEarly {loc : Location} (hmethod : loc.method = ⟨0⟩)
    (hblock : loc.block = 2) : Program.returnsEarly.IsDead loc :=
  ⟨.returnsEarly, mem_accepted_returnsEarly, hmethod.symm,
    hblock ▸ Method.not_reachable_returnsEarly⟩

theorem exists_finding_returnsEarly : ∃ f ∈ (analyze .returnsEarly .oneVisit).findings,
    f.locationA.method = ⟨0⟩ ∧ f.locationA.block = 2 := by decide +kernel

theorem analyze_dead_code_returnsEarly :
    Program.returnsEarly.GivesUpOn (some 1) ⟨0⟩ ∧ ¬ Program.returnsEarly.GivesUpOn none ⟨0⟩ ∧
    ∃ summary, (Session.of .returnsEarly .oneVisit).builder.finished?
        (Session.of .returnsEarly .oneVisit).store ⟨0⟩ = some summary ∧
      ∃ e ∈ summary.accesses, Program.returnsEarly.IsDead e.location := by
  obtain ⟨hevents, hfindings, -⟩ := analyze_dead_code .returnsEarly .oneVisit
  obtain ⟨-, -, hunlimited⟩ := analyze_dead_code .returnsEarly {}
  have hgives : Program.returnsEarly.GivesUpOn (some 1) ⟨0⟩ := by
    obtain ⟨f, hf, hmethod, hblock⟩ := exists_finding_returnsEarly
    have hgives := hfindings f hf f.locationA List.mem_cons_self
      (Program.isDead_returnsEarly hmethod hblock)
    rw [hmethod] at hgives
    exact hgives
  obtain ⟨summary, hs⟩ := Option.isSome_iff_exists.1 (show
    ((Session.of .returnsEarly .oneVisit).builder.finished?
      (Session.of .returnsEarly .oneVisit).store ⟨0⟩).isSome = true by decide +kernel)
  refine ⟨hgives, hunlimited rfl ⟨0⟩, summary, hs, (hevents ⟨0⟩ summary hs).2 ⟨hgives, ?_⟩⟩
  -- the write in the dead block
  exact ⟨.returnsEarly, Program.mem_accepted_returnsEarly, rfl, ⟨2, 0⟩, _, rfl,
    Method.not_reachable_returnsEarly, .inl ⟨_, _, _, rfl, rfl⟩⟩

/-- **Dead code may be reported**: when lock tracking gives up on the method, the write in its dead
block is an event of its summary and the location of a finding. -/
theorem dead_write_reported :
    (¬ ∀ (program : Program) (config : Config) (m : MethodId) (summary : Summary),
      (Session.of program config).builder.finished? (Session.of program config).store m
        = some summary →
      ∀ e ∈ summary.accesses, ¬ program.IsDead e.location) ∧
    ¬ ∀ (program : Program) (config : Config), ∀ f ∈ (analyze program config).findings,
      ¬ program.IsDead f.locationA ∧ ¬ program.IsDead f.locationB := by
  constructor
  · intro hnone
    have hevent : ∃ e ∈ (Session.of .returnsEarly .oneVisit).eventsOf ⟨0⟩,
        e.location.method = ⟨0⟩ ∧ e.location.block = 2 := by decide +kernel
    obtain ⟨e, he, hmethod, hblock⟩ := hevent
    obtain ⟨summary, hs, he⟩ := Session.mem_eventsOf.1 he
    exact hnone _ _ _ summary hs e he (Program.isDead_returnsEarly hmethod hblock)
  · intro hnone
    obtain ⟨f, hf, hmethod, hblock⟩ := exists_finding_returnsEarly
    exact (hnone _ _ f hf).1 (Program.isDead_returnsEarly hmethod hblock)

end Interlock
