import Interlock.Proofs.Executions
import Interlock.Proofs.Interfaces
import Interlock.Proofs.Representatives

/-!
# Two analyses, one at least as exposed as the other

If every access and call that one analysis knows of is known to another with no more
locks, then whatever the first reports, the second reports as well. This follows the
accesses through call chains, summaries, conflicts and the choice of the candidates that
are kept.

- `MethodFacts.Covers`, `FactTable.Covers`, `AccessEvent.Covers`: at least as exposed.
- `CallChain.exists_of_covers`, `Session.exists_event_of_covers`: chains and events.
- `Finding.StandsFor`: a finding on the same path and methods that is at least as sure.
- `analyze_covers`: the findings of the two analyses.
- `analyze_findings_congr`: findings are told by the accesses in summaries.
- `analyze_eq_of_covers`: if each covers the other, the findings are the same.
-/

namespace Interlock

/-! ## Facts and call chains -/

/-- `f.Covers g`: every access and call of `g` is one of `f`, which holds no lock there that `g`
does not hold. -/
structure MethodFacts.Covers (f g : MethodFacts) : Prop where
  thread : f.thread = g.thread
  access : ∀ a ∈ g.tagged.accesses, ∃ a' ∈ f.tagged.accesses, a'.access = a.access ∧
    ∀ l ∈ a'.locks, l ∈ a.locks
  call : ∀ c ∈ g.tagged.calls, ∃ c' ∈ f.tagged.calls, c'.call = c.call ∧
    ∀ l ∈ c'.locks, l ∈ c.locks

/-- Facts with the same tags cover each other. -/
theorem MethodFacts.covers_of_tagged {f g : MethodFacts} (hthread : f.thread = g.thread)
    (htagged : f.tagged = g.tagged) : f.Covers g where
  thread := hthread
  access a ha := ⟨a, htagged ▸ ha, rfl, fun _ hl => hl⟩
  call c hc := ⟨c, htagged ▸ hc, rfl, fun _ hl => hl⟩

/-- The facts of each method are covered by those of the same method. A method that neither accesses
nor calls anything may be missing. -/
def FactTable.Covers (facts facts' : FactTable) : Prop :=
  ∀ m g, facts'.get? m = some g →
    g.tagged.accesses = [] ∧ g.tagged.calls = [] ∨ ∃ f, facts.get? m = some f ∧ f.Covers g

/-- A chain stays a chain, with no more locks, if its methods are covered. -/
theorem CallChain.exists_of_covers {facts facts' : FactTable} (hcovers : facts.Covers facts')
    {done done' : MethodId → Prop} (hdone : ∀ m f, facts.get? m = some f → done m) {m : MethodId}
    {key : EventKey} {locks' : Set LockId} (h : CallChain facts' done' m key locks') :
    ∃ locks, CallChain facts done m key locks ∧ locks ⊆ locks' := by
  induction h with
  | @access m g a hg _ ha =>
    rcases hcovers m g hg with ⟨hnone, -⟩ | ⟨f, hf, hfg⟩
    · rw [hnone] at ha
      cases ha
    · obtain ⟨a', ha', haccess, hlocks⟩ := hfg.access a ha
      rw [← haccess, ← hfg.thread]
      exact ⟨_, .access hf (hdone m f hf) ha', hlocks⟩
  | @call m g c key locks' hg _ hc _ ih =>
    rcases hcovers m g hg with ⟨-, hnone⟩ | ⟨f, hf, hfg⟩
    · rw [hnone] at hc
      cases hc
    · obtain ⟨c', hc', hcall, hlocks⟩ := hfg.call c hc
      obtain ⟨locks, hchain, hsubset⟩ := ih
      rw [← hcall] at hchain ⊢
      rw [← hfg.thread]
      exact ⟨_, .call hf (hdone m f hf) hc' hchain, Set.union_subset_union hlocks hsubset⟩

/-! ## Events -/

/-- `e.Covers e'`: the same access of the same method, with no lock that `e'` does not have. -/
structure AccessEvent.Covers (e e' : AccessEvent) : Prop where
  key : e.key = e'.key
  owner : e.owner = e'.owner
  locks : ∀ l ∈ e.locks, l ∈ e'.locks

namespace Session

/-- The accesses in the summary of a method; none if it has no summary. -/
def eventsOf (s : Session) (m : MethodId) : List AccessEvent :=
  ((s.builder.finished? s.store m).map (·.accesses)).getD []

theorem mem_eventsOf {s : Session} {m : MethodId} {e : AccessEvent} :
    e ∈ s.eventsOf m ↔ ∃ summary, s.builder.finished? s.store m = some summary ∧
      e ∈ summary.accesses := by
  rw [eventsOf]
  cases s.builder.finished? s.store m <;> simp

variable {program program' : Program} {config config' : Config}

/-- What the summary of a method says of its events: they are the meet over all call chains. -/
theorem exists_summary_of_mem_eventsOf {m : MethodId} {e : AccessEvent}
    (he : e ∈ (Session.of program config).eventsOf m) : ∃ (f : MethodFacts) (summary : Summary),
      (Session.of program config).facts.get? m = some f ∧ summary.IsOf f ∧
      (Session.of program config).eventsOf m = summary.accesses ∧
      summary.IsMeetOverChains (Session.of program config).facts
        ((Session.of program config).builder.Done (Session.of program config).store) m := by
  obtain ⟨summary, hs, -⟩ := mem_eventsOf.1 he
  obtain ⟨f, hf, heq⟩ := eq_summarize hs
  refine ⟨f, summary, hf, heq ▸ Summary.summarize_isOf f _, ?_, isMeetOverChains hs⟩
  rw [eventsOf, hs, Option.map_some, Option.getD_some]

/-- The summaries of a session hold accesses of their own methods. -/
theorem owned (program : Program) (config : Config) :
    ((Session.of program config).collection (Session.of program config).store).Owned := by
  intro m summary hs e he
  obtain ⟨f, hf, rfl⟩ := eq_summarize hs
  have hof := Summary.summarize_isOf f
    ((Session.of program config).builder.finished? (Session.of program config).store)
  obtain ⟨method, -, rfl, rfl⟩ := get?_facts.1 hf
  refine ⟨?_, (method.tags_prepare _ _).method_of_viaAt (hof.via e he)⟩
  rw [hof.owner e he, Method.prepare_method]

/-- Every chain through methods with finished summaries ends up in an event. -/
theorem exists_mem_eventsOf_of_callChain {m : MethodId} {key : EventKey} {locks : Set LockId}
    (h : CallChain (Session.of program config).facts
      ((Session.of program config).builder.Done (Session.of program config).store) m key locks) :
    ∃ e ∈ (Session.of program config).eventsOf m, e.key = key := by
  obtain ⟨summary, hs⟩ := h.done_start
  obtain ⟨e, he, hkey⟩ := ((isMeetOverChains hs).keys key).2 ⟨locks, h⟩
  exact ⟨e, mem_eventsOf.2 ⟨summary, hs, he⟩, hkey⟩

/-- Covered facts lead to covered events. -/
theorem exists_event_of_covers (hmax : config.maxFixpointRounds = none)
    (hcovers : (Session.of program config).facts.Covers (Session.of program' config').facts)
    {m : MethodId} {e' : AccessEvent} (he' : e' ∈ (Session.of program' config').eventsOf m) :
    ∃ e ∈ (Session.of program config).eventsOf m, e.Covers e' := by
  have hdone : ∀ m f, (Session.of program config).facts.get? m = some f →
      (Session.of program config).builder.Done (Session.of program config).store m := by
    intro m f hf
    obtain ⟨method, hmethod, rfl, -⟩ := get?_facts.1 hf
    exact done_of_accepted hmax hmethod
  obtain ⟨f', summary', hf', hof', heq', hmeet'⟩ := exists_summary_of_mem_eventsOf he'
  rw [heq'] at he'
  obtain ⟨locks', hchain'⟩ := (hmeet'.keys e'.key).1 ⟨e', he', rfl⟩
  obtain ⟨locks, hchain, -⟩ := hchain'.exists_of_covers hcovers hdone
  obtain ⟨e, he, hkey⟩ := exists_mem_eventsOf_of_callChain hchain
  obtain ⟨f, summary, hf, hof, heq, hmeet⟩ := exists_summary_of_mem_eventsOf he
  refine ⟨e, he, hkey, ?_, fun l hl => ?_⟩
  · rw [heq] at he
    rw [hof.owner e he, hof'.owner e' he', keyed_facts _ _ m f hf, keyed_facts _ _ m f' hf']
  · -- a lock that is on all chains here is on all chains there
    rw [heq] at he
    have hmem : l ∈ {l | l ∈ e.locks} := hl
    rw [hmeet.locks e he] at hmem
    show l ∈ {l | l ∈ e'.locks}
    rw [hmeet'.locks e' he']
    intro locks' hchain'
    obtain ⟨locks, hchain, hsubset⟩ := hchain'.exists_of_covers hcovers hdone
    rw [← hkey] at hchain
    exact hsubset (hmem locks hchain)

end Session

/-! ## Conflicts -/

/-- Accesses with no more locks conflict if those that they cover do. -/
theorem AccessEvent.Covers.conflictsWith {strict : Bool} {a a' b b' : AccessEvent}
    (ha : a.Covers a') (hb : b.Covers b') (h : a'.conflictsWith strict b' = true) :
    a.conflictsWith strict b = true := by
  obtain ⟨-, hkind, -, hthread⟩ := EventKey.mk.inj ha.key
  obtain ⟨-, hkind', -, hthread'⟩ := EventKey.mk.inj hb.key
  rw [AccessEvent.conflictsWith, Bool.and_eq_true, SortedSet.isDisjoint_iff] at h ⊢
  rw [hkind, hkind', hthread, hthread']
  exact ⟨h.1, fun l hl hl' => h.2 l (ha.locks l hl) (hb.locks l hl')⟩

/-! ## Findings -/

instance : Std.TransOrd Confidence where
  eq_swap {a b} := by cases a <;> cases b <;> rfl
  isLE_trans {a b c} := by cases a <;> cases b <;> cases c <;> decide

/-- `f.StandsFor g`: the finding is on the path and the methods of the other, in either order, and
at least as sure. -/
structure Finding.StandsFor (f g : Finding) : Prop where
  isOn : f.IsOn g.path g.methodA g.methodB
  confidence : (compare g.confidence f.confidence).isLE = true

/-- If all that one collection exposes is covered by what another exposes, each of its findings has
one of the other that stands for it. -/
theorem Collection.exists_finding_of_covers {c c' : Collection} (hstrict : c.strict = c'.strict)
    (hexposed : ∀ className, ∀ e' ∈ c'.exposed className, ∃ e ∈ c.exposed className, e.Covers e')
    {minConfidence : Confidence} {f' : Finding} (hf' : f' ∈ c'.findings minConfidence) :
    ∃ f ∈ c.findings minConfidence, f.StandsFor f' := by
  obtain ⟨k, kept', hkept', hmin, rfl⟩ := mem_findings.1 hf'
  have harises := arises_of_mem_candidates (mem_candidates_of_get?_best hkept')
  -- the accesses that cover the two conflict as well
  obtain ⟨a, ha, hcoversa⟩ := hexposed _ _ harises.first
  obtain ⟨b, hb, hcoversb⟩ := hexposed _ _ harises.second
  obtain ⟨hpatha, -, -, hthreada⟩ := EventKey.mk.inj hcoversa.key
  obtain ⟨hpathb, -, -, hthreadb⟩ := EventKey.mk.inj hcoversb.key
  have hpath : a.path = b.path := hpatha.trans (harises.path.trans hpathb.symm)
  have hconflict : a.conflictsWith c.strict b = true :=
    hcoversa.conflictsWith hcoversb (hstrict ▸ harises.conflict)
  -- what is kept in their place is at least as sure
  obtain ⟨kept, hkept, hle⟩ := exists_best_le_of_conflict ha hb hpath hconflict
  have hsure : (compare kept'.confidence kept.confidence).isLE = true := by
    have hconfidence := Candidate.confidence_le_of_order (Candidate.order_le_of_preference hle)
    rw [Candidate.confidence_of, hthreada, hthreadb] at hconfidence
    exact hconfidence
  have hkey : kept.key = kept'.key := by
    rw [key_of_mem_candidates (mem_candidates_of_get?_best hkept), hpatha, hcoversa.owner,
      hcoversb.owner, Candidate.key]
  exact ⟨_, mem_findings.2 ⟨_, kept, hkept, Std.TransCmp.isLE_trans hmin hsure, rfl⟩,
    Finding.key_eq_iff.1 hkey, hsure⟩

theorem analyze_findings (program : Program) (config : Config) :
    (analyze program config).findings
      = ((Session.of program config).collection (Session.of program config).store).findings
          config.minConfidence :=
  rfl

/-- If every confidence will do, there is a finding for each key that something is kept for. -/
theorem exists_finding_of_mem_keys {program : Program} {config : Config}
    (hmin : config.minConfidence = .low) {path : AccessPath} {m m' : MethodId}
    (h : RaceKey.of path m m' ∈
      ((Session.of program config).collection (Session.of program config).store).best.keys) :
    ∃ f ∈ (analyze program config).findings, f.IsOn path m m' := by
  rw [← Collection.keys_findings.mem_iff] at h
  obtain ⟨f, hf, hkey⟩ := List.mem_map.1 h
  rw [analyze_findings, hmin]
  exact ⟨f, hf, Finding.key_eq_iff.1 hkey⟩

/-- **More exposed, more reported**: if the facts of an analysis are covered by those of another,
each of its findings has one of the other that stands for it. -/
theorem analyze_covers {program program' : Program} {config config' : Config}
    (hcovers : (Session.of program config).facts.Covers (Session.of program' config').facts)
    (halike : program.hierarchy.Alike program'.hierarchy)
    (hstrict : config.strictThreadContext = config'.strictThreadContext)
    (hmin : config.minConfidence = config'.minConfidence) (hmax : config.maxFixpointRounds = none)
    {f' : Finding} (hf' : f' ∈ (analyze program' config').findings) :
    ∃ f ∈ (analyze program config).findings, f.StandsFor f' := by
  rw [analyze_findings] at hf' ⊢
  rw [hmin]
  refine Collection.exists_finding_of_covers hstrict (fun className e' he' => ?_) hf'
  obtain ⟨m', hm', hroot', summary', hs', he'⟩ := Collection.mem_exposed.1 he'
  -- which methods a class shows does not depend on bodies
  obtain ⟨m, hm, hinterface⟩ := halike.symm.exists_visible hm'
  have hid : m.id = m'.id := (congrArg Method.id hinterface :)
  have hroot : m.isReportingRoot = m'.isReportingRoot :=
    (congrArg Method.isReportingRoot hinterface :)
  obtain ⟨e, he, hcovers⟩ :=
    Session.exists_event_of_covers hmax hcovers (Session.mem_eventsOf.2 ⟨summary', hs', he'⟩)
  obtain ⟨summary, hs, he⟩ := Session.mem_eventsOf.1 he
  exact ⟨e, Collection.mem_exposed.2 ⟨m, hm, hroot ▸ hroot', summary, hid ▸ hs, he⟩, hcovers⟩

/-! ## Analyses that cover each other -/

/-- What stands at a location of a method stands there in facts that cover its facts. -/
theorem FactTable.Covers.exists_viaAt {facts facts' : FactTable} (h : facts.Covers facts')
    {m : MethodId} {g : MethodFacts} (hg : facts'.get? m = some g) {loc : Location}
    {via : Option MethodId} (hvia : g.ViaAt loc via) :
    ∃ f, facts.get? m = some f ∧ f.ViaAt loc via := by
  cases via with
  | none =>
    obtain ⟨a, ha, rfl⟩ := hvia
    rcases h m g hg with ⟨hnone, -⟩ | ⟨f, hf, hcovers⟩
    · rw [hnone] at ha
      cases ha
    · obtain ⟨a', ha', haccess, -⟩ := hcovers.access a ha
      exact ⟨f, hf, a', ha', by rw [haccess]⟩
  | some callee =>
    obtain ⟨c, hc, rfl, rfl⟩ := hvia
    rcases h m g hg with ⟨-, hnone⟩ | ⟨f, hf, hcovers⟩
    · rw [hnone] at hc
      cases hc
    · obtain ⟨c', hc', hcall, -⟩ := hcovers.call c hc
      exact ⟨f, hf, c', hc', by rw [hcall], by rw [hcall]⟩

namespace Session

variable {program program' : Program} {config config' : Config}

theorem increasing_eventsOf (m : MethodId) :
    ((Session.of program config).eventsOf m).Pairwise
      (fun a b => compare a.key b.key = .lt) := by
  cases hevents : (Session.of program config).eventsOf m with
  | nil => exact .nil
  | cons e events =>
    have he : e ∈ (Session.of program config).eventsOf m := hevents ▸ List.mem_cons_self
    obtain ⟨f, summary, -, hof, heq, -⟩ := exists_summary_of_mem_eventsOf he
    rw [← hevents, heq]
    exact hof.increasing

/-- An event is one of the other analysis if each covers the other. -/
theorem mem_eventsOf_of_covers (hmax : config.maxFixpointRounds = none)
    (hmax' : config'.maxFixpointRounds = none)
    (hcovers : (Session.of program config).facts.Covers (Session.of program' config').facts)
    (hcovers' : (Session.of program' config').facts.Covers (Session.of program config).facts)
    {m : MethodId} {e : AccessEvent} (he : e ∈ (Session.of program config).eventsOf m) :
    e ∈ (Session.of program' config').eventsOf m := by
  obtain ⟨e', he', hkey, howner, hlocks⟩ := exists_event_of_covers hmax' hcovers' he
  obtain ⟨e₂, he₂, hkey₂, -, hlocks₂⟩ := exists_event_of_covers hmax hcovers he'
  obtain ⟨f, summary, hf, hof, heq, -⟩ := exists_summary_of_mem_eventsOf he
  obtain ⟨f', summary', hf', hof', heq', -⟩ := exists_summary_of_mem_eventsOf he'
  -- there and back leads to the same event
  obtain rfl : e₂ = e := hof.eq_of_key (heq ▸ he₂) (heq ▸ he) (hkey₂.trans hkey)
  obtain ⟨hpath, hkind, hlocation, hthread⟩ := EventKey.mk.inj hkey
  have hlocks : e'.locks = e₂.locks := SortedSet.ext_mem fun l => ⟨hlocks l, hlocks₂ l⟩
  have hvia : e'.via = e₂.via := by
    obtain ⟨f₂, hf₂, hvia⟩ := hcovers'.exists_viaAt hf (hof.via e₂ (heq ▸ he))
    obtain rfl := Option.some_inj.1 (hf₂.symm.trans hf')
    have hvia' := hof'.via e' (heq' ▸ he')
    rw [hlocation] at hvia'
    exact placed_of_get?_facts hf₂ hvia' hvia
  have heq : e' = e₂ := by
    cases e'
    cases e₂
    simp_all
  exact heq ▸ he'

/-- The accesses that a class exposes, from the interfaces of its visible methods. -/
theorem exposed_eq (className : String) :
    ((Session.of program config).collection (Session.of program config).store).exposed className
      = (((program.hierarchy.visibleMethods className).map Method.interface).filter
          (·.isReportingRoot)).flatMap fun m => (Session.of program config).eventsOf m.id := by
  have hevents : ∀ m : Method,
      ((Session.of program config).builder.finished? (Session.of program config).store
        m.id).toList.flatMap (·.accesses) = (Session.of program config).eventsOf m.id := by
    intro m
    rw [eventsOf]
    cases (Session.of program config).builder.finished? (Session.of program config).store m.id with
    | none => rfl
    | some summary => exact List.append_nil _
  rw [List.filter_map, List.flatMap_map]
  show List.flatMap _ (List.filterMap _ _) = _
  rw [List.filterMap_eq_flatMap_toList, List.flatMap_assoc]
  exact congrArg (List.flatMap · _) (funext hevents)

end Session

/-- The findings of a collection are told by what its classes expose. -/
theorem Collection.findings_congr {c c' : Collection}
    (hexposed : ∀ className, c.exposed className = c'.exposed className)
    (hstrict : c.strict = c'.strict) (halike : c.hierarchy.Alike c'.hierarchy)
    (minConfidence : Confidence) : c.findings minConfidence = c'.findings minConfidence := by
  have hcandidates : ∀ className, c.candidatesIn className = c'.candidatesIn className := by
    intro className
    simp only [candidatesIn, candidatesOn, hexposed, halike.sameClasses.ancestors, hstrict]
  have hbest : c.best = c'.best := by
    rw [best, best, candidates, candidates, halike.sameClasses.classNames, funext hcandidates]
  simp only [findings, hbest, funext (nameOf_of_alike halike)]

/-- The findings of an analysis are told by the accesses in summaries. -/
theorem analyze_findings_congr {program program' : Program} {config : Config}
    (halike : program.hierarchy.Alike program'.hierarchy)
    (hevents : (Session.of program config).eventsOf = (Session.of program' config).eventsOf) :
    (analyze program config).findings = (analyze program' config).findings := by
  have hexposed : ∀ className,
      ((Session.of program config).collection (Session.of program config).store).exposed className
        = ((Session.of program' config).collection
            (Session.of program' config).store).exposed className := by
    intro className
    rw [Session.exposed_eq, Session.exposed_eq, halike.visibleMethods, hevents]
  -- the mode is compared as given: unfolding both sessions side by side takes too long
  have hstrict : ∀ p : Program,
      ((Session.of p config).collection (Session.of p config).store).strict
        = config.strictThreadContext := fun _ => rfl
  rw [analyze_findings, analyze_findings]
  exact Collection.findings_congr hexposed ((hstrict program).trans (hstrict program').symm) halike
    config.minConfidence

/-- Analyses whose facts cover each other have the same findings. -/
theorem analyze_eq_of_covers {program program' : Program} {config : Config}
    (halike : program.hierarchy.Alike program'.hierarchy) (hmax : config.maxFixpointRounds = none)
    (hcovers : (Session.of program config).facts.Covers (Session.of program' config).facts)
    (hcovers' : (Session.of program' config).facts.Covers (Session.of program config).facts) :
    (analyze program config).findings = (analyze program' config).findings := by
  refine analyze_findings_congr halike (funext fun m => ?_)
  refine eq_of_increasing_keys AccessEvent.key (Session.increasing_eventsOf m)
    (Session.increasing_eventsOf m) fun e => ⟨fun he => ?_, fun he => ?_⟩
  · exact Session.mem_eventsOf_of_covers hmax hmax hcovers hcovers' he
  · exact Session.mem_eventsOf_of_covers hmax hmax hcovers' hcovers he

end Interlock
