import Interlock.Proofs.CallChains

/-!
# The form of summaries

What every summary of a method looks like, at the end and at any time while the summaries
of its component are still recomputed. The way to an event is a function of its location,
and its thread context lies between those of the method and of the summary. Neither can be
seen from one summary alone: a recomputed summary takes over the events of the methods
called, so all members of a component are looked at together.

- `AccessPath.IsCanonical`: where a path may go to elements.
- `MethodFacts.Origin`: where an event of a summary comes from.
- `Summary.Fits`: the invariant, and `MethodFacts.summarize_fits`, that recomputing keeps it.
- `duringRounds`, `duringRounds_fits`: the summaries while rounds are run.
- `Builder.fits_of_finished?`: finished summaries.
- `Summary.WellFormed`, `Session.summaries_wellFormed`: the invariant in terms of the program.
-/

namespace Interlock

/-! ## Paths -/

/-- A path goes to elements in its last step at most, and never in its first. -/
def AccessPath.IsCanonical (p : AccessPath) : Prop :=
  ∀ i : Nat, p.segments[i]? = some .element → i ≠ 0 ∧ i + 1 = p.segments.length

/-- The selectors after one that goes to elements are dropped. -/
theorem Segment.eq_length_of_ofSelectors {selectors : List Selector} {i : Nat}
    (h : (ofSelectors selectors)[i]? = some .element) : i + 1 = (ofSelectors selectors).length := by
  induction selectors generalizing i with
  | nil => cases h
  | cons selector rest ih =>
    cases selector with
    | field className name =>
      cases i with
      | zero => cases h
      | succ i => exact congrArg (· + 1) (ih h)
    | element =>
      cases i with
      | zero => rfl
      | succ i => cases h

/-- An expression stands for a canonical path, if it stands for any. -/
theorem AccessExpr.isCanonical_of_resolve {e : AccessExpr} {p : AccessPath}
    (h : e.resolve = .path p) : p.IsCanonical := by
  rw [resolve] at h
  split at h
  · cases h
  · cases h
  · cases h
  · next className name rest _ =>
    obtain rfl := Resolution.path.inj h
    intro i hi
    cases i with
    | zero => cases hi
    | succ i => exact ⟨Nat.succ_ne_zero i, congrArg (· + 1) (Segment.eq_length_of_ofSelectors hi)⟩

/-! ## Where events come from -/

namespace MethodFacts

variable {f : MethodFacts}

/-- `f.Origin summaryOf key via`: the method has an access of its own with the key, or takes it over
from the summary of `via`, which it calls. -/
inductive Origin (f : MethodFacts) (summaryOf : MethodId → Option Summary) :
    EventKey → Option MethodId → Prop
  | own {a : TaggedAccess} : a ∈ f.tagged.accesses →
      Origin f summaryOf ⟨a.access.path, a.access.kind, a.access.location, f.thread⟩ none
  | call {c : TaggedCall} {s : Summary} {e : AccessEvent} : c ∈ f.tagged.calls →
      summaryOf c.call.callee = some s → e ∈ s.accesses →
      Origin f summaryOf ⟨e.path, e.kind, c.call.location, join f.thread e.thread⟩
        (some c.call.callee)

/-- Every event of a summary comes from somewhere. -/
theorem origin_of_mem_summarize {summaryOf : MethodId → Option Summary} {e : AccessEvent}
    (he : e ∈ (f.summarize summaryOf).accesses) : f.Origin summaryOf e.key e.via := by
  obtain ⟨c, hc, hkey, hvia⟩ := EventMap.exists_via_of_foldl_add (EventMap.mem_events.1 he).2
  rw [← hkey, ← hvia]
  rcases List.mem_append.1 hc with hown | hcalled
  · obtain ⟨a, ha, rfl⟩ := List.mem_map.1 hown
    exact .own ha
  · obtain ⟨⟨call, s⟩, hmem, hc⟩ := List.mem_flatMap.1 hcalled
    obtain ⟨call', hcall, heq⟩ := List.mem_filterMap.1 hmem
    obtain ⟨s', hs, heq⟩ := Option.map_eq_some_iff.1 heq
    obtain ⟨rfl, rfl⟩ := Prod.mk.inj heq
    obtain ⟨e', he', rfl⟩ := List.mem_map.1 hc
    exact .call hcall hs he'

/-- The context of a summary is at least that of the method. -/
theorem thread_le_summarize (f : MethodFacts) (summaryOf : MethodId → Option Summary) :
    f.thread ≤ (f.summarize summaryOf).thread := by
  have hshows : (f.summarize summaryOf).Shows (.thread f.thread) :=
    summarize_shows.2 (.inl (le_refl f.thread))
  exact hshows

/-- The context of a summary is at least those of the summaries that it is made from. -/
theorem callee_thread_le_summarize {summaryOf : MethodId → Option Summary} {c : TaggedCall}
    (hc : c ∈ f.tagged.calls) {s : Summary} (hs : summaryOf c.call.callee = some s) :
    s.thread ≤ (f.summarize summaryOf).thread := by
  have hshows : (f.summarize summaryOf).Shows (.thread s.thread) :=
    summarize_shows.2 (.inr ⟨c, hc, .thread s.thread, ⟨s, hs, le_refl s.thread⟩, .thread⟩)
  exact hshows

end MethodFacts

/-! ## The invariant -/

/-- What holds of every summary of a method at any time, besides its form: an event without a way is
an access of the method itself, contexts are bounded, and paths are canonical. -/
structure Summary.Fits (s : Summary) (f : MethodFacts) : Prop where
  isOf : s.IsOf f
  own : ∀ e ∈ s.accesses, e.via = none →
    ∃ a ∈ f.tagged.accesses, a.access = ⟨e.path, e.kind, e.location⟩
  above : ∀ e ∈ s.accesses, f.thread ≤ e.thread
  below : ∀ e ∈ s.accesses, e.thread ≤ s.thread
  canonical : ∀ e ∈ s.accesses, e.path.IsCanonical

theorem Summary.emptySummary_fits (f : MethodFacts) : f.emptySummary.Fits f where
  isOf := emptySummary_isOf f
  own _ he := nomatch he
  above _ he := nomatch he
  below _ he := nomatch he
  canonical _ he := nomatch he

/-- Recomputing a summary from ones that fit gives one that fits. -/
theorem MethodFacts.summarize_fits {f : MethodFacts}
    (hpaths : ∀ a ∈ f.tagged.accesses, a.access.path.IsCanonical)
    {summaryOf : MethodId → Option Summary}
    (h : ∀ callee ∈ f.callees, ∀ s, summaryOf callee = some s → ∃ g, s.Fits g) :
    (f.summarize summaryOf).Fits f := by
  have hcallee : ∀ c ∈ f.tagged.calls, ∀ s, summaryOf c.call.callee = some s → ∃ g, s.Fits g :=
    fun c hc => h _ (List.mem_map.2 ⟨c, hc, rfl⟩)
  refine ⟨Summary.summarize_isOf f summaryOf, ?_, ?_, ?_, ?_⟩
  all_goals
    -- each condition is on single events, and an event tells where it comes from
    intro e he
    have horigin := origin_of_mem_summarize he
    obtain ⟨path, kind, locks, location, thread, owner, via⟩ := e
    simp only [AccessEvent.key] at horigin
  · rintro rfl
    obtain ⟨ha⟩ := horigin
    exact ⟨_, ha, rfl⟩
  · cases horigin with
    | own _ => exact le_refl f.thread
    | call _ _ _ => exact LawfulJoin.le_join_left _ _
  · cases horigin with
    | own _ => exact f.thread_le_summarize summaryOf
    | call hc hs he' =>
      obtain ⟨g, hfits⟩ := hcallee _ hc _ hs
      exact LawfulJoin.join_le (f.thread_le_summarize summaryOf)
        (le_trans (hfits.below _ he') (callee_thread_le_summarize hc hs))
  · cases horigin with
    | own ha => exact hpaths _ ha
    | @call _ _ e' hc hs he' =>
      obtain ⟨g, hfits⟩ := hcallee _ hc _ hs
      exact hfits.canonical e' he'

/-! ## Rounds -/

section Rounds

variable {finished : MethodId → Option Summary} {members : List MethodFacts}
  {current : SortedMap MethodId Summary}

/-- Each member has a summary that fits, and no other method has one. -/
structure IsFitState (members : List MethodFacts) (current : SortedMap MethodId Summary) :
    Prop where
  isState : IsState members current
  fits : ∀ f ∈ members, ∀ s, current.get? f.method = some s → s.Fits f

/-- The summaries of a component after `n` rounds and the first `j` updates of the next one. -/
def duringRounds (finished : MethodId → Option Summary) (members : List MethodFacts) (n j : Nat) :
    SortedMap MethodId Summary :=
  runRound finished (members.take j) ((runRound finished members)^[n] (initialSummaries members))

theorem initialSummaries_isFitState (hnodup : (members.map (·.method)).Nodup) :
    IsFitState members (initialSummaries members) where
  isState := initialSummaries_isState hnodup
  fits f hf s hs := by
    rw [initialSummaries, get?_ofList_members hnodup MethodFacts.emptySummary hf] at hs
    rw [← Option.some_inj.1 hs]
    exact Summary.emptySummary_fits f

/-- What a component needs to know of the methods around it: paths are canonical, and the summaries
of methods called outside of it fit. -/
structure FitsAround (finished : MethodId → Option Summary) (members : List MethodFacts) :
    Prop where
  nodup : (members.map (·.method)).Nodup
  canonical : ∀ f ∈ members, ∀ a ∈ f.tagged.accesses, a.access.path.IsCanonical
  outside : ∀ f ∈ members, ∀ callee ∈ f.callees, callee ∉ members.map (·.method) →
    ∀ s, finished callee = some s → ∃ g, s.Fits g

namespace FitsAround

variable (h : FitsAround finished members)

include h

/-- One update. -/
theorem summarize_fits (hcurrent : IsFitState members current) {f : MethodFacts}
    (hf : f ∈ members) : (f.summarize (calleeSummary current finished)).Fits f := by
  refine f.summarize_fits (h.canonical f hf) fun callee hcallee s hs => ?_
  by_cases hmember : callee ∈ members.map (·.method)
  · obtain ⟨g, hg, rfl⟩ := List.mem_map.1 hmember
    obtain ⟨s', hs', -⟩ := hcurrent.isState.isOf g hg
    rw [calleeSummary, hs', Option.some_or, Option.some_inj] at hs
    exact ⟨g, hs ▸ hcurrent.fits g hg s' hs'⟩
  · rw [calleeSummary, hcurrent.isState.only callee hmember, Option.none_or] at hs
    exact h.outside f hf callee hcallee hmember s hs

/-- Any updates of members in turn. -/
theorem runRound_fits {updated : List MethodFacts} (hupdated : ∀ f ∈ updated, f ∈ members)
    (hcurrent : IsFitState members current) :
    IsFitState members (runRound finished updated current) := by
  refine runRound_induction (fun f hf current hcurrent => ?_) hcurrent
  have hnew := h.summarize_fits hcurrent (hupdated f hf)
  refine ⟨hcurrent.isState.insert h.nodup (hupdated f hf) hnew.isOf, fun g hg s hs => ?_⟩
  rw [SortedMap.get?_insert] at hs
  split at hs
  · next heq =>
    obtain rfl := List.inj_on_of_nodup_map h.nodup hg (hupdated f hf) heq
    exact Option.some_inj.1 hs ▸ hnew
  · exact hcurrent.fits g hg s hs

/-- So the summaries fit after any number of rounds. -/
theorem iterate_runRound_fits (n : Nat) :
    IsFitState members ((runRound finished members)^[n] (initialSummaries members)) := by
  induction n with
  | zero => exact initialSummaries_isFitState h.nodup
  | succ n ih =>
    rw [Function.iterate_succ_apply']
    exact h.runRound_fits (fun _ hf => hf) ih

/-- And also in the middle of a round. -/
theorem duringRounds_fits (n j : Nat) : IsFitState members (duringRounds finished members n j) :=
  h.runRound_fits (fun _ hf => List.mem_of_mem_take hf) (h.iterate_runRound_fits n)

/-- The order of the members does not matter for what is around them. -/
theorem of_perm {members' : List MethodFacts} (hperm : members'.Perm members) :
    FitsAround finished members' where
  nodup := (hperm.map _).nodup_iff.2 h.nodup
  canonical f hf := h.canonical f (hperm.mem_iff.1 hf)
  outside f hf callee hcallee hout :=
    h.outside f (hperm.mem_iff.1 hf) callee hcallee ((hperm.map _).mem_iff.not.1 hout)

/-- The summaries in an outcome fit. -/
theorem fits_of_ok {cyclic : Bool} (hacyclic : cyclic = false → ∀ f ∈ members,
      ∀ callee ∈ f.callees, callee ∉ members.map (·.method)) {maxRounds : Option Nat}
    {out : ComponentSummaries}
    (hok : summarizeComponent cyclic maxRounds finished members = .ok out) {f : MethodFacts}
    (hf : f ∈ members) {s : Summary} (hs : out.summaries.get? f.method = some s) : s.Fits f := by
  cases cyclic with
  | true =>
    -- rounds go through the members in another order
    have hperm := calleeFirst_perm h.nodup
    rw [summarizeComponent_cyclic] at hok
    split at hok
    · next summaries hiterate =>
      obtain rfl := Except.ok.inj hok
      obtain ⟨-, n, hn⟩ := iterate_eq_some hiterate
      rw [hn] at hs
      exact ((h.of_perm hperm).iterate_runRound_fits n).fits f (hperm.mem_iff.2 hf) s hs
    · cases hok
  | false =>
    rw [summarizeComponent_acyclic] at hok
    obtain rfl := Except.ok.inj hok
    rw [get?_ofList_members h.nodup (·.summarize finished) hf] at hs
    rw [← Option.some_inj.1 hs]
    exact f.summarize_fits (h.canonical f hf) fun callee hcallee =>
      h.outside f hf callee hcallee (hacyclic rfl f hf callee hcallee)

end FitsAround

end Rounds

/-! ## Finished summaries -/

namespace Builder

variable {b : Builder} (hk : b.facts.Keyed) (hg : b.graph = .of b.facts) {store : Store}
  (hstore : ∀ c < b.graph.size, store.get? c = some (b.compute store c))
  (hpaths : ∀ m f, b.facts.get? m = some f →
    ∀ a ∈ f.tagged.accesses, a.access.path.IsCanonical)

include hk hg hpaths

/-- What holds around a component, if the summaries of components with smaller numbers fit. -/
theorem fitsAround_of_lt {c : Nat} (h : ∀ m d s, b.graph.componentOf? m = some d → d < c →
      b.finished? store m = some s → ∃ g, s.Fits g) :
    FitsAround (b.finished? store) (b.memberFacts c) where
  nodup := nodup_memberFacts hk hg c
  canonical f hf := hpaths _ f ((mem_memberFacts hk hg).1 hf).1
  outside f hf callee hcallee hout s hs := by
    obtain ⟨d, -, hd, -, -⟩ := exists_component_of_finished? hs
    exact h callee d s hd (lt_of_call_outside hk hg hf hcallee hout hd) hs

include hstore

/-- **Finished summaries fit**: each one fits the facts of its method. -/
theorem fits_of_finished? {m : MethodId} {s : Summary} (h : b.finished? store m = some s) :
    ∃ f, b.facts.get? m = some f ∧ s.Fits f := by
  obtain ⟨c, out, hm, hout, hs⟩ := exists_component_of_finished? h
  -- on the number of the component, which is larger than those of the components it calls
  induction c using Nat.strongRecOn generalizing m s out with
  | _ c ih =>
    obtain ⟨f, -, hfacts, hf, rfl, -⟩ := done_of_component hk hg hstore hm hout
    have hbelow : ∀ m d s, b.graph.componentOf? m = some d → d < c →
        b.finished? store m = some s → ∃ g, s.Fits g := by
      intro m d s hd hlt hfinished
      obtain ⟨d', out', hd', hout', hs'⟩ := exists_component_of_finished? hfinished
      obtain rfl := Option.some_inj.1 (hd.symm.trans hd')
      obtain ⟨g, -, hfits⟩ := ih d hlt hfinished out' hd' hout' hs'
      exact ⟨g, hfits⟩
    have hcompute : b.compute store c = .ok out :=
      Option.some_inj.1 ((hstore c (lt_size_of_componentOf? hk hg hm)).symm.trans hout)
    exact ⟨f, hfacts, (fitsAround_of_lt hk hg hpaths hbelow).fits_of_ok
      (not_call_within_memberFacts hk hg) hcompute hf hs⟩

/-- While rounds are run in a component, the summaries of its members fit. -/
theorem fits_duringRounds {c n j : Nat} {m : MethodId} {s : Summary}
    (h : (duringRounds (b.finished? store) (calleeFirst (b.memberFacts c)) n j).get? m = some s) :
    ∃ f, b.facts.get? m = some f ∧ s.Fits f := by
  have hperm := calleeFirst_perm (nodup_memberFacts hk hg c)
  have haround : FitsAround (b.finished? store) (b.memberFacts c) := by
    refine fitsAround_of_lt hk hg hpaths fun m d s _ _ hfinished => ?_
    obtain ⟨g, -, hfits⟩ := fits_of_finished? hk hg hstore hpaths hfinished
    exact ⟨g, hfits⟩
  have hstate := (haround.of_perm hperm).duringRounds_fits n j
  -- only members have summaries here
  have hmember : m ∈ (calleeFirst (b.memberFacts c)).map (·.method) := by
    by_contra hnot
    rw [hstate.isState.only m hnot] at h
    cases h
  obtain ⟨f, hf, rfl⟩ := List.mem_map.1 hmember
  exact ⟨f, ((mem_memberFacts hk hg).1 (hperm.mem_iff.1 hf)).1, hstate.fits f hf s h⟩

end Builder

/-! ## In terms of the program -/

/-- The event stands at an operation of the method. It has no way exactly if that operation is an
access of its kind to its path, and goes by way of a method exactly if that is called there. -/
structure AccessEvent.IsAt (e : AccessEvent) (m : Method) (op : Operation) : Prop where
  operation : (m.body.operations e.location.block)[e.location.op]? = some op
  location : e.location = m.locationOf e.location.pos op
  access : e.via = none ↔
    ∃ target, op.action.target? = some (target, e.kind) ∧ target.resolve = .path e.path
  call : ∀ callee, e.via = some callee ↔ ∃ locksHeld, op.action = .call callee locksHeld

/-- The representation invariant of the summaries of a method with the given context. Contexts are
compared in their chain: main, unknown, background. -/
structure Summary.WellFormed (s : Summary) (m : Method) (direct : ThreadContext) : Prop where
  method : s.method = m.id
  increasing : s.accesses.Pairwise fun a b => compare a.key b.key = .lt
  unique : ∀ a ∈ s.accesses, ∀ b ∈ s.accesses, a.key = b.key → a = b
  owner : ∀ e ∈ s.accesses, e.owner = m.id
  isAt : ∀ e ∈ s.accesses, ∃ op, e.IsAt m op
  thread : ∀ e ∈ s.accesses, direct ≤ e.thread ∧ e.thread ≤ s.thread
  canonical : ∀ e ∈ s.accesses, e.path.IsCanonical

namespace Method

variable {m : Method} {f : MethodFacts}

/-- The accesses of a method are to canonical paths. -/
theorem Tags.isCanonical (h : m.Tags f.tagged) {a : TaggedAccess} (ha : a ∈ f.tagged.accesses) :
    a.access.path.IsCanonical := by
  obtain ⟨op, -, hitem⟩ := h.access a ha
  obtain ⟨-, target, -, hresolve⟩ := itemAt?_access hitem
  exact AccessExpr.isCanonical_of_resolve hresolve

/-- An event of a summary that fits stands at the operation that gave rise to it. -/
theorem Tags.exists_isAt (h : m.Tags f.tagged) {s : Summary} (hs : s.Fits f) {e : AccessEvent}
    (he : e ∈ s.accesses) : ∃ op, e.IsAt m op := by
  cases hvia : e.via with
  | none =>
    obtain ⟨a, ha, haccess⟩ := hs.own e he hvia
    obtain ⟨op, hop, hitem⟩ := h.access a ha
    rw [haccess] at hop hitem
    obtain ⟨hlocation, target, htarget, hresolve⟩ := itemAt?_access hitem
    refine ⟨op, hop, hlocation, ?_, fun callee => ?_⟩
    · exact iff_of_true hvia ⟨target, htarget, hresolve⟩
    · refine iff_of_false (by rw [hvia]; nofun) ?_
      rintro ⟨locksHeld, hcall⟩
      rw [hcall] at htarget
      cases htarget
  | some callee =>
    have hat := hs.isOf.via e he
    rw [hvia] at hat
    obtain ⟨c, hc, hloc, rfl⟩ := hat
    obtain ⟨op, hop, hitem⟩ := h.call c hc
    rw [hloc] at hop hitem
    obtain ⟨hlocation, locksHeld, hcall⟩ := itemAt?_call hitem
    rw [hloc] at hlocation
    refine ⟨op, hop, hlocation, ?_, fun callee => ?_⟩
    · refine iff_of_false (by rw [hvia]; nofun) ?_
      rintro ⟨target, htarget, -⟩
      rw [hcall] at htarget
      cases htarget
    · rw [hvia, hcall, Option.some_inj]
      constructor
      · rintro rfl
        exact ⟨locksHeld, rfl⟩
      · rintro ⟨_, heq⟩
        exact (Action.call.inj heq).1

end Method

namespace Session

variable {program : Program} {config : Config}

theorem isCanonical_of_get?_facts {m : MethodId} {f : MethodFacts}
    (hf : (Session.of program config).facts.get? m = some f) {a : TaggedAccess}
    (ha : a ∈ f.tagged.accesses) : a.access.path.IsCanonical := by
  obtain ⟨method, -, -, rfl⟩ := get?_facts.1 hf
  exact (method.tags_prepare _ _).isCanonical ha

/-- A summary that fits the facts of a session satisfies the representation invariant. -/
theorem wellFormed_of_fits {m : MethodId} {f : MethodFacts}
    (hf : (Session.of program config).facts.get? m = some f) {s : Summary} (hs : s.Fits f) :
    ∃ method ∈ program.accepted, method.id = m ∧
      s.WellFormed method ((Session.of program config).hierarchy.classify method) := by
  obtain ⟨method, hmethod, hid, rfl⟩ := get?_facts.1 hf
  have hthread := method.prepare_thread (Session.of program config).hierarchy
    (config.perMethodBudget.map UInt64.toNat)
  refine ⟨method, hmethod, hid, ?_⟩
  exact {
    method := hs.isOf.method.trans (Method.prepare_method _ _ method)
    increasing := hs.isOf.increasing
    unique := fun a ha b hb => hs.isOf.eq_of_key ha hb
    owner := fun e he => (hs.isOf.owner e he).trans (Method.prepare_method _ _ method)
    isAt := fun e he => (method.tags_prepare _ _).exists_isAt hs he
    thread := fun e he => ⟨hthread ▸ hs.above e he, hs.below e he⟩
    canonical := hs.canonical }

/-- **Representation invariant**: the finished summary of every method of a session satisfies it,
and so do the summaries of all members of a component at any time while rounds are run there. -/
theorem summaries_wellFormed (program : Program) (config : Config) (m : MethodId) (s : Summary)
    (h : (Session.of program config).builder.finished? (Session.of program config).store m
        = some s ∨
      ∃ c n j, (duringRounds
        ((Session.of program config).builder.finished? (Session.of program config).store)
        (calleeFirst ((Session.of program config).builder.memberFacts c)) n j).get? m = some s) :
    ∃ method ∈ program.accepted, method.id = m ∧
      s.WellFormed method ((Session.of program config).hierarchy.classify method) := by
  have hk : (Session.of program config).builder.facts.Keyed := keyed_facts program config
  have hpaths : ∀ m f, (Session.of program config).builder.facts.get? m = some f →
      ∀ a ∈ f.tagged.accesses, a.access.path.IsCanonical :=
    fun _ _ hf _ ha => isCanonical_of_get?_facts hf ha
  have hfits : ∃ f, (Session.of program config).facts.get? m = some f ∧ s.Fits f := by
    rcases h with h | ⟨c, n, j, h⟩
    · exact Builder.fits_of_finished? hk rfl (fun _ => get?_store program config) hpaths h
    · exact Builder.fits_duringRounds hk rfl (fun _ => get?_store program config) hpaths h
  obtain ⟨f, hf, hs⟩ := hfits
  exact wellFormed_of_fits hf hs

/-- The write in one of two methods that call each other, as it stands in the finished summary of
the other one and already there in the first round. -/
theorem summaries_wellFormed_pingPong :
    ∃ s s', (Session.of .pingPong {}).builder.finished? (Session.of .pingPong {}).store ⟨0⟩
        = some s ∧
      (duringRounds ((Session.of .pingPong {}).builder.finished? (Session.of .pingPong {}).store)
        (calleeFirst ((Session.of .pingPong {}).builder.memberFacts 0)) 0 2).get? ⟨0⟩ = some s' ∧
      s.accesses.map (·.via) = [some ⟨1⟩] ∧ s'.accesses.map (·.via) = [some ⟨1⟩] ∧
      (∃ method ∈ Program.pingPong.accepted, method.id = ⟨0⟩ ∧
        s.WellFormed method ((Session.of .pingPong {}).hierarchy.classify method)) ∧
      ∃ method ∈ Program.pingPong.accepted, method.id = ⟨0⟩ ∧
        s'.WellFormed method ((Session.of .pingPong {}).hierarchy.classify method) := by
  have hdone : ((Session.of .pingPong {}).builder.finished? (Session.of .pingPong {}).store ⟨0⟩).map
      (fun s => s.accesses.map (·.via)) = some [some ⟨1⟩] := by decide +kernel
  have hduring : ((duringRounds
      ((Session.of .pingPong {}).builder.finished? (Session.of .pingPong {}).store)
      (calleeFirst ((Session.of .pingPong {}).builder.memberFacts 0)) 0 2).get? ⟨0⟩).map
      (fun s => s.accesses.map (·.via)) = some [some ⟨1⟩] := by decide +kernel
  obtain ⟨s, hs, hvia⟩ := Option.map_eq_some_iff.1 hdone
  obtain ⟨s', hs', hvia'⟩ := Option.map_eq_some_iff.1 hduring
  exact ⟨s, s', hs, hs', hvia, hvia', summaries_wellFormed .pingPong {} ⟨0⟩ s (.inl hs),
    summaries_wellFormed .pingPong {} ⟨0⟩ s' (.inr ⟨0, 0, 2, hs'⟩)⟩

end Session

end Interlock
