import Interlock.Proofs.Store
import Interlock.Proofs.Unlined

/-!
# Summaries without line numbers

Events are kept in the order of their keys, which have lines in them. Without lines the
events of a summary are the same in another order, and they are the events that the same
computation gives without lines. Since no two locations of a method become the same, a
round changes something exactly if it does so without lines, and the rounds are as many.

- `Summary.unlined`, `Outcome.unlined`: summaries and outcomes without lines.
- `Summary.shows_unlined`: their features.
- `MethodFacts.summarize_unlined`: summaries are computed alike.
- `Summary.IsOf.eq_of_unlined`: no two summaries of a method become the same.
- `runRound_unlined`, `iterate_unlined`, `summarizeComponent_unlined`: rounds and outcomes.
- `Builder.outcomeOf_unlined`, `Session.get?_store_unlined`: all components.
-/

namespace Interlock

/-- The event without its line. -/
def AccessEvent.unlined (e : AccessEvent) : AccessEvent := { e with location := e.location.unlined }

/-- The key without its line. -/
def EventKey.unlined (k : EventKey) : EventKey := { k with location := k.location.unlined }

/-- The feature without its line. -/
def Feature.unlined : Feature → Feature
  | access key lacking => .access key.unlined lacking
  | thread context => .thread context

/-- The summary without lines, its events in order again. -/
def Summary.unlined (s : Summary) : Summary :=
  { s with
    accesses := (s.accesses.map AccessEvent.unlined).mergeSort fun a b =>
      (compare a.key b.key).isLE }

/-- The summaries of a component without lines. -/
def ComponentSummaries.unlined (c : ComponentSummaries) : ComponentSummaries :=
  { c with summaries := c.summaries.mapValues Summary.unlined }

/-- The outcome of a component without lines. -/
def Outcome.unlined (outcome : Outcome) : Outcome := outcome.map ComponentSummaries.unlined

/-- The summaries of methods without lines. -/
def unlinedSummaries (summaryOf : MethodId → Option Summary) (m : MethodId) : Option Summary :=
  (summaryOf m).map Summary.unlined

/-! ## Features -/

/-- `Unlined has m φ`: the method has the feature, up to the line. -/
def Unlined (has : MethodId → Feature → Prop) (m : MethodId) (φ : Feature) : Prop :=
  ∃ φ', φ'.unlined = φ ∧ has m φ'

namespace Feature

variable {P : Feature → Prop}

/-- A feature that becomes one of an access is one of an access, up to the line in its key. -/
theorem exists_unlined_access {key : EventKey} {lacking : Option LockId} :
    (∃ φ, φ.unlined = .access key lacking ∧ P φ) ↔
      ∃ key', key'.unlined = key ∧ P (.access key' lacking) := by
  constructor
  · rintro ⟨φ, hφ, hP⟩
    cases φ with
    | access key' lacking' =>
      obtain ⟨hkey, rfl⟩ := access.inj hφ
      exact ⟨key', hkey, hP⟩
    | thread context => cases hφ
  · rintro ⟨key', rfl, hP⟩
    exact ⟨.access key' lacking, rfl, hP⟩

/-- A feature of threads has no line to lose. -/
theorem exists_unlined_thread {context : ThreadContext} :
    (∃ φ, φ.unlined = .thread context ∧ P φ) ↔ P (.thread context) := by
  constructor
  · rintro ⟨φ, hφ, hP⟩
    cases φ with
    | access key lacking => cases hφ
    | thread context' =>
      obtain rfl := thread.inj hφ
      exact hP
  · exact fun hP => ⟨.thread context, rfl, hP⟩

end Feature

namespace Summary

variable {s : Summary}

theorem mem_accesses_unlined {e : AccessEvent} :
    e ∈ s.unlined.accesses ↔ ∃ e' ∈ s.accesses, e'.unlined = e := by
  rw [unlined, List.mem_mergeSort, List.mem_map]

/-- A summary without lines shows the features of the summary, each without its line. -/
theorem shows_unlined {φ : Feature} : s.unlined.Shows φ ↔ ∃ φ', φ'.unlined = φ ∧ s.Shows φ' := by
  cases φ with
  | access key lacking =>
    rw [Feature.exists_unlined_access]
    constructor
    · rintro ⟨_, hmem, rfl, hlacking⟩
      obtain ⟨e, he, rfl⟩ := mem_accesses_unlined.1 hmem
      exact ⟨e.key, rfl, e, he, rfl, hlacking⟩
    · rintro ⟨_, rfl, e, he, rfl, hlacking⟩
      exact ⟨e.unlined, mem_accesses_unlined.2 ⟨e, he, rfl⟩, rfl, hlacking⟩
  | thread context =>
    rw [Feature.exists_unlined_thread]
    rfl

end Summary

/-- The same for the summaries of all methods. -/
theorem shownBy_unlined {summaryOf : MethodId → Option Summary} :
    ShownBy (unlinedSummaries summaryOf) = Unlined (ShownBy summaryOf) := by
  funext m φ
  apply propext
  constructor
  · rintro ⟨_, hget, hshows⟩
    obtain ⟨s, hs, rfl⟩ := Option.map_eq_some_iff.1 hget
    obtain ⟨φ', hφ', hshows'⟩ := Summary.shows_unlined.1 hshows
    exact ⟨φ', hφ', s, hs, hshows'⟩
  · rintro ⟨φ', hφ', s, hs, hshows⟩
    exact ⟨s.unlined, by rw [unlinedSummaries, hs, Option.map_some],
      Summary.shows_unlined.2 ⟨φ', hφ', hshows⟩⟩

namespace MethodFacts

variable {f : MethodFacts}

/-- What the accesses of a method itself contribute without lines. -/
theorem own_unlined {φ : Feature} : f.unlined.Own φ ↔ ∃ φ', φ'.unlined = φ ∧ f.Own φ' := by
  have hown : f.unlined.ownContributions
      = f.ownContributions.map fun c => { c with key := c.key.unlined } := by
    rw [ownContributions, ownContributions, List.map_map]
    exact List.map_map
  cases φ with
  | access key lacking =>
    rw [Feature.exists_unlined_access, Own, hown]
    constructor
    · rintro ⟨_, hmem, rfl, hlacking⟩
      obtain ⟨c, hc, rfl⟩ := List.mem_map.1 hmem
      exact ⟨c.key, rfl, c, hc, rfl, hlacking⟩
    · rintro ⟨_, rfl, c, hc, rfl, hlacking⟩
      exact ⟨_, List.mem_map.2 ⟨c, hc, rfl⟩, rfl, hlacking⟩
  | thread context =>
    rw [Feature.exists_unlined_thread]
    rfl

/-- A call moves an access to its own place, so the line there is that of the call. -/
theorem lifts_unlined {c : TaggedCall} {φ ψ : Feature} :
    f.unlined.Lifts c.unlined φ.unlined ψ ↔ ∃ ψ', ψ'.unlined = ψ ∧ f.Lifts c φ ψ' := by
  constructor
  · intro h
    cases φ with
    | access key lacking =>
      cases h with
      | access hlacking => exact ⟨_, rfl, .access hlacking⟩
    | thread context =>
      cases h
      exact ⟨_, rfl, .thread⟩
  · rintro ⟨ψ', rfl, h⟩
    cases h with
    | access hlacking => exact .access hlacking
    | thread => exact .thread

/-- What a method gains from its accesses and calls: the features it gains with lines, each without
its line. -/
theorem gains_unlined {has : MethodId → Feature → Prop} {φ : Feature} :
    f.unlined.Gains (Unlined has) φ ↔ ∃ φ', φ'.unlined = φ ∧ f.Gains has φ' := by
  constructor
  · rintro (hown | ⟨_, hmem, _, ⟨φ', rfl, hhas⟩, hlifts⟩)
    · obtain ⟨φ', hφ', hown'⟩ := own_unlined.1 hown
      exact ⟨φ', hφ', .inl hown'⟩
    · obtain ⟨c, hc, rfl⟩ := List.mem_map.1 hmem
      obtain ⟨ψ, hψ, hlifts'⟩ := lifts_unlined.1 hlifts
      exact ⟨ψ, hψ, .inr ⟨c, hc, φ', hhas, hlifts'⟩⟩
  · rintro ⟨φ', hφ', hown | ⟨c, hc, ψ, hhas, hlifts⟩⟩
    · exact .inl (own_unlined.2 ⟨φ', hφ', hown⟩)
    · exact .inr ⟨c.unlined, List.mem_map.2 ⟨c, hc, rfl⟩, ψ.unlined, ⟨ψ, rfl, hhas⟩,
        lifts_unlined.2 ⟨φ', hφ', hlifts⟩⟩

end MethodFacts

/-! ## Summaries of one method -/

/-- What the facts of a method say about places: what stands there, and on which line. -/
structure MethodFacts.Charted (f : MethodFacts) : Prop where
  placed : f.Placed
  lined : f.Lined

namespace Summary.IsOf

variable {s s' : Summary} {f : MethodFacts} (hf : f.Charted)

include hf

/-- Events are told apart without lines. -/
theorem key_eq_of_unlined (h : s.IsOf f) (h' : s'.IsOf f) {e e' : AccessEvent}
    (he : e ∈ s.accesses) (he' : e' ∈ s'.accesses) (hkey : e.key.unlined = e'.key.unlined) :
    e.key = e'.key := by
  obtain ⟨hpath, hkind, hlocation, hthread⟩ := EventKey.mk.inj hkey
  have hpath : e.path = e'.path := hpath
  have hkind : e.kind = e'.kind := hkind
  have hthread : e.thread = e'.thread := hthread
  -- at one place there is one line
  have hlocation : e.location = e'.location := hf.lined (h.via e he) (h'.via e' he') hlocation
  rw [AccessEvent.key, AccessEvent.key, hpath, hkind, hlocation, hthread]

/-- A summary of a method without lines is one of the method without lines. Its keys are still
distinct, so sorting them again puts them in increasing order. -/
theorem unlined (h : s.IsOf f) : s.unlined.IsOf f.unlined where
  method := h.method
  degraded := h.degraded
  increasing := by
    -- sorted, and without repetition: no two events get the same key when they lose their lines
    have hsorted : s.unlined.accesses.Pairwise fun a b => (compare a.key b.key).isLE :=
      pairwise_mergeSort_isLE (compareOn AccessEvent.key) _
    have hkeys : (s.unlined.accesses.map AccessEvent.key).Nodup := by
      refine ((List.mergeSort_perm _ _).map _).nodup_iff.2 ?_
      rw [List.map_map]
      refine List.Nodup.map_on (fun e he e' he' heq => ?_) ?_
      · exact h.eq_of_key he he' (key_eq_of_unlined hf h h he he' heq)
      · exact List.Nodup.of_map _ (nodup_of_increasing (List.pairwise_map.2 h.increasing))
    refine (hsorted.and (List.pairwise_map.1 hkeys)).imp fun {a b} hab => ?_
    cases hcompare : compare a.key b.key with
    | lt => rfl
    | eq => exact absurd (Std.LawfulEqOrd.eq_of_compare hcompare) hab.2
    | gt =>
      rw [hcompare] at hab
      cases hab.1
  owner _ hmem := by
    obtain ⟨e, he, rfl⟩ := mem_accesses_unlined.1 hmem
    exact h.owner e he
  via _ hmem := by
    obtain ⟨e, he, rfl⟩ := mem_accesses_unlined.1 hmem
    exact MethodFacts.viaAt_unlined.2 ⟨e.location, rfl, h.via e he⟩

/-- Two summaries of a method that are the same without lines show the same features. -/
theorem shows_of_unlined (h : s.IsOf f) (h' : s'.IsOf f) (heq : s.unlined = s'.unlined)
    {φ : Feature} (hφ : s.Shows φ) : s'.Shows φ := by
  have hshows : s'.unlined.Shows φ.unlined := heq ▸ shows_unlined.2 ⟨φ, rfl, hφ⟩
  rw [shows_unlined] at hshows
  cases φ with
  | thread context => exact Feature.exists_unlined_thread.1 hshows
  | access key lacking =>
    obtain ⟨_, hkey, e', he', rfl, hlacking⟩ := Feature.exists_unlined_access.1 hshows
    obtain ⟨e, he, rfl, -⟩ := hφ
    exact ⟨e', he', key_eq_of_unlined hf h' h he' he hkey, hlacking⟩

/-- Summaries of a method are the same if they are without lines. -/
theorem eq_of_unlined (h : s.IsOf f) (h' : s'.IsOf f) (heq : s.unlined = s'.unlined) : s = s' :=
  ext_shows hf.placed h h' fun _ =>
    ⟨shows_of_unlined hf h h' heq, shows_of_unlined hf h' h heq.symm⟩

end Summary.IsOf

namespace MethodFacts

variable {f : MethodFacts}

/-- Summaries are computed alike without lines. Both sides are summaries of the method without
lines, and they show the same features. -/
theorem summarize_unlined (hf : f.Charted) (summaryOf : MethodId → Option Summary) :
    (f.summarize summaryOf).unlined = f.unlined.summarize (unlinedSummaries summaryOf) := by
  refine Summary.IsOf.ext_shows (Lined.placed_unlined hf.lined hf.placed)
    ((Summary.summarize_isOf f summaryOf).unlined hf) (Summary.summarize_isOf _ _) fun φ => ?_
  rw [Summary.shows_unlined, summarize_shows, shownBy_unlined, gains_unlined]
  simp only [summarize_shows]

theorem emptySummary_unlined (f : MethodFacts) :
    f.emptySummary.unlined = f.unlined.emptySummary := by
  rw [emptySummary, Summary.unlined, List.map_nil, List.mergeSort_nil]
  rfl

end MethodFacts

/-! ## Rounds -/

section Rounds

variable {finished : MethodId → Option Summary} {members : List MethodFacts}
  {current : SortedMap MethodId Summary}

/-- In the middle of a round, callees are looked up alike. -/
theorem calleeSummary_unlined :
    calleeSummary (current.mapValues Summary.unlined) (unlinedSummaries finished)
      = unlinedSummaries (calleeSummary current finished) := by
  funext m
  rw [calleeSummary, unlinedSummaries, unlinedSummaries, calleeSummary, SortedMap.get?_mapValues]
  cases current.get? m <;> rfl

/-- A round does the same without lines. -/
theorem runRound_unlined (hcharted : ∀ f ∈ members, f.Charted) :
    (runRound finished members current).mapValues Summary.unlined
      = runRound (unlinedSummaries finished) (members.map MethodFacts.unlined)
          (current.mapValues Summary.unlined) := by
  rw [runRound, runRound]
  induction members generalizing current with
  | nil => rfl
  | cons f members ih =>
    have hf := hcharted f List.mem_cons_self
    rw [List.foldl_cons, List.map_cons, List.foldl_cons,
      ih fun g hg => hcharted g (List.mem_cons_of_mem f hg), SortedMap.mapValues_insert,
      f.summarize_unlined hf, calleeSummary_unlined]
    rfl

theorem initialSummaries_unlined : (initialSummaries members).mapValues Summary.unlined
    = initialSummaries (members.map MethodFacts.unlined) := by
  rw [initialSummaries, initialSummaries, SortedMap.mapValues_ofList, List.map_map, List.map_map]
  refine congrArg SortedMap.ofList (List.map_congr_left fun f _ => ?_)
  rw [Function.comp_apply, Function.comp_apply, f.emptySummary_unlined]
  rfl

/-- States are the same if they are without lines. -/
theorem IsState.eq_of_unlined (hcharted : ∀ f ∈ members, f.Charted)
    {next : SortedMap MethodId Summary} (h : IsState members current) (h' : IsState members next)
    (heq : current.mapValues Summary.unlined = next.mapValues Summary.unlined) :
    current = next := by
  refine SortedMap.ext_get? fun m => ?_
  -- a state has a summary for each member and for nothing else
  by_cases hm : m ∈ members.map (·.method)
  · obtain ⟨f, hf, rfl⟩ := List.mem_map.1 hm
    obtain ⟨s, hs, hsof⟩ := h.isOf f hf
    obtain ⟨s', hs', hsof'⟩ := h'.isOf f hf
    have hget := congrArg (SortedMap.get? · f.method) heq
    simp only [SortedMap.get?_mapValues, hs, hs', Option.map_some, Option.some_inj] at hget
    rw [hs, hs', hsof.eq_of_unlined (hcharted f hf) hsof' hget]
  · rw [h.only m hm, h'.only m hm]

/-- **Rounds**: as many are run without lines, to the same summaries. -/
theorem iterate_unlined (hcharted : ∀ f ∈ members, f.Charted)
    (hnodup : (members.map (·.method)).Nodup) (left done : Nat) (h : IsState members current) :
    iterate (unlinedSummaries finished) (members.map MethodFacts.unlined) left done
        (current.mapValues Summary.unlined)
      = (iterate finished members left done current).map ComponentSummaries.unlined := by
  induction left generalizing done current with
  | zero => rfl
  | succ left ih =>
    have hnext : IsState members (runRound finished members current) := runRound_isState hnodup h
    rw [iterate, iterate, ← runRound_unlined hcharted, ih (done + 1) hnext]
    -- the loop stops at the same round, because lines do not hide a change
    by_cases hstable : runRound finished members current = current
    · rw [if_pos hstable, if_pos (congrArg _ hstable)]
      rfl
    · rw [if_neg hstable, if_neg fun heq => hstable (hnext.eq_of_unlined hcharted h heq)]

end Rounds

/-! ## Outcomes -/

section Component

variable {finished : MethodId → Option Summary} {members : List MethodFacts}

theorem find?_unlined (members : List MethodFacts) (m : MethodId) :
    (members.map MethodFacts.unlined).find? (·.method = m)
      = (members.find? (·.method = m)).map MethodFacts.unlined := by
  rw [List.find?_map]
  rfl

theorem any_unlined (members : List MethodFacts) (m : MethodId) :
    (members.map MethodFacts.unlined).any (·.method = m) = members.any (·.method = m) := by
  rw [List.any_map]
  rfl

/-- The members are taken in the same order, which is a matter of calls. -/
theorem calleeFirst_unlined (members : List MethodFacts) :
    calleeFirst (members.map MethodFacts.unlined)
      = (calleeFirst members).map MethodFacts.unlined := by
  have hcallees : calleesAmong (members.map MethodFacts.unlined) = calleesAmong members := by
    funext m
    rw [calleesAmong, calleesAmong, find?_unlined]
    cases members.find? (·.method = m) with
    | none => rfl
    | some f => simp only [Option.map_some, MethodFacts.callees_unlined, any_unlined]
  -- the search for the order sees numbers of methods and calls only
  have hids : (members.map MethodFacts.unlined).map (·.method) = members.map (·.method) :=
    List.map_map
  rw [calleeFirst, calleeFirst, hcallees, List.length_map, hids, List.map_filterMap]
  exact List.filterMap_congr fun m _ => find?_unlined members m

theorem outsideCallees_unlined (members : List MethodFacts) :
    outsideCallees (members.map MethodFacts.unlined) = outsideCallees members := by
  rw [outsideCallees, outsideCallees, List.flatMap_map]
  simp only [MethodFacts.callees_unlined, any_unlined]

/-- What callees outside of the component report, without lines. -/
theorem mem_outsideEvents_unlined {e : AccessEvent} :
    e ∈ outsideEvents (members.map MethodFacts.unlined) (unlinedSummaries finished) ↔
      ∃ e' ∈ outsideEvents members finished, e'.unlined = e := by
  simp only [outsideEvents, outsideCallees_unlined, List.mem_flatMap, unlinedSummaries]
  constructor
  · rintro ⟨callee, hcallee, he⟩
    cases hs : finished callee with
    | none =>
      rw [hs] at he
      cases he
    | some s =>
      rw [hs] at he
      obtain ⟨e', he', rfl⟩ := Summary.mem_accesses_unlined.1 he
      exact ⟨e', ⟨callee, hcallee, by rw [hs]; exact he'⟩, rfl⟩
  · rintro ⟨e', ⟨callee, hcallee, he'⟩, rfl⟩
    refine ⟨callee, hcallee, ?_⟩
    cases hs : finished callee with
    | none =>
      rw [hs] at he'
      cases he'
    | some s =>
      rw [hs] at he'
      exact Summary.mem_accesses_unlined.2 ⟨e', he', rfl⟩

/-- The paths that the derived cap counts. -/
theorem visiblePaths_unlined :
    visiblePaths (members.map MethodFacts.unlined) (unlinedSummaries finished)
      = visiblePaths members finished := by
  have hown : (members.map MethodFacts.unlined).flatMap
        (fun f => f.tagged.accesses.map (·.access.path))
      = members.flatMap fun f => f.tagged.accesses.map (·.access.path) := by
    rw [List.flatMap_map]
    exact List.flatMap_congr fun f _ => List.map_map
  refine SortedSet.ext_mem fun p => ?_
  rw [visiblePaths, visiblePaths, SortedSet.mem_ofList, SortedSet.mem_ofList, List.mem_append,
    List.mem_append, hown]
  refine or_congr_right ?_
  simp only [List.mem_map, mem_outsideEvents_unlined]
  constructor
  · rintro ⟨_, ⟨e, he, rfl⟩, hp⟩
    exact ⟨e, he, hp⟩
  · rintro ⟨e, he, hp⟩
    exact ⟨e.unlined, ⟨e, he, rfl⟩, hp⟩

/-- The locks that the derived cap counts. -/
theorem visibleLocks_unlined :
    visibleLocks (members.map MethodFacts.unlined) (unlinedSummaries finished)
      = visibleLocks members finished := by
  have hown : (members.map MethodFacts.unlined).flatMap (fun f =>
        f.tagged.accesses.flatMap (·.locks.toList) ++ f.tagged.calls.flatMap (·.locks.toList))
      = members.flatMap fun f => f.tagged.accesses.flatMap (·.locks.toList)
          ++ f.tagged.calls.flatMap (·.locks.toList) := by
    rw [List.flatMap_map]
    refine List.flatMap_congr fun f _ => ?_
    exact congrArg₂ (· ++ ·) (List.flatMap_map _ _ _) (List.flatMap_map _ _ _)
  refine SortedSet.ext_mem fun l => ?_
  rw [visibleLocks, visibleLocks, SortedSet.mem_ofList, SortedSet.mem_ofList, List.mem_append,
    List.mem_append, hown]
  refine or_congr_right ?_
  simp only [List.mem_flatMap, mem_outsideEvents_unlined]
  constructor
  · rintro ⟨_, ⟨e, he, rfl⟩, hl⟩
    exact ⟨e, he, hl⟩
  · rintro ⟨e, he, hl⟩
    exact ⟨e.unlined, ⟨e, he, rfl⟩, hl⟩

theorem locationCount_unlined :
    locationCount (members.map MethodFacts.unlined) = locationCount members := by
  rw [locationCount, locationCount, List.flatMap_map, List.length_flatMap, List.length_flatMap]
  congr 1
  refine List.map_congr_left fun f _ => ?_
  simp [MethodFacts.unlined, Tagged.unlined]

/-- The derived cap is the same without lines. -/
theorem roundCap_unlined :
    roundCap (members.map MethodFacts.unlined) (unlinedSummaries finished)
      = roundCap members finished := by
  rw [roundCap, roundCap, visiblePaths_unlined, visibleLocks_unlined, locationCount_unlined,
    List.length_map]

/-- **Component**: its outcome is computed alike without lines. -/
theorem summarizeComponent_unlined (hcharted : ∀ f ∈ members, f.Charted)
    (hnodup : (members.map (·.method)).Nodup) (cyclic : Bool) (maxRounds : Option Nat) :
    summarizeComponent cyclic maxRounds (unlinedSummaries finished)
        (members.map MethodFacts.unlined)
      = (summarizeComponent cyclic maxRounds finished members).unlined := by
  cases cyclic with
  | false =>
    have hsummaries : (members.map MethodFacts.unlined).map
          (fun f => (f.method, f.summarize (unlinedSummaries finished)))
        = (members.map fun f => (f.method, f.summarize finished)).map
            fun e => (e.1, e.2.unlined) := by
      rw [List.map_map, List.map_map]
      refine List.map_congr_left fun f hf => ?_
      rw [Function.comp_apply, Function.comp_apply, f.summarize_unlined (hcharted f hf)]
      rfl
    rw [summarizeComponent_acyclic, summarizeComponent_acyclic, hsummaries,
      ← SortedMap.mapValues_ofList]
    rfl
  | true =>
    -- the loop is over the members in another order, to which the lemmas on rounds are carried over
    have hperm := calleeFirst_perm hnodup
    have hordered : ((calleeFirst members).map (·.method)).Nodup :=
      (hperm.map _).nodup_iff.2 hnodup
    have hmembers : (members.map MethodFacts.unlined).map (·.method) = members.map (·.method) :=
      List.map_map
    rw [summarizeComponent_cyclic, summarizeComponent_cyclic, calleeFirst_unlined,
      roundCap_unlined, ← initialSummaries_unlined, hmembers,
      iterate_unlined (fun f hf => hcharted f (hperm.mem_iff.1 hf)) hordered _ _
        (initialSummaries_isState hordered)]
    cases iterate finished (calleeFirst members) _ 0 _ <;> rfl

end Component

/-! ## All components -/

theorem Outcome.get?_unlined (outcome : Outcome) (m : MethodId) :
    outcome.unlined.get? m = (outcome.get? m).map Summary.unlined := by
  cases outcome with
  | ok component => exact SortedMap.get?_mapValues _ _ _
  | error fault => rfl

namespace Builder

variable {b : Builder}

theorem memberFacts_unlined (c : Nat) :
    b.unlined.memberFacts c = (b.memberFacts c).map MethodFacts.unlined := by
  rw [memberFacts, memberFacts, List.map_filterMap]
  exact List.filterMap_congr fun m _ => SortedMap.get?_mapValues _ _ _

variable (hk : b.facts.Keyed) (hg : b.graph = .of b.facts)
  (hcharted : ∀ m f, b.facts.get? m = some f → f.Charted)

include hk hg hcharted

/-- The outcome of a component is that of the component without lines, by induction on its number:
its members call methods of components with smaller numbers only. -/
theorem outcomeOf_unlined (c : Nat) : b.unlined.outcomeOf c = (b.outcomeOf c).unlined := by
  induction c using Nat.strongRecOn with
  | _ c ih =>
    have hmembers : ∀ f ∈ b.memberFacts c, f.Charted := fun f hf =>
      hcharted _ f ((mem_memberFacts hk hg).1 hf).1
    rw [outcomeOf, outcomeOf, inquiry, inquiry, answer_inquireComponent, answer_inquireComponent,
      memberFacts_unlined,
      ← summarizeComponent_unlined hmembers (nodup_memberFacts hk hg c)]
    congr 1
    -- the answers are from components with smaller numbers
    funext m
    have hcomponent : b.unlined.graph.componentOf? m = b.graph.componentOf? m := rfl
    rw [unlinedSummaries, hcomponent]
    cases b.graph.componentOf? m with
    | none => rfl
    | some d =>
      dsimp only
      by_cases hd : d < c
      · rw [dif_pos hd, dif_pos hd, ih d hd, Outcome.get?_unlined]
      · rw [dif_neg hd, dif_neg hd]
        rfl

theorem summaryOf_unlined (m : MethodId) :
    b.unlined.summaryOf m = (b.summaryOf m).map Summary.unlined := by
  have hcomponent : b.unlined.graph.componentOf? m = b.graph.componentOf? m := rfl
  rw [summaryOf, summaryOf, hcomponent]
  cases b.graph.componentOf? m with
  | none => rfl
  | some c =>
    rw [Option.bind_some, Option.bind_some, outcomeOf_unlined hk hg hcharted,
      Outcome.get?_unlined]

end Builder

namespace Session

variable (program : Program) (config : Config)

theorem charted_of_get?_facts {program : Program} {config : Config} {m : MethodId}
    {f : MethodFacts} (hf : (Session.of program config).facts.get? m = some f) : f.Charted :=
  ⟨placed_of_get?_facts hf, lined_of_get?_facts hf⟩

/-- **Session**: the components of a program have the same outcomes without lines. -/
theorem get?_store_unlined {c : Nat} (hc : c < (Session.of program config).graph.size) :
    (Session.of program.unlined config).store.get? c
      = ((Session.of program config).store.get? c).map Outcome.unlined := by
  have hk : (Session.of program config).builder.facts.Keyed := keyed_facts program config
  have hk' : (Session.of program.unlined config).builder.facts.Keyed :=
    keyed_facts program.unlined config
  have hc' : c < (Session.of program.unlined config).builder.graph.size := by
    rw [builder_unlined]
    exact hc
  rw [store, store, (Builder.buildAll_finishes hk rfl (Builder.sound_empty _)).2 c hc,
    (Builder.buildAll_finishes hk' rfl (Builder.sound_empty _)).2 c hc', builder_unlined,
    Builder.outcomeOf_unlined hk rfl fun m f hf => charted_of_get?_facts hf]
  rfl

/-- The methods of a program have the same finished summaries without lines. -/
theorem finished?_unlined (m : MethodId) :
    (Session.of program.unlined config).builder.finished?
        (Session.of program.unlined config).store m
      = ((Session.of program config).builder.finished? (Session.of program config).store m).map
          Summary.unlined := by
  have hk : (Session.of program config).builder.facts.Keyed := keyed_facts program config
  have hk' : (Session.of program.unlined config).builder.facts.Keyed :=
    keyed_facts program.unlined config
  rw [store, store, Builder.finished?_buildAll hk rfl, Builder.finished?_buildAll hk' rfl,
    builder_unlined, Builder.summaryOf_unlined hk rfl fun m f hf => charted_of_get?_facts hf]

end Session

end Interlock
