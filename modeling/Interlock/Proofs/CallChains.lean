import Interlock.Proofs.SessionFacts
import Interlock.Proofs.Store
import Mathlib.Order.Bounds.Basic

/-!
# Summaries are the meet over all call chains

What the summary of a method should say, in terms of chains of calls and without any
rounds: a chain leads from the method through calls to an access, each call and the
access made under the locks that are known there.

- `CallChain`: a chain of calls between methods with finished summaries, with the key
  that its access has in the summary of the first method and the locks held on it.
- `Reaches`: the methods that such chains lead to.
- `Builder.eq_summarize`: the finished summaries satisfy one system of equations,
  across all components.
- `Builder.onChains_of_shows`, `Builder.shows_of_callChain`: they show exactly what chains
  bring about.
- `Session.summary_exact`: keys, locks and contexts of finished summaries.
-/

namespace Interlock

/-- `CallChain facts done m key locks`: a chain of tagged calls leads from `m`, through methods for
which `done` holds, to a tagged access. The key has the location of the first call, or of the access
if there is no call, and the join of the contexts of all methods of the chain; the locks are those
tagged on the access and on every call. -/
inductive CallChain (facts : FactTable) (done : MethodId → Prop) :
    MethodId → EventKey → Set LockId → Prop
  | access {m : MethodId} {f : MethodFacts} {a : TaggedAccess} :
      facts.get? m = some f → done m → a ∈ f.tagged.accesses →
      CallChain facts done m ⟨a.access.path, a.access.kind, a.access.location, f.thread⟩
        {l | l ∈ a.locks}
  | call {m : MethodId} {f : MethodFacts} {c : TaggedCall} {key : EventKey} {locks : Set LockId} :
      facts.get? m = some f → done m → c ∈ f.tagged.calls →
      CallChain facts done c.call.callee key locks →
      CallChain facts done m ⟨key.path, key.kind, c.call.location, join f.thread key.thread⟩
        ({l | l ∈ c.locks} ∪ locks)

/-- `Reaches facts done m n`: tagged calls lead from `m` to `n` through methods for which `done`
holds, those two included. -/
inductive Reaches (facts : FactTable) (done : MethodId → Prop) : MethodId → MethodId → Prop
  | self {m : MethodId} : done m → Reaches facts done m m
  | call {m n : MethodId} {f : MethodFacts} {c : TaggedCall} :
      facts.get? m = some f → done m → c ∈ f.tagged.calls →
      Reaches facts done c.call.callee n → Reaches facts done m n

section Chains

variable {facts : FactTable} {done : MethodId → Prop}

theorem CallChain.done_start {m : MethodId} {key : EventKey} {locks : Set LockId}
    (h : CallChain facts done m key locks) : done m := by
  cases h with
  | access _ hdone _ => exact hdone
  | call _ hdone _ _ => exact hdone

theorem Reaches.done_start {m n : MethodId} (h : Reaches facts done m n) : done m := by
  cases h with
  | self hdone => exact hdone
  | call _ hdone _ _ => exact hdone

/-- The features that chains from a method bring about. -/
def OnChains (facts : FactTable) (done : MethodId → Prop) (m : MethodId) : Feature → Prop
  | .access key lacking => ∃ locks, CallChain facts done m key locks ∧ ∀ l ∈ lacking, l ∉ locks
  | .thread context => ∃ n f, Reaches facts done m n ∧ facts.get? n = some f ∧ context ≤ f.thread

/-- What a method gains from chains that start at the methods it calls comes from its own chains. -/
theorem onChains_of_gains {m : MethodId} {f : MethodFacts} (hf : facts.get? m = some f)
    (hdone : done m) {φ : Feature} (h : f.Gains (OnChains facts done) φ) :
    OnChains facts done m φ := by
  rcases h with hown | ⟨call, hcall, φ', hchain, hlifts⟩
  · cases φ with
    | access key lacking =>
      obtain ⟨c, hc, rfl, hlacking⟩ := hown
      obtain ⟨a, ha, rfl⟩ := List.mem_map.1 hc
      exact ⟨_, .access hf hdone ha, hlacking⟩
    | thread context => exact ⟨m, f, .self hdone, hf, hown⟩
  · cases hlifts with
    | access hfree =>
      obtain ⟨locks, hchain, hlacking⟩ := hchain
      refine ⟨_, .call hf hdone hcall hchain, fun l hl hmem => ?_⟩
      rcases hmem with hmem | hmem
      · exact hfree l hl hmem
      · exact hlacking l hl hmem
    | thread =>
      obtain ⟨n, g, hreaches, hg, hle⟩ := hchain
      exact ⟨n, g, .call hf hdone hcall hreaches, hg, hle⟩

end Chains

/-! ## Finished summaries -/

namespace Builder

/-- Whether a method has a finished summary. -/
def Done (b : Builder) (store : Store) (m : MethodId) : Prop := ∃ s, b.finished? store m = some s

/-- Inside a component whose outcome is known, finished summaries are those of the outcome. -/
theorem finished?_of_component {b : Builder} {store : Store} {c : Nat} {out : ComponentSummaries}
    (hout : store.get? c = some (.ok out)) {m : MethodId} (hm : b.graph.componentOf? m = some c) :
    b.finished? store m = out.summaries.get? m := by
  rw [finished?, hm, Option.bind_some, hout]

/-- A finished summary comes from the outcome of a component. -/
theorem exists_component_of_finished? {b : Builder} {store : Store} {m : MethodId} {s : Summary}
    (h : b.finished? store m = some s) : ∃ c out, b.graph.componentOf? m = some c ∧
      store.get? c = some (.ok out) ∧ out.summaries.get? m = some s := by
  rw [finished?] at h
  split at h
  · next out hout =>
    obtain ⟨c, hc, hget⟩ := Option.bind_eq_some_iff.1 hout
    exact ⟨c, out, hc, hget, h⟩
  · cases h

section Finished

variable {b : Builder} (hk : b.facts.Keyed) (hg : b.graph = .of b.facts) {store : Store}
  (hstore : ∀ c < b.graph.size, store.get? c = some (b.compute store c))

include hk hg hstore

/-- The outcome of a component in a finished store. -/
theorem solvesComponent {m : MethodId} {c : Nat} {out : ComponentSummaries}
    (hm : b.graph.componentOf? m = some c) (hout : store.get? c = some (.ok out)) :
    SolvesComponent (b.finished? store) (b.memberFacts c) out.summaries := by
  have hc : c < b.graph.size := by
    rw [hg] at hm ⊢
    exact CallGraph.componentOf?_lt hk hm
  have hcompute : b.compute store c = .ok out := Option.some_inj.1 ((hstore c hc).symm.trans hout)
  exact solvesComponent_of_ok (nodup_memberFacts hk hg c) (not_call_within_memberFacts hk hg)
    hcompute

/-- Every method of a component with an outcome has a finished summary. -/
theorem done_of_component {m : MethodId} {c : Nat} {out : ComponentSummaries}
    (hm : b.graph.componentOf? m = some c) (hout : store.get? c = some (.ok out)) :
    ∃ f s, b.facts.get? m = some f ∧ f ∈ b.memberFacts c ∧ f.method = m ∧
      out.summaries.get? m = some s := by
  have hm' := hm
  rw [hg] at hm'
  obtain ⟨f, hf⟩ := CallGraph.exists_componentOf?_iff.1 ⟨c, hm'⟩
  obtain rfl := hk m f hf
  have hmem : f ∈ b.memberFacts c := (mem_memberFacts hk hg).2 ⟨hf, hm⟩
  obtain ⟨s, hs, -⟩ := (solvesComponent hk hg hstore hm hout).isState.isOf f hmem
  exact ⟨f, s, hf, hmem, rfl, hs⟩

/-- The finished summaries satisfy one system of equations, across all components. -/
theorem eq_summarize {m : MethodId} {s : Summary} (h : b.finished? store m = some s) :
    ∃ f, b.facts.get? m = some f ∧ s = f.summarize (b.finished? store) := by
  obtain ⟨c, out, hm, hout, hs⟩ := exists_component_of_finished? h
  obtain ⟨f, -, hf, hmem, rfl, -⟩ := done_of_component hk hg hstore hm hout
  have hsolves := solvesComponent hk hg hstore hm hout
  refine ⟨f, hf, ?_⟩
  have heq := hsolves.eq_summarize f hmem
  rw [hs, Option.some_inj] at heq
  rw [heq]
  -- the members see each other's finished summaries
  refine MethodFacts.summarize_congr fun callee _ => ?_
  by_cases hcallee : b.graph.componentOf? callee = some c
  · rw [calleeSummary, finished?_of_component hout hcallee, Option.or_self]
  · -- a callee outside is asked for in the store
    have hnot : callee ∉ (b.memberFacts c).map (·.method) := by
      rw [map_method_memberFacts hk hg, hg, CallGraph.mem_members hk, ← hg]
      exact hcallee
    rw [calleeSummary, hsolves.isState.only callee hnot, Option.none_or]

/-- What a finished summary shows comes about on chains. -/
theorem onChains_of_shows {m : MethodId} {s : Summary} (h : b.finished? store m = some s)
    {φ : Feature} (hφ : s.Shows φ) : OnChains b.facts (b.Done store) m φ := by
  obtain ⟨c, out, hm, hout, hs⟩ := exists_component_of_finished? h
  -- on the number of the component: calls out of it lead to smaller ones
  induction c using Nat.strongRecOn generalizing m s out φ with
  | _ c ih =>
    refine (solvesComponent hk hg hstore hm hout).sound ?_ m φ ⟨s, hs, hφ⟩
    intro f hf φ hgains
    obtain ⟨hfacts, hcomponent⟩ := (mem_memberFacts hk hg).1 hf
    obtain ⟨-, s', -, -, -, hs'⟩ := done_of_component hk hg hstore hcomponent hout
    have hdone : b.Done store f.method :=
      ⟨s', (finished?_of_component hout hcomponent).trans hs'⟩
    refine onChains_of_gains hfacts hdone (hgains.mono fun callee hcallee φ haround => ?_)
    rcases haround with ⟨-, hinside⟩ | ⟨hnot, s'', hs'', hshows⟩
    · exact hinside
    · obtain ⟨d, out', hd, hout', hget⟩ := exists_component_of_finished? hs''
      exact ih d (lt_of_call_outside hk hg hf hcallee hnot hd) hs'' hshows out' hd hout' hget

/-- What comes about on a chain that ends in an access is shown. -/
theorem shows_of_callChain {m : MethodId} {key : EventKey} {locks : Set LockId}
    (h : CallChain b.facts (b.Done store) m key locks) {lacking : Option LockId}
    (hlacking : ∀ l ∈ lacking, l ∉ locks) {s : Summary} (hs : b.finished? store m = some s) :
    s.Shows (.access key lacking) := by
  induction h generalizing s with
  | @access m f a hf hdone ha =>
    obtain ⟨g, hg', rfl⟩ := eq_summarize hk hg hstore hs
    obtain rfl := Option.some_inj.1 (hf.symm.trans hg')
    exact MethodFacts.summarize_shows.2 (.inl ⟨_, List.mem_map.2 ⟨a, ha, rfl⟩, rfl, hlacking⟩)
  | @call m f c key locks hf hdone hc hchain ih =>
    obtain ⟨g, hg', rfl⟩ := eq_summarize hk hg hstore hs
    obtain rfl := Option.some_inj.1 (hf.symm.trans hg')
    obtain ⟨callee, hcallee⟩ := hchain.done_start
    have hshows := ih (fun l hl hmem => hlacking l hl (.inr hmem)) hcallee
    refine MethodFacts.summarize_shows.2 (.inr ⟨c, hc, _, ⟨callee, hcallee, hshows⟩, .access ?_⟩)
    exact fun l hl hmem => hlacking l hl (.inl hmem)

/-- The contexts of methods that chains lead to are below that of the summary. -/
theorem thread_le_of_reaches {m n : MethodId} (h : Reaches b.facts (b.Done store) m n)
    {f : MethodFacts} (hf : b.facts.get? n = some f) {s : Summary}
    (hs : b.finished? store m = some s) : f.thread ≤ s.thread := by
  show s.Shows (.thread f.thread)
  induction h generalizing s with
  | self _ =>
    obtain ⟨g, hg', rfl⟩ := eq_summarize hk hg hstore hs
    obtain rfl := Option.some_inj.1 (hf.symm.trans hg')
    exact MethodFacts.summarize_shows.2 (.inl (le_refl f.thread))
  | @call m n g c hgf hdone hc hreaches ih =>
    obtain ⟨g', hg', rfl⟩ := eq_summarize hk hg hstore hs
    obtain rfl := Option.some_inj.1 (hgf.symm.trans hg')
    obtain ⟨callee, hcallee⟩ := hreaches.done_start
    exact MethodFacts.summarize_shows.2 (.inr ⟨c, hc, _, ⟨callee, hcallee, ih hf hcallee⟩, .thread⟩)

end Finished

end Builder

/-! ## The meet over all chains -/

/-- `s.IsMeetOverChains facts done m`: the summary has an event for each key of a chain from `m`,
with the locks common to all chains of that key, and its context is the join of the contexts of all
methods that chains lead to. -/
structure Summary.IsMeetOverChains (s : Summary) (facts : FactTable) (done : MethodId → Prop)
    (m : MethodId) : Prop where
  keys : ∀ key, (∃ e ∈ s.accesses, e.key = key) ↔ ∃ locks, CallChain facts done m key locks
  locks : ∀ e ∈ s.accesses, {l | l ∈ e.locks} = ⋂₀ {locks | CallChain facts done m e.key locks}
  thread : IsLUB {t | ∃ n f, Reaches facts done m n ∧ facts.get? n = some f ∧ t = f.thread} s.thread

/-- Finished summaries are the meet over all chains. -/
theorem Builder.isMeetOverChains {b : Builder} (hk : b.facts.Keyed) (hg : b.graph = .of b.facts)
    {store : Store} (hstore : ∀ c < b.graph.size, store.get? c = some (b.compute store c))
    {m : MethodId} {s : Summary} (hs : b.finished? store m = some s) :
    s.IsMeetOverChains b.facts (b.Done store) m := by
  obtain ⟨f, -, heq⟩ := eq_summarize hk hg hstore hs
  have hof : s.IsOf f := heq ▸ Summary.summarize_isOf f _
  refine ⟨fun key => ⟨?_, ?_⟩, fun e he => ?_, ?_, ?_⟩
  · rintro ⟨e, he, rfl⟩
    have hshows : s.Shows (.access e.key none) := ⟨e, he, rfl, fun _ hl => nomatch hl⟩
    obtain ⟨locks, hchain, -⟩ := onChains_of_shows hk hg hstore hs hshows
    exact ⟨locks, hchain⟩
  · rintro ⟨locks, hchain⟩
    obtain ⟨e, he, hkey, -⟩ := shows_of_callChain hk hg hstore hchain
      (fun l hl => absurd hl (Option.not_mem_none l)) hs
    exact ⟨e, he, hkey⟩
  · -- a lock is missing from an event exactly if some chain with its key does without the lock
    ext l
    rw [Set.mem_ofPred_eq, Set.mem_sInter]
    constructor
    · intro hl locks hchain
      by_contra hnot
      have hshows := shows_of_callChain hk hg hstore hchain
        (fun l' hl' => Option.mem_some_iff.1 hl' ▸ hnot) hs
      exact (hof.not_mem_locks_iff he).2 hshows hl
    · intro hall
      by_contra hnot
      obtain ⟨locks, hchain, hlacking⟩ :=
        onChains_of_shows hk hg hstore hs ((hof.not_mem_locks_iff he).1 hnot)
      exact hlacking l rfl (hall locks hchain)
  · rintro t ⟨n, g, hreaches, hgf, rfl⟩
    exact thread_le_of_reaches hk hg hstore hreaches hgf hs
  · intro t hupper
    have hshows : s.Shows (.thread s.thread) := le_refl s.thread
    obtain ⟨n, g, hreaches, hgf, hle⟩ := onChains_of_shows hk hg hstore hs hshows
    exact le_trans hle (hupper ⟨n, g, hreaches, hgf, rfl⟩)

namespace Session

/-- The session has the outcome of each component. -/
theorem get?_store (program : Program) (config : Config) {c : Nat}
    (hc : c < (Session.of program config).builder.graph.size) :
    (Session.of program config).store.get? c
      = some ((Session.of program config).builder.compute (Session.of program config).store c) :=
  Builder.get?_buildAll (b := (Session.of program config).builder) (keyed_facts program config) rfl
    hc

section Finished

variable {program : Program} {config : Config} {m : MethodId} {s : Summary}
  (h : (Session.of program config).builder.finished? (Session.of program config).store m = some s)

include h

theorem eq_summarize : ∃ f, (Session.of program config).facts.get? m = some f ∧
    s = f.summarize
      ((Session.of program config).builder.finished? (Session.of program config).store) :=
  Builder.eq_summarize (b := (Session.of program config).builder) (keyed_facts program config) rfl
    (fun _ => get?_store program config) h

theorem isMeetOverChains : s.IsMeetOverChains (Session.of program config).facts
    ((Session.of program config).builder.Done (Session.of program config).store) m :=
  Builder.isMeetOverChains (b := (Session.of program config).builder) (keyed_facts program config)
    rfl (fun _ => get?_store program config) h

end Finished

/-- The builder of the summaries under the given cap on rounds. -/
def builderWith (s : Session) (maxRounds : Option Nat) : Builder := { s.builder with maxRounds }

/-- **Summaries are the meet over all call chains**: under any cap on rounds, each method of a
component that is summarized has a summary, which is the meet over all chains through methods with
finished summaries. -/
theorem summary_exact (program : Program) (config : Config) (maxRounds : Option Nat)
    (m : MethodId) (c : Nat) (out : ComponentSummaries)
    (hm : (Session.of program config).graph.componentOf? m = some c)
    (hout : (((Session.of program config).builderWith maxRounds).buildAll {}).get? c
      = some (.ok out)) :
    ∃ s, out.summaries.get? m = some s ∧
      s.IsMeetOverChains (Session.of program config).facts
        (((Session.of program config).builderWith maxRounds).Done
          (((Session.of program config).builderWith maxRounds).buildAll {})) m := by
  have hk : ((Session.of program config).builderWith maxRounds).facts.Keyed :=
    keyed_facts program config
  have hstore := fun c hc => Builder.get?_buildAll (c := c) hk rfl hc
  obtain ⟨f, s, -, -, -, hs⟩ := Builder.done_of_component hk rfl hstore hm hout
  refine ⟨s, hs, Builder.isMeetOverChains hk rfl hstore ?_⟩
  rw [Builder.finished?_of_component hout hm, hs]

theorem summary_exact_pingPong :
    ∃ out s, (((Session.of .pingPong {}).builderWith (some 4)).buildAll {}).get? 0
        = some (.ok out) ∧ out.summaries.get? ⟨0⟩ = some s ∧
      s.IsMeetOverChains (Session.of .pingPong {}).facts
        (((Session.of .pingPong {}).builderWith (some 4)).Done
          (((Session.of .pingPong {}).builderWith (some 4)).buildAll {})) ⟨0⟩ := by
  -- the outcome itself is too large to write down; that it is one of summaries can be computed
  have hok : (((((Session.of .pingPong {}).builderWith (some 4)).buildAll {}).get? 0).bind
      Except.toOption).isSome = true := by decide +kernel
  obtain ⟨out, hsome⟩ := Option.isSome_iff_exists.1 hok
  obtain ⟨outcome, hget, houtcome⟩ := Option.bind_eq_some_iff.1 hsome
  have hout : outcome = .ok out := by
    cases outcome with
    | ok out' => rw [Option.some_inj.1 houtcome]
    | error fault => cases houtcome
  rw [hout] at hget
  obtain ⟨s, hs, hmeet⟩ := summary_exact .pingPong {} (some 4) ⟨0⟩ 0 out (by decide +kernel) hget
  exact ⟨out, s, hget, hs, hmeet⟩

end Session

end Interlock
