import Interlock.Proofs.Order
import Interlock.Summary.Event

/-!
# What a summary shows

Two things are asked of a summary: whether it has an event with a given key that lacks
a given lock, and whether its thread context is at least a given one. These features
determine the summary, and each of them comes about in one way only: the method has it
by itself, or it is passed on by one call.

- `Feature`, `Summary.Shows`: the features of summaries.
- `MethodFacts.Own`, `MethodFacts.Lifts`, `MethodFacts.Gains`: the features of the method
  itself, what a call makes of a feature of the method called, and both together.
- `MethodFacts.summarize_shows`: a summary shows exactly these.
- `Summary.IsOf`, `Summary.IsOf.ext_shows`: two summaries that a method can have are
  equal if they show the same.
-/

namespace Interlock

/-- The key of an event. -/
def AccessEvent.key (e : AccessEvent) : EventKey := ⟨e.path, e.kind, e.location, e.thread⟩

/-- What can be asked of a summary. -/
inductive Feature where
  /-- An access with this key, and without the given lock if there is one. -/
  | access (key : EventKey) (lacking : Option LockId)
  /-- A thread context that is at least this one. -/
  | thread (context : ThreadContext)

/-- Whether a summary has a feature. -/
def Summary.Shows (s : Summary) : Feature → Prop
  | .access key lacking => ∃ e ∈ s.accesses, e.key = key ∧ ∀ l ∈ lacking, l ∉ e.locks
  | .thread context => context ≤ s.thread

/-- Whether the summary of a method has a feature. -/
def ShownBy (summaryOf : MethodId → Option Summary) (m : MethodId) (φ : Feature) : Prop :=
  ∃ s, summaryOf m = some s ∧ s.Shows φ

/-! ## Merged events -/

namespace EventMap

/-- The map has an event with the key, without the given lock if there is one. -/
def Lacks (events : EventMap) (key : EventKey) (lacking : Option LockId) : Prop :=
  ∃ locks via, events.get? key = some (locks, via) ∧ ∀ l ∈ lacking, l ∉ locks

/-- Merging an access keeps the locks that were held each time, and the first way to the event. -/
theorem get?_add (events : EventMap) (c : Contribution) (key : EventKey) :
    (events.add c).get? key = if key = c.key then
      some (match events.get? c.key with
        | some (locks, via) => (locks ∩ c.locks, via)
        | none => (c.locks, c.via))
    else events.get? key :=
  SortedMap.get?_alter

/-- A lock is lost as soon as one of the merged accesses lacks it. -/
theorem lacks_add {events : EventMap} {c : Contribution} {key : EventKey}
    {lacking : Option LockId} :
    (events.add c).Lacks key lacking ↔
      events.Lacks key lacking ∨ c.key = key ∧ ∀ l ∈ lacking, l ∉ c.locks := by
  rw [Lacks, Lacks, get?_add]
  by_cases hkey : key = c.key
  · -- an access with the key of the event: it lacks what either of them lacks
    subst hkey
    rw [if_pos rfl]
    cases hget : events.get? c.key with
    | none => simp
    | some entry =>
      obtain ⟨locks, via⟩ := entry
      cases lacking with
      | none => simp
      | some l =>
        have hor : (l ∈ locks → l ∉ c.locks) ↔ l ∉ locks ∨ l ∉ c.locks := imp_iff_not_or
        simpa using hor
  · simp [if_neg hkey, Ne.symm hkey]

/-- The same for several accesses. -/
theorem lacks_foldl_add {cs : List Contribution} {events : EventMap} {key : EventKey}
    {lacking : Option LockId} :
    (cs.foldl add events).Lacks key lacking ↔
      events.Lacks key lacking ∨ ∃ c ∈ cs, c.key = key ∧ ∀ l ∈ lacking, l ∉ c.locks := by
  induction cs generalizing events with
  | nil => simp
  | cons c cs ih => rw [List.foldl_cons, ih, lacks_add, List.exists_mem_cons_iff, or_assoc]

/-- The way to an event is that of one of the merged accesses. -/
theorem exists_via_of_foldl_add {cs : List Contribution} {key : EventKey} {locks : LockSet}
    {via : Option MethodId} (h : (cs.foldl add ∅).get? key = some (locks, via)) :
    ∃ c ∈ cs, c.key = key ∧ c.via = via := by
  -- generalize over the map merged into
  suffices hfold : ∀ (cs : List Contribution) (events : EventMap) (locks : LockSet),
      (cs.foldl add events).get? key = some (locks, via) →
        (∃ locks', events.get? key = some (locks', via)) ∨ ∃ c ∈ cs, c.key = key ∧ c.via = via by
    rcases hfold cs ∅ locks h with ⟨_, hempty⟩ | hc
    · cases hempty
    · exact hc
  intro cs
  induction cs with
  | nil => exact fun events locks h => .inl ⟨locks, h⟩
  | cons c cs ih =>
    intro events locks h
    rcases ih _ _ h with ⟨locks', hadd⟩ | ⟨c', hc', hvia⟩
    · rw [get?_add] at hadd
      split at hadd
      · next hkey =>
        split at hadd
        · next locks₀ via₀ hget =>
          obtain ⟨-, rfl⟩ := Prod.mk.inj (Option.some_inj.1 hadd)
          exact .inl ⟨locks₀, hkey ▸ hget⟩
        · obtain ⟨-, hvia⟩ := Prod.mk.inj (Option.some_inj.1 hadd)
          exact .inr ⟨c, List.mem_cons_self, hkey.symm, hvia⟩
      · exact .inl ⟨locks', hadd⟩
    · exact .inr ⟨c', List.mem_cons_of_mem _ hc', hvia⟩

/-- The events of a method are the entries of the map. -/
theorem mem_events {events : EventMap} {owner : MethodId} {e : AccessEvent} :
    e ∈ events.events owner ↔ e.owner = owner ∧ events.get? e.key = some (e.locks, e.via) := by
  rw [EventMap.events, List.mem_map]
  constructor
  · rintro ⟨⟨key, locks, via⟩, hmem, rfl⟩
    exact ⟨rfl, SortedMap.mem_toList_iff.1 hmem⟩
  · rintro ⟨rfl, hget⟩
    exact ⟨(e.key, e.locks, e.via), SortedMap.mem_toList_iff.2 hget, rfl⟩

theorem lacks_iff_events {events : EventMap} (owner : MethodId) {key : EventKey}
    {lacking : Option LockId} : events.Lacks key lacking ↔
      ∃ e ∈ events.events owner, e.key = key ∧ ∀ l ∈ lacking, l ∉ e.locks := by
  constructor
  · rintro ⟨locks, via, hget, hlacking⟩
    exact ⟨⟨key.path, key.kind, locks, key.location, key.thread, owner, via⟩,
      mem_events.2 ⟨rfl, hget⟩, rfl, hlacking⟩
  · rintro ⟨e, he, rfl, hlacking⟩
    exact ⟨e.locks, e.via, (mem_events.1 he).2, hlacking⟩

theorem increasing_events (events : EventMap) (owner : MethodId) :
    (events.events owner).Pairwise (fun a b => compare a.key b.key = .lt) :=
  List.pairwise_map.2 events.increasing

end EventMap

/-! ## Features of a summary -/

namespace MethodFacts

variable {f : MethodFacts}

/-- The features that a method has by itself. -/
def Own (f : MethodFacts) : Feature → Prop
  | .access key lacking => ∃ c ∈ f.ownContributions, c.key = key ∧ ∀ l ∈ lacking, l ∉ c.locks
  | .thread context => context ≤ f.thread

/-- What a call makes of a feature of the method called: an access moves to the call and gains its
locks, and its context is joined with that of the caller. -/
inductive Lifts (f : MethodFacts) (call : TaggedCall) : Feature → Feature → Prop
  | access {key : EventKey} {lacking : Option LockId} : (∀ l ∈ lacking, l ∉ call.locks) →
      Lifts f call (.access key lacking)
        (.access ⟨key.path, key.kind, call.call.location, join f.thread key.thread⟩ lacking)
  | thread {context : ThreadContext} : Lifts f call (.thread context) (.thread context)

/-- A call passes on an access exactly if the merged access has the feature. -/
theorem exists_lifts_access_iff {call : TaggedCall} {callee : Summary} {key : EventKey}
    {lacking : Option LockId} :
    (∃ c ∈ f.callContributions call callee, c.key = key ∧ ∀ l ∈ lacking, l ∉ c.locks) ↔
      ∃ φ, callee.Shows φ ∧ f.Lifts call φ (.access key lacking) := by
  simp only [callContributions, List.mem_map]
  constructor
  · rintro ⟨_, ⟨e, he, rfl⟩, rfl, hlacking⟩
    refine ⟨.access e.key lacking, ⟨e, he, rfl, fun l hl hmem => ?_⟩, .access fun l hl hmem => ?_⟩
    · exact hlacking l hl (SortedSet.mem_union.2 (.inl hmem))
    · exact hlacking l hl (SortedSet.mem_union.2 (.inr hmem))
  · rintro ⟨φ, hshows, hlifts⟩
    cases hlifts with
    | access hcall =>
      obtain ⟨e, he, rfl, hevent⟩ := hshows
      refine ⟨_, ⟨e, he, rfl⟩, rfl, fun l hl hmem => ?_⟩
      rcases SortedSet.mem_union.1 hmem with hmem | hmem
      · exact hevent l hl hmem
      · exact hcall l hl hmem

/-- Contexts are joined over the methods called. -/
theorem le_foldl_join {called : List (TaggedCall × Summary)} {context thread : ThreadContext} :
    context ≤ called.foldl (fun thread (_, callee) => join thread callee.thread) thread ↔
      context ≤ thread ∨ ∃ x ∈ called, context ≤ x.2.thread := by
  induction called generalizing thread with
  | nil => simp
  | cons x called ih =>
    rw [List.foldl_cons, ih, ThreadContext.le_join_iff, List.exists_mem_cons_iff, or_assoc]

/-- The features that a method has if the methods called have those of `has`: its own and those
that calls pass on. -/
def Gains (f : MethodFacts) (has : MethodId → Feature → Prop) (φ : Feature) : Prop :=
  f.Own φ ∨ ∃ call ∈ f.tagged.calls, ∃ φ', has call.call.callee φ' ∧ f.Lifts call φ' φ

/-- A method gains no less if the methods called have no less. -/
theorem Gains.mono {has has' : MethodId → Feature → Prop} {φ : Feature}
    (h : ∀ callee ∈ f.callees, ∀ φ, has callee φ → has' callee φ) (hφ : f.Gains has φ) :
    f.Gains has' φ := by
  rcases hφ with hown | ⟨call, hcall, φ', hhas, hlifts⟩
  · exact .inl hown
  · exact .inr ⟨call, hcall, φ', h _ (List.mem_map.2 ⟨call, hcall, rfl⟩) φ' hhas, hlifts⟩

/-- The summary to start from shows only what the method has by itself. -/
theorem own_of_emptySummary_shows {φ : Feature} (h : f.emptySummary.Shows φ) : f.Own φ := by
  cases φ with
  | access key lacking =>
    obtain ⟨e, he, -⟩ := h
    cases he
  | thread context => exact h

/-- **What a summary shows**: the features that follow from those of the summaries that it is made
from. -/
theorem summarize_shows {summaryOf : MethodId → Option Summary} {φ : Feature} :
    (f.summarize summaryOf).Shows φ ↔ f.Gains (ShownBy summaryOf) φ := by
  have hcalled : ∀ {call callee}, (call, callee) ∈ f.tagged.calls.filterMap (fun call =>
      (summaryOf call.call.callee).map fun callee => (call, callee)) ↔
      call ∈ f.tagged.calls ∧ summaryOf call.call.callee = some callee := by
    intro call callee
    simp only [List.mem_filterMap, Option.map_eq_some_iff, Prod.mk.injEq]
    constructor
    · rintro ⟨_, hcall, _, hcallee, rfl, rfl⟩
      exact ⟨hcall, hcallee⟩
    · rintro ⟨hcall, hcallee⟩
      exact ⟨call, hcall, callee, hcallee, rfl, rfl⟩
  -- an access comes from a contribution, own or through a call; contexts are joined
  cases φ with
  | access key lacking =>
    rw [Summary.Shows, summarize, ← EventMap.lacks_iff_events, EventMap.lacks_foldl_add]
    simp only [List.mem_append, List.mem_flatMap, Prod.exists, hcalled]
    have hempty : ¬ EventMap.Lacks ∅ key lacking := by
      rintro ⟨_, _, hget, -⟩
      cases hget
    rw [or_iff_right hempty]
    constructor
    · rintro ⟨c, hc | ⟨call, callee, ⟨hcall, hcallee⟩, hc⟩, hkey, hlacking⟩
      · exact .inl ⟨c, hc, hkey, hlacking⟩
      · obtain ⟨φ, hshows, hlifts⟩ := exists_lifts_access_iff.1 ⟨c, hc, hkey, hlacking⟩
        exact .inr ⟨call, hcall, φ, ⟨callee, hcallee, hshows⟩, hlifts⟩
    · rintro (⟨c, hc, hkey, hlacking⟩ | ⟨call, hcall, φ, ⟨callee, hcallee, hshows⟩, hlifts⟩)
      · exact ⟨c, .inl hc, hkey, hlacking⟩
      · obtain ⟨c, hc, hkey, hlacking⟩ := exists_lifts_access_iff.2 ⟨φ, hshows, hlifts⟩
        exact ⟨c, .inr ⟨call, callee, ⟨hcall, hcallee⟩, hc⟩, hkey, hlacking⟩
  | thread context =>
    rw [Summary.Shows, summarize, le_foldl_join, Gains, Own]
    simp only [Prod.exists, hcalled]
    constructor
    · rintro (hle | ⟨call, callee, ⟨hcall, hcallee⟩, hle⟩)
      · exact .inl hle
      · exact .inr ⟨call, hcall, .thread context, ⟨callee, hcallee, hle⟩, .thread⟩
    · rintro (hle | ⟨call, hcall, φ, ⟨callee, hcallee, hshows⟩, hlifts⟩)
      · exact .inl hle
      · cases hlifts
        exact .inr ⟨call, callee, ⟨hcall, hcallee⟩, hshows⟩

/-- A summary depends on the summaries of the methods called. -/
theorem summarize_congr {summaryOf summaryOf' : MethodId → Option Summary}
    (h : ∀ callee ∈ f.callees, summaryOf callee = summaryOf' callee) :
    f.summarize summaryOf = f.summarize summaryOf' := by
  have hcalled : (f.tagged.calls.filterMap fun call =>
        (summaryOf call.call.callee).map fun callee => (call, callee))
      = f.tagged.calls.filterMap fun call =>
        (summaryOf' call.call.callee).map fun callee => (call, callee) := by
    refine List.filterMap_congr fun call hcall => ?_
    rw [h _ (List.mem_map.2 ⟨call, hcall, rfl⟩)]
  rw [summarize, summarize, hcalled]

/-- `f.ViaAt loc via`: the method has an access at the location, or the call of `via`. -/
def ViaAt (f : MethodFacts) (loc : Location) : Option MethodId → Prop
  | none => ∃ a ∈ f.tagged.accesses, a.access.location = loc
  | some callee => ∃ c ∈ f.tagged.calls, c.call.location = loc ∧ c.call.callee = callee

/-- A location tells whether the method has an access or a call there, and what it calls. -/
def Placed (f : MethodFacts) : Prop :=
  ∀ {loc via via'}, f.ViaAt loc via → f.ViaAt loc via' → via = via'

end MethodFacts

/-! ## Features determine the summary -/

namespace Summary

/-- The form of all summaries of a method: one event per key, in key order, and the way to an
event is what stands at its location. -/
structure IsOf (s : Summary) (f : MethodFacts) : Prop where
  method : s.method = f.method
  degraded : s.degraded = f.degraded
  increasing : s.accesses.Pairwise (fun a b => compare a.key b.key = .lt)
  owner : ∀ e ∈ s.accesses, e.owner = f.method
  via : ∀ e ∈ s.accesses, f.ViaAt e.location e.via

theorem emptySummary_isOf (f : MethodFacts) : f.emptySummary.IsOf f where
  method := rfl
  degraded := rfl
  increasing := .nil
  owner _ he := nomatch he
  via _ he := nomatch he

/-- A summary made from those of the methods called has the form. -/
theorem summarize_isOf (f : MethodFacts) (summaryOf : MethodId → Option Summary) :
    (f.summarize summaryOf).IsOf f where
  method := rfl
  degraded := rfl
  increasing := EventMap.increasing_events _ _
  owner e he := (EventMap.mem_events.1 he).1
  via e he := by
    obtain ⟨c, hc, hkey, hvia⟩ := EventMap.exists_via_of_foldl_add (EventMap.mem_events.1 he).2
    have hloc : c.key.location = e.location := by rw [hkey]; rfl
    rw [← hvia, ← hloc]
    rcases List.mem_append.1 hc with hc | hc
    · obtain ⟨a, ha, rfl⟩ := List.mem_map.1 hc
      exact ⟨a, ha, rfl⟩
    · obtain ⟨⟨call, callee⟩, hcalled, hc⟩ := List.mem_flatMap.1 hc
      obtain ⟨call', hcall', heq⟩ := List.mem_filterMap.1 hcalled
      obtain ⟨_, -, heq⟩ := Option.map_eq_some_iff.1 heq
      obtain ⟨rfl, -⟩ := Prod.mk.inj heq
      obtain ⟨_, -, rfl⟩ := List.mem_map.1 hc
      exact ⟨call', hcall', rfl, rfl⟩

namespace IsOf

variable {s s' : Summary} {f : MethodFacts}

/-- Events with the same key are the same. -/
theorem eq_of_key (h : s.IsOf f) {e e' : AccessEvent} (he : e ∈ s.accesses) (he' : e' ∈ s.accesses)
    (hkey : e.key = e'.key) : e = e' :=
  List.inj_on_of_nodup_map (nodup_of_increasing (List.pairwise_map.2 h.increasing)) he he' hkey

/-- The locks of an event, from the features of the summary. -/
theorem not_mem_locks_iff (h : s.IsOf f) {e : AccessEvent} (he : e ∈ s.accesses) {l : LockId} :
    l ∉ e.locks ↔ s.Shows (.access e.key (some l)) := by
  constructor
  · intro hl
    exact ⟨e, he, rfl, fun l' hl' => Option.mem_some_iff.1 hl' ▸ hl⟩
  · rintro ⟨e', he', hkey, hlacking⟩
    rw [h.eq_of_key he he' hkey.symm]
    exact hlacking l rfl

/-- Events are told by features: the key and the locks are shown, and the location tells the way. -/
theorem mem_of_shows (hf : f.Placed) (h : s.IsOf f) (h' : s'.IsOf f)
    (hshows : ∀ φ, s.Shows φ ↔ s'.Shows φ) {e : AccessEvent} (he : e ∈ s.accesses) :
    e ∈ s'.accesses := by
  obtain ⟨e', he', hkey, -⟩ := (hshows (.access e.key none)).1 ⟨e, he, rfl, fun _ hl => nomatch hl⟩
  obtain ⟨hpath, hkind, hlocation, hthread⟩ := EventKey.mk.inj hkey
  have hlocks : e'.locks = e.locks := by
    refine SortedSet.ext_mem fun l => not_iff_not.1 ?_
    rw [h'.not_mem_locks_iff he', h.not_mem_locks_iff he, hkey, hshows]
  have howner : e'.owner = e.owner := (h'.owner e' he').trans (h.owner e he).symm
  have hvia : e'.via = e.via := hf (h'.via e' he') (hlocation ▸ h.via e he)
  have heq : e' = e := by
    cases e
    cases e'
    simp_all
  exact heq ▸ he'

/-- **Features determine the summary**: two summaries that a method can have are equal if they show
the same. -/
theorem ext_shows (hf : f.Placed) (h : s.IsOf f) (h' : s'.IsOf f)
    (hshows : ∀ φ, s.Shows φ ↔ s'.Shows φ) : s = s' := by
  have haccesses : s.accesses = s'.accesses := by
    refine eq_of_increasing_keys AccessEvent.key h.increasing h'.increasing fun e => ?_
    exact ⟨mem_of_shows hf h h' hshows, mem_of_shows hf h' h fun φ => (hshows φ).symm⟩
  have hthread : s.thread = s'.thread :=
    le_antisymm ((hshows (.thread s.thread)).1 (le_refl _))
      ((hshows (.thread s'.thread)).2 (le_refl _))
  have hmethod : s.method = s'.method := h.method.trans h'.method.symm
  have hdegraded : s.degraded = s'.degraded := h.degraded.trans h'.degraded.symm
  cases s
  cases s'
  simp_all

end IsOf

end Summary

end Interlock
