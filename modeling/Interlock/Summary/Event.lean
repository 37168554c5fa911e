import Interlock.Summary.Facts

/-!
# Access events and summaries

The summary of a method lists the accesses that running it may perform, in the
method itself or further down its calls. An access further down is placed at the
call through which it happens. Accesses with the same key, that is path, kind,
location and thread context, are one event, which keeps the locks common to all of
them.

- `AccessEvent`, `Summary`: the summary and its events.
- `EventMap.add`: merge one access into the events.
- `MethodFacts.summarize`: the summary of a method, given those of its callees.
-/

namespace Interlock

/-- An access that a method performs, itself or through a call. -/
structure AccessEvent where
  path : AccessPath
  kind : AccessKind
  /-- Locks held on every way to the access. -/
  locks : LockSet
  /-- The access, or the call through which it happens. -/
  location : Location
  thread : ThreadContext
  /-- The method whose summary holds the event. -/
  owner : MethodId
  /-- The method called at the location, for an access further down. -/
  via : Option MethodId
  deriving DecidableEq

/-- The accesses that running a method may perform. -/
structure Summary where
  method : MethodId
  /-- In key order, one event per key. -/
  accesses : List AccessEvent
  /-- The most cautious thread context of the method and all that it calls. -/
  thread : ThreadContext
  /-- Whether lock tracking gave up on the method itself. -/
  degraded : Bool
  deriving DecidableEq

/-- What tells the events of a summary apart. -/
structure EventKey where
  path : AccessPath
  kind : AccessKind
  location : Location
  thread : ThreadContext
  deriving DecidableEq

namespace EventKey

/-- Keys are ordered by path, kind, location and thread context. -/
def order : EventKey → EventKey → Ordering :=
  compareLex (compareOn path) <| compareLex (compareOn kind) <|
    compareLex (compareOn location) (compareOn thread)

instance : Ord EventKey := ⟨order⟩

instance : Std.TransOrd EventKey :=
  inferInstanceAs (Std.TransCmp (compareLex _ (compareLex _ (compareLex _ _))))

instance : Std.LawfulEqOrd EventKey where
  eq_of_compare {a b} h := by
    obtain ⟨h₁, h⟩ := compareLex_eq_eq.1 h
    obtain ⟨h₂, h⟩ := compareLex_eq_eq.1 h
    obtain ⟨h₃, h₄⟩ := compareLex_eq_eq.1 h
    have h₁ : compare a.path b.path = .eq := h₁
    have h₂ : compare a.kind b.kind = .eq := h₂
    have h₃ : compare a.location b.location = .eq := h₃
    have h₄ : compare a.thread b.thread = .eq := h₄
    cases a; cases b
    simp_all

end EventKey

/-- An access before it is merged with others of the same key. -/
structure Contribution where
  key : EventKey
  locks : LockSet
  via : Option MethodId
  deriving DecidableEq

/-- Merged accesses: for each key the common locks, and the first way to it. -/
abbrev EventMap := SortedMap EventKey (LockSet × Option MethodId)

/-- Merge one access into the events. -/
def EventMap.add (events : EventMap) (c : Contribution) : EventMap :=
  events.alter c.key fun
    | some (locks, via) => (locks ∩ c.locks, via)
    | none => (c.locks, c.via)

/-- The events in key order. -/
def EventMap.events (events : EventMap) (owner : MethodId) : List AccessEvent :=
  events.toList.map fun (key, locks, via) =>
    ⟨key.path, key.kind, locks, key.location, key.thread, owner, via⟩

namespace MethodFacts

/-- The summary without accesses, from which the summaries of recursive methods start. -/
def emptySummary (f : MethodFacts) : Summary := ⟨f.method, [], f.thread, f.degraded⟩

/-- The accesses of the method itself. -/
def ownContributions (f : MethodFacts) : List Contribution :=
  f.tagged.accesses.map fun a =>
    ⟨⟨a.access.path, a.access.kind, a.access.location, f.thread⟩, a.locks, none⟩

/-- The accesses that happen through a call, given the summary of the method called. -/
def callContributions (f : MethodFacts) (call : TaggedCall) (callee : Summary) :
    List Contribution :=
  callee.accesses.map fun e =>
    ⟨⟨e.path, e.kind, call.call.location, join f.thread e.thread⟩, e.locks ∪ call.locks,
      some call.call.callee⟩

/-- The summary of a method, given the summaries of the methods it calls. A call of a method
without a summary contributes nothing. -/
def summarize (f : MethodFacts) (summaryOf : MethodId → Option Summary) : Summary :=
  let called := f.tagged.calls.filterMap fun call =>
    (summaryOf call.call.callee).map fun callee => (call, callee)
  let contributions :=
    f.ownContributions ++ called.flatMap fun (call, callee) => f.callContributions call callee
  { method := f.method
    accesses := (contributions.foldl EventMap.add ∅).events f.method
    thread := called.foldl (fun thread (_, callee) => join thread callee.thread) f.thread
    degraded := f.degraded }

end MethodFacts

end Interlock
