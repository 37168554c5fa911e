import Interlock.Summary.Inquiry

/-!
# Building summaries on demand

Outcomes of components are computed when they are first asked for, each at most
once, and kept. Computing a component requests the components of the methods that it
asks for; these have smaller numbers, so the requests come to an end. Building all
components level by level finds the callees of each component finished.

- `Memo`: values computed so far, in the order in which they were finished.
- `Builder.inquiry`: the computation of a component.
- `Builder.component`, `Builder.summary`, `Builder.buildAll`: the requests.
-/

namespace Interlock

/-! ## Memo tables -/

/-- Values computed so far. -/
structure Memo (κ ν : Type) where
  /-- In the order in which they were finished. -/
  entries : List (κ × ν) := []

namespace Memo

variable {κ ν : Type} [DecidableEq κ]

/-- The value under a key, if it was computed. -/
def get? (m : Memo κ ν) (key : κ) : Option ν := m.entries.lookup key

/-- Number of values. -/
def size (m : Memo κ ν) : Nat := m.entries.length

/-- Whether nothing was computed. -/
def isEmpty (m : Memo κ ν) : Bool := m.entries.isEmpty

/-- The value under a key, computed now unless it was computed before. The computation may itself
ask for other keys. -/
def getOrCompute (m : Memo κ ν) (key : κ) (compute : Memo κ ν → ν × Memo κ ν) : ν × Memo κ ν :=
  match m.get? key with
  | some value => (value, m)
  | none =>
    let (value, m) := compute m
    (value, ⟨m.entries ++ [(key, value)]⟩)

end Memo

/-! ## Components on demand -/

/-- The finished components. -/
abbrev Store := Memo Nat Outcome

/-- What the summaries are built from. -/
structure Builder where
  facts : FactTable
  graph : CallGraph
  /-- The cap on rounds, if one is set. -/
  maxRounds : Option Nat

namespace Builder

variable {σ : Type} (b : Builder)

/-- The facts of the methods of a component in ascending order. -/
def memberFacts (component : Nat) : List MethodFacts :=
  (b.graph.members component).filterMap b.facts.get?

/-- The computation of the outcome of a component. -/
def inquiry (component : Nat) : Inquiry Outcome :=
  inquireComponent (b.graph.isCyclic component) b.maxRounds (b.memberFacts component)

/-- The summary of a method, if its component is finished and has one. -/
def finished? (store : Store) (m : MethodId) : Option Summary :=
  match (b.graph.componentOf? m).bind store.get? with
  | some (.ok component) => component.summaries.get? m
  | _ => none

/-- The summary of a method, if it has one; `request` gives the outcomes of components. -/
def summaryFrom (request : Nat → σ → Outcome × σ) (m : MethodId) (state : σ) :
    Option Summary × σ :=
  match b.graph.componentOf? m with
  | none => (none, state)
  | some c =>
    match request c state with
    | (.ok component, state) => (component.summaries.get? m, state)
    | (.error _, state) => (none, state)

/-- Request several components in turn. -/
def requestEach (request : Nat → σ → Outcome × σ) (components : List Nat) (state : σ) : σ :=
  components.foldl (fun state c => (request c state).2) state

/-- The outcome of a component, computed unless it is finished. While it is computed, the components
of the methods that it asks for are requested in turn. The first argument bounds the length of
chains of requests; the number of components is enough. -/
def demand : Nat → Nat → Store → Outcome × Store
  | 0, component, store => (.error (.unstable (b.graph.members component) 0), store)
  | depth + 1, component, store =>
    store.getOrCompute component ((b.inquiry component).run (b.summaryFrom (demand depth)))

/-- The outcome of a component. -/
def component (component : Nat) (store : Store) : Outcome × Store :=
  b.demand (b.graph.size + 1) component store

/-- The summary of a method, if it has one. -/
def summary (m : MethodId) (store : Store) : Option Summary × Store :=
  b.summaryFrom b.component m store

/-- Compute all components, level by level. -/
def buildAll (store : Store) : Store :=
  requestEach b.component b.graph.condensation.levels.flatten store

/-- The methods and the rounds of the components finished without a fault, in component order. -/
def rounds (store : Store) : List (List MethodId × Nat) :=
  (List.range b.graph.size).filterMap fun c =>
    match store.get? c with
    | some (.ok component) => some (b.graph.members c, component.rounds)
    | _ => none

end Builder

end Interlock
