import Interlock.Proofs.Guarded.CallGraph
import Interlock.Proofs.Store

/-!
# Building summaries with every look-up guarded

Requests for components on a call graph in tables. A look-up in the tables may fail, and so
does a chain of requests that is longer than the number of components.

- `Inquiry.run?`: an inquiry whose questions may go unanswered.
- `TableBuilder.demand?`, `TableBuilder.buildAll?`: one request, requests for all components.
- `TableBuilder.finished?`: the summary of a method, once its component is finished.
- `TableBuilder.Describes.buildAll?`, `TableBuilder.Describes.finished?`: no look-up fails.
-/

namespace Interlock

/-- Go through an inquiry. Answering a question may change the state, or fail. -/
def Inquiry.run? {α σ : Type} (respond? : MethodId → σ → Option (Option Summary × σ)) :
    Inquiry α → σ → Option (α × σ)
  | done result, state => some (result, state)
  | ask m next, state => do
    let (summary, state) ← respond? m state
    (next summary).run? respond? state

/-- If no question that an inquiry asks goes unanswered, the inquiry gets through. -/
theorem Inquiry.run?_eq_some {α σ : Type} {respond? : MethodId → σ → Option (Option Summary × σ)}
    {respond : MethodId → σ → Option Summary × σ} (answers : MethodId → Option Summary)
    {P : σ → Prop} (t : Inquiry α)
    (h : ∀ m ∈ t.questions answers, ∀ state, P state →
      respond? m state = some (respond m state) ∧ (respond m state).1 = answers m ∧
        P (respond m state).2) {state : σ} (hstate : P state) :
    t.run? respond? state = some (t.run respond state) := by
  induction t generalizing state with
  | done result => rfl
  | ask m next ih =>
    obtain ⟨hrespond, hanswer, hkept⟩ := h m List.mem_cons_self state hstate
    rw [run?, hrespond]
    show (next (respond m state).1).run? respond? (respond m state).2
      = some ((next (respond m state).1).run respond (respond m state).2)
    rw [hanswer]
    exact ih (answers m) (fun m' hm' => h m' (List.mem_cons_of_mem _ hm')) hkept

/-- The outcome of a recursive component with the given members, which are summarized in the given
order. -/
def inquireRecursive (maxRounds : Option Nat) (members ordered : List MethodFacts) :
    Inquiry Outcome := do
  let cap ← inquireCap maxRounds ordered
  let initial := SortedMap.ofList (ordered.map fun f => (f.method, f.emptySummary))
  match ← inquireRounds ordered cap 0 initial with
  | some summaries => return .ok summaries
  | none => return .error (.unstable (members.map (·.method)) cap)

/-- A recursive component is summarized with its callees first. -/
theorem inquireComponent_of_cyclic (maxRounds : Option Nat) (members : List MethodFacts) :
    inquireComponent true maxRounds members
      = inquireRecursive maxRounds members (calleeFirst members) := rfl

/-- What the summaries are built from, with the call graph in tables. -/
structure TableBuilder where
  facts : FactTable
  graph : CallTables
  /-- The cap on rounds, if one is set. -/
  maxRounds : Option Nat

namespace TableBuilder

variable {σ : Type} (b : TableBuilder)

/-- The facts of the methods of a component in ascending order. -/
def memberFacts? (component : Nat) : Option (List MethodFacts) :=
  (b.graph.members? component).map (·.filterMap b.facts.get?)

/-- The computation of the outcome of a component. -/
def inquiry? (component : Nat) : Option (Inquiry Outcome) := do
  let members ← b.memberFacts? component
  if ← b.graph.isCyclic? component then
    let ordered ← calleeFirst? members
    return inquireRecursive b.maxRounds members ordered
  else return inquireComponent false b.maxRounds members

/-- The summary of a method, if it has one; `request?` gives the outcomes of components. -/
def summaryFrom? (request? : Nat → σ → Option (Outcome × σ)) (m : MethodId) (state : σ) :
    Option (Option Summary × σ) := do
  match ← b.graph.componentOf? m with
  | none => return (none, state)
  | some c =>
    let (outcome, state) ← request? c state
    return (Outcome.get? outcome m, state)

/-- The outcome of a component, computed unless it is finished. The first argument bounds the length
of chains of requests. -/
def demand? : Nat → Nat → Store → Option (Outcome × Store)
  | 0, _, _ => none
  | depth + 1, component, store =>
    match store.get? component with
    | some outcome => some (outcome, store)
    | none => do
      let inquiry ← b.inquiry? component
      let (outcome, store) ← inquiry.run? (b.summaryFrom? (demand? depth)) store
      return (outcome, ⟨store.entries ++ [(component, outcome)]⟩)

/-- The store after a request for a component. -/
def request? (store : Store) (component : Nat) : Option Store :=
  (b.demand? (b.graph.condensation.components.size + 1) component store).map (·.2)

/-- Compute all components, level by level. -/
def buildAll? (store : Store) : Option Store :=
  b.graph.condensation.levels.toList.flatten.foldlM b.request? store

/-- The summary of a method, if it has one; its component has to be finished. -/
def finished? (store : Store) (m : MethodId) : Option (Option Summary) := do
  match ← b.graph.componentOf? m with
  | none => return none
  | some c =>
    let outcome ← store.get? c
    return outcome.get? m

/-- `b.Describes b'`: the tables say the same as the call graph of a builder. -/
structure Describes (b : TableBuilder) (b' : Builder) : Prop where
  facts_eq : b.facts = b'.facts
  graph_eq : b'.graph = .of b'.facts
  graph : b.graph.Describes (.of b'.facts)
  maxRounds_eq : b.maxRounds = b'.maxRounds
  keyed : b'.facts.Keyed

namespace Describes

variable {b} {b' : Builder} (h : b.Describes b')

include h

/-- The component of a method is found, or the method has none. -/
theorem componentOf? (m : MethodId) : b.graph.componentOf? m = some (b'.graph.componentOf? m) := by
  rw [h.graph_eq]
  exact h.graph.componentOf? m

/-- No look-up fails when the computation of a component is set up. -/
theorem inquiry? {c : Nat} (hc : c < b'.graph.size) : b.inquiry? c = some (b'.inquiry c) := by
  have hnodup := Builder.nodup_memberFacts h.keyed h.graph_eq c
  rw [h.graph_eq] at hc
  have hmembers : b.memberFacts? c = some (b'.memberFacts c) := by
    rw [TableBuilder.memberFacts?, h.graph.members? h.keyed hc, h.facts_eq, Builder.memberFacts,
      h.graph_eq]
    rfl
  rw [TableBuilder.inquiry?, hmembers, h.graph.isCyclic? hc, Builder.inquiry, h.graph_eq,
    h.maxRounds_eq]
  cases (CallGraph.of b'.facts).isCyclic c with
  | false => rfl
  | true =>
    show (calleeFirst? (b'.memberFacts c)).bind _ = _
    rw [calleeFirst?_eq_some hnodup, inquireComponent_of_cyclic]
    rfl

/-- No look-up fails when a component is requested, and the chain of requests is not too long. -/
theorem demand? (depth : Nat) {c : Nat} (hdepth : c < depth) (hc : c < b'.graph.size)
    {store : Store} (hstore : b'.Sound store) :
    b.demand? depth c store = some (b'.demand depth c store) := by
  induction depth generalizing c store with
  | zero => omega
  | succ depth ih =>
    rw [TableBuilder.demand?, Builder.demand, Memo.getOrCompute]
    cases store.get? c with
    | some outcome => rfl
    | none =>
      have hrun : (b'.inquiry c).run? (b.summaryFrom? (b.demand? depth)) store
          = some ((b'.inquiry c).run (b'.summaryFrom (b'.demand depth)) store) := by
        -- the store stays sound from question to question, so all of them get the settled answers
        refine Inquiry.run?_eq_some b'.summaryOf (P := b'.Sound) _ ?_ hstore
        intro m hm state hstate
        rw [TableBuilder.summaryFrom?, h.componentOf?, Builder.summaryOf]
        cases hd : b'.graph.componentOf? m with
        | none =>
          rw [Builder.summaryFrom_of_none hd]
          exact ⟨rfl, rfl, hstate⟩
        | some d =>
          -- what is asked for lies below, so one request less is enough
          have hlt := Builder.lt_of_mem_questions h.keyed h.graph_eq hm hd
          have hserves := Builder.serves_demand h.keyed h.graph_eq depth (c := d) (by omega) hstate
          rw [Builder.summaryFrom_of_some hd]
          refine ⟨?_, congrArg (Outcome.get? · m) hserves.outcome, hserves.sound⟩
          show (b.demand? depth d state).bind _ = _
          rw [ih (by omega) (by omega) hstate]
          rfl
      rw [h.inquiry? hc]
      show ((b'.inquiry c).run? _ store).bind _ = _
      rw [hrun]
      rfl

/-- There is a cell for each component. -/
theorem size_components : b.graph.condensation.components.size = b'.graph.size := by
  rw [← Array.length_toList, h.graph.condensation.components_eq, h.graph_eq]
  rfl

/-- A request for one component: numbers fall along chains, so there is room for the longest. -/
theorem request? {c : Nat} (hc : c < b'.graph.size) {store : Store} (hstore : b'.Sound store) :
    b.request? store c = some (b'.component c store).2 := by
  rw [TableBuilder.request?, h.size_components, h.demand? _ (by omega) hc hstore, Option.map_some]
  rfl

/-- Requests one after the other, each starting from a store that is sound. -/
theorem foldlM_request? {cs : List Nat} (hcs : ∀ c ∈ cs, c < b'.graph.size) {store : Store}
    (hstore : b'.Sound store) :
    cs.foldlM b.request? store = some (Builder.requestEach b'.component cs store) := by
  induction cs generalizing store with
  | nil => rfl
  | cons c cs ih =>
    have hc := hcs c List.mem_cons_self
    rw [List.foldlM_cons, h.request? hc hstore]
    exact ih (fun d hd => hcs d (List.mem_cons_of_mem _ hd))
      (Builder.serves_component h.keyed h.graph_eq hc hstore).sound

/-- **Summaries**: no look-up fails when all components are computed. -/
theorem buildAll? : b.buildAll? {} = some (b'.buildAll {}) := by
  rw [TableBuilder.buildAll?, h.graph.condensation.levels_eq, Builder.buildAll, h.graph_eq]
  refine h.foldlM_request? (fun c hc => ?_) b'.sound_empty
  rw [h.graph_eq]
  exact Condensation.mem_levels.1 hc

/-- Once all components are computed, the summary of every method is at hand. -/
theorem finished? (m : MethodId) :
    b.finished? (b'.buildAll {}) m = some (b'.finished? (b'.buildAll {}) m) := by
  rw [TableBuilder.finished?, h.componentOf?, Builder.finished?_eq]
  cases hc : b'.graph.componentOf? m with
  | none => rfl
  | some c =>
    have hlt := Builder.lt_size_of_componentOf? h.keyed h.graph_eq hc
    -- every component is in the store by then, this one too
    have hget := (Builder.buildAll_finishes h.keyed h.graph_eq b'.sound_empty).2 c hlt
    show ((b'.buildAll {}).get? c).bind (fun outcome => some (outcome.get? m)) = _
    rw [Option.bind_some, hget]
    rfl

end Describes

end TableBuilder

end Interlock
