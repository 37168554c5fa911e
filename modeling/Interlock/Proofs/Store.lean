import Interlock.Proofs.Inquiry
import Interlock.Proofs.Schedule
import Interlock.Summary.Store

/-!
# The store holds the outcomes of its components

Computing a component asks only for methods of components with smaller numbers. So each
component has one outcome, which does not depend on what was requested before, and
every request gives this outcome and keeps it.

- `Builder.successor_of_mem_questions`: what computing a component asks for.
- `Builder.outcomeOf`: the outcome of a component.
- `Builder.Sound`: a store that holds outcomes of components, each once.
- `Builder.Serves`, `Builder.serves_demand`: what a request does.
- `Builder.get?_buildAll`: the outcome of every component, once all are built.
-/

namespace Interlock

/-! ## Memo tables -/

/-- Look-ups after a value is added at the end: what was found before is still found. -/
theorem Memo.get?_append {κ ν : Type} [DecidableEq κ] (m : Memo κ ν) (key : κ) (value : ν)
    (key' : κ) : (⟨m.entries ++ [(key, value)]⟩ : Memo κ ν).get? key'
      = (m.get? key').or (if key' = key then some value else none) := by
  rw [get?, List.lookup_append]
  congr 1
  by_cases hkey : key' = key
  · simp [hkey]
  · rw [SortedMap.lookup_cons_of_ne hkey, if_neg hkey]
    rfl

/-- A key without a value is not among the entries. -/
theorem Memo.not_mem_keys {κ ν : Type} [DecidableEq κ] {m : Memo κ ν} {key : κ}
    (h : m.get? key = none) : key ∉ m.entries.map (·.1) := by
  intro hmem
  obtain ⟨entry, hentry, rfl⟩ := List.mem_map.1 hmem
  have hne := List.lookup_eq_none_iff.1 h entry hentry
  simp at hne

/-- The summary of a method in an outcome, if there is one. -/
def Outcome.get? (outcome : Outcome) (m : MethodId) : Option Summary :=
  match outcome with
  | .ok component => component.summaries.get? m
  | .error _ => none

namespace Builder

variable {b : Builder}

/-- A summary is finished if it is in the outcome that the store holds for its component. -/
theorem finished?_eq (store : Store) (m : MethodId) : b.finished? store m
    = (b.graph.componentOf? m).bind fun c => (store.get? c).bind (Outcome.get? · m) := by
  unfold finished?
  cases b.graph.componentOf? m with
  | none => rfl
  | some c =>
    rw [Option.bind_some, Option.bind_some]
    cases store.get? c with
    | none => rfl
    | some outcome => cases outcome <;> rfl

theorem summaryFrom_of_none {σ : Type} {request : Nat → σ → Outcome × σ} {m : MethodId}
    (h : b.graph.componentOf? m = none) (state : σ) :
    b.summaryFrom request m state = (none, state) := by
  rw [summaryFrom, h]

theorem summaryFrom_of_some {σ : Type} {request : Nat → σ → Outcome × σ} {m : MethodId} {c : Nat}
    (h : b.graph.componentOf? m = some c) (state : σ) :
    b.summaryFrom request m state
      = (Outcome.get? (request c state).1 m, (request c state).2) := by
  rw [summaryFrom, h]
  dsimp only
  generalize request c state = answer
  obtain ⟨outcome, after⟩ := answer
  cases outcome <;> rfl

/-! ## What is asked for -/

section Keyed

variable (hk : b.facts.Keyed) (hg : b.graph = .of b.facts)

include hk hg

/-- Successors have smaller numbers. -/
theorem lt_of_mem_successors {c d : Nat} (hd : d ∈ b.graph.condensation.successors c) : d < c := by
  rw [hg] at hd
  exact Condensation.lt_of_mem_successors (CallGraph.wellFormed_callEdges hk) hd

/-- Computing a component asks only for methods of its successors, whatever the answers. -/
theorem successor_of_mem_questions {c d : Nat} {answers : MethodId → Option Summary} {m : MethodId}
    (hm : m ∈ (b.inquiry c).questions answers) (hd : b.graph.componentOf? m = some d) :
    d ∈ b.graph.condensation.successors c := by
  have hmembers : (b.memberFacts c).map (·.method) = (CallGraph.of b.facts).members c := by
    rw [map_method_memberFacts hk hg, hg]
  obtain ⟨⟨f, hf, hcall⟩, hout⟩ := mem_questions_inquireComponent (nodup_memberFacts hk hg c)
    (not_call_within_memberFacts hk hg) b.maxRounds m hm
  obtain ⟨hfacts, hc⟩ := (mem_memberFacts hk hg).1 hf
  rw [hg] at hc hd ⊢
  rw [hmembers, CallGraph.mem_members hk, hd] at hout
  obtain ⟨-, hcidx⟩ := CallGraph.componentOf?_eq_some.1 hc
  obtain ⟨hkey, hdidx⟩ := CallGraph.componentOf?_eq_some.1 hd
  refine (Condensation.mem_successors (CallGraph.wellFormed_callEdges hk)).2 ⟨?_, ?_⟩
  · exact fun heq => hout (heq ▸ rfl)
  · exact ⟨_, CallGraph.edge_of_call hk hfacts hcall hkey, hcidx, hdidx⟩

/-- So it asks only for methods of components with smaller numbers. -/
theorem lt_of_mem_questions {c d : Nat} {answers : MethodId → Option Summary} {m : MethodId}
    (hm : m ∈ (b.inquiry c).questions answers) (hd : b.graph.componentOf? m = some d) : d < c :=
  lt_of_mem_successors hk hg (successor_of_mem_questions hk hg hm hd)

theorem lt_size_of_componentOf? {m : MethodId} {c : Nat}
    (hc : b.graph.componentOf? m = some c) : c < b.graph.size := by
  rw [hg] at hc ⊢
  exact CallGraph.componentOf?_lt hk hc

end Keyed

/-! ## The outcome of a component -/

/-- The outcome of a component, if the methods that it asks for have the outcomes of their
components. -/
def outcomeOf (b : Builder) (c : Nat) : Outcome :=
  (b.inquiry c).answer fun m =>
    match b.graph.componentOf? m with
    | some d => if _h : d < c then Outcome.get? (outcomeOf b d) m else none
    | none => none
termination_by c

/-- The summary of a method in the outcome of its component. -/
def summaryOf (b : Builder) (m : MethodId) : Option Summary :=
  (b.graph.componentOf? m).bind fun c => Outcome.get? (b.outcomeOf c) m

/-- The outcome of a component from the summaries in a store. -/
def compute (b : Builder) (store : Store) (c : Nat) : Outcome :=
  summarizeComponent (b.graph.isCyclic c) b.maxRounds (b.finished? store) (b.memberFacts c)

/-- What is asked for is never a summary of the component itself or of a later one. -/
theorem outcomeOf_eq (hk : b.facts.Keyed) (hg : b.graph = .of b.facts) (c : Nat) :
    b.outcomeOf c = (b.inquiry c).answer b.summaryOf := by
  rw [outcomeOf]
  refine Inquiry.answer_congr _ fun m hm => ?_
  unfold summaryOf
  cases hd : b.graph.componentOf? m with
  | none => rfl
  | some d => simp [lt_of_mem_questions hk hg hm hd]

/-- Computing a component from a state in which requests for its successors give their outcomes, and
keep what they keep. -/
theorem run_inquiry (hk : b.facts.Keyed) (hg : b.graph = .of b.facts) {σ : Type}
    {request : Nat → σ → Outcome × σ} {P : σ → Prop} {c : Nat}
    (h : ∀ d ∈ b.graph.condensation.successors c, ∀ state, P state →
      (request d state).1 = b.outcomeOf d ∧ P (request d state).2) {state : σ} (hstate : P state) :
    ((b.inquiry c).run (b.summaryFrom request) state).1 = b.outcomeOf c ∧
      P ((b.inquiry c).run (b.summaryFrom request) state).2 := by
  rw [outcomeOf_eq hk hg]
  refine Inquiry.run_eq_answer (b.inquiry c) ?_ hstate
  intro m hm state hstate
  unfold summaryOf
  cases hd : b.graph.componentOf? m with
  | none =>
    rw [summaryFrom_of_none hd]
    exact ⟨rfl, hstate⟩
  | some d =>
    obtain ⟨houtcome, hkept⟩ := h d (successor_of_mem_questions hk hg hm hd) state hstate
    rw [summaryFrom_of_some hd, houtcome]
    exact ⟨rfl, hkept⟩

/-! ## Requests -/

/-- Every outcome in the store is that of its component, and none is there twice. -/
structure Sound (b : Builder) (store : Store) : Prop where
  outcome : ∀ {c outcome}, store.get? c = some outcome → outcome = b.outcomeOf c
  nodup : (store.entries.map (·.1)).Nodup

theorem sound_empty (b : Builder) : b.Sound {} where
  outcome h := nomatch h
  nodup := .nil

/-- A store that keeps all of another and adds only components below a bound. -/
structure Grows (bound : Nat) (store store' : Store) : Prop where
  keeps : ∀ {c outcome}, store.get? c = some outcome → store'.get? c = some outcome
  added : ∀ {c outcome}, store'.get? c = some outcome → store.get? c = some outcome ∨ c < bound

theorem Grows.refl (bound : Nat) (store : Store) : Grows bound store store := ⟨id, .inl⟩

theorem Grows.trans {bound bound' : Nat} (hle : bound ≤ bound') {store store' store'' : Store}
    (h : Grows bound store store') (h' : Grows bound' store' store'') :
    Grows bound' store store'' where
  keeps hc := h'.keeps (h.keeps hc)
  added hc := by
    rcases h'.added hc with hc | hlt
    · rcases h.added hc with hc | hlt
      · exact .inl hc
      · exact .inr (Nat.lt_of_lt_of_le hlt hle)
    · exact .inr hlt

/-- Adding the outcome of a component that is missing. -/
theorem Sound.append {store : Store} (h : b.Sound store) {c : Nat} (hc : store.get? c = none) :
    b.Sound ⟨store.entries ++ [(c, b.outcomeOf c)]⟩ where
  outcome {d outcome} hd := by
    rw [Memo.get?_append] at hd
    cases hold : store.get? d with
    | some kept =>
      rw [hold, Option.some_or, Option.some_inj] at hd
      rw [← hd]
      exact h.outcome hold
    | none =>
      rw [hold, Option.none_or] at hd
      split at hd
      · next hdc => rw [hdc, ← Option.some_inj.1 hd]
      · cases hd
  nodup := by
    rw [List.map_append, List.nodup_append]
    refine ⟨h.nodup, List.nodup_singleton c, fun d hd e he => ?_⟩
    obtain rfl : e = c := List.mem_singleton.1 he
    exact fun heq => Memo.not_mem_keys hc (heq ▸ hd)

/-- A store grows when the outcome of a component is added. -/
theorem grows_append {store : Store} (c : Nat) (outcome : Outcome) :
    Grows (c + 1) store ⟨store.entries ++ [(c, outcome)]⟩ where
  keeps hd := by rw [Memo.get?_append, hd, Option.some_or]
  added {d _} hd := by
    rw [Memo.get?_append] at hd
    by_cases hdc : d = c
    · exact .inr (by omega)
    · rw [if_neg hdc, Option.or_none] at hd
      exact .inl hd

/-- What a request for component `c` answers and does to a store. -/
structure Serves (b : Builder) (c : Nat) (store : Store) (answer : Outcome × Store) : Prop where
  outcome : answer.1 = b.outcomeOf c
  sound : b.Sound answer.2
  grows : Grows (c + 1) store answer.2
  finished : answer.2.get? c = some (b.outcomeOf c)

section Requests

variable (hk : b.facts.Keyed) (hg : b.graph = .of b.facts)

include hk hg

/-- **Requests**: one whose depth is larger than its component serves it. -/
theorem serves_demand (depth : Nat) {c : Nat} (hc : c < depth) {store : Store}
    (h : b.Sound store) : Serves b c store (b.demand depth c store) := by
  induction depth generalizing c store with
  | zero => omega
  | succ depth ih =>
    rw [demand, Memo.getOrCompute]
    split
    · next outcome hget =>
      have houtcome := h.outcome hget
      exact ⟨houtcome, h, .refl _ _, houtcome ▸ hget⟩
    · next hnone =>
      -- requests made on the way are for successors, so they add components below `c` only
      have hnested : ∀ d ∈ b.graph.condensation.successors c, ∀ state,
          b.Sound state ∧ Grows c store state → (b.demand depth d state).1 = b.outcomeOf d ∧
            b.Sound (b.demand depth d state).2 ∧ Grows c store (b.demand depth d state).2 := by
        rintro d hd state ⟨hsound, hgrows⟩
        have hlt := lt_of_mem_successors hk hg hd
        have hserves := ih (c := d) (by omega) hsound
        have hbelow := hserves.grows.trans hlt (.refl c _)
        exact ⟨hserves.outcome, hserves.sound, hgrows.trans (le_refl c) hbelow⟩
      have hrun := run_inquiry hk hg hnested ⟨h, .refl c store⟩
      generalize (b.inquiry c).run (b.summaryFrom (b.demand depth)) store = result at hrun
      obtain ⟨outcome, asked⟩ := result
      -- only components below `c` were added, so it is still missing
      obtain ⟨rfl, hsound, hgrows⟩ := hrun
      have hmissing : asked.get? c = none := by
        rw [Option.eq_none_iff_forall_ne_some]
        intro outcome houtcome
        rcases hgrows.added houtcome with hold | hlt
        · rw [hnone] at hold
          cases hold
        · omega
      refine ⟨rfl, hsound.append hmissing, hgrows.trans (Nat.le_succ c) (grows_append c _), ?_⟩
      show (⟨asked.entries ++ [(c, b.outcomeOf c)]⟩ : Store).get? c = _
      rw [Memo.get?_append, hmissing, Option.none_or, if_pos rfl]

/-- So does a request of the depth that the store uses. -/
theorem serves_component {c : Nat} (hc : c < b.graph.size) {store : Store} (h : b.Sound store) :
    Serves b c store (b.component c store) :=
  serves_demand hk hg (b.graph.size + 1) (by omega) h

/-- Requests for several components in turn. -/
theorem requestEach_finishes {cs : List Nat} (hcs : ∀ c ∈ cs, c < b.graph.size) {store : Store}
    (h : b.Sound store) : b.Sound (requestEach b.component cs store) ∧
      Grows b.graph.size store (requestEach b.component cs store) ∧
      ∀ c ∈ cs, (requestEach b.component cs store).get? c = some (b.outcomeOf c) := by
  induction cs generalizing store with
  | nil => exact ⟨h, .refl _ _, fun c hc => absurd hc List.not_mem_nil⟩
  | cons c cs ih =>
    have hc : c < b.graph.size := hcs c List.mem_cons_self
    have hfirst := serves_component hk hg hc h
    obtain ⟨hsound, hgrows, hall⟩ := ih (fun d hd => hcs d (List.mem_cons_of_mem _ hd)) hfirst.sound
    refine ⟨hsound, hfirst.grows.trans hc hgrows, fun d hd => ?_⟩
    rcases List.mem_cons.1 hd with rfl | hd
    · exact hgrows.keeps hfirst.finished
    · exact hall d hd

/-- Once all levels below are built, the successors of a component are finished. -/
theorem successor_finished {lower upper : List (List Nat)} {level : List Nat}
    (hlevels : b.graph.condensation.levels = lower ++ level :: upper) {c d : Nat} (hc : c ∈ level)
    (hd : d ∈ b.graph.condensation.successors c) {store : Store} (h : b.Sound store) :
    (requestEach b.component lower.flatten store).get? d = some (b.outcomeOf d) := by
  have hlower : ∀ i ∈ lower.flatten, i < b.graph.size := by
    intro i hi
    refine Condensation.mem_levels.1 ?_
    rw [hlevels, List.flatten_append]
    exact List.mem_append_left _ hi
  refine (requestEach_finishes hk hg hlower h).2.2 d ?_
  rw [hg] at hlevels hd
  exact Condensation.successor_mem_lower (CallGraph.wellFormed_callEdges hk) hlevels hc hd

/-- Building all components finishes each of them. -/
theorem buildAll_finishes {store : Store} (h : b.Sound store) : b.Sound (b.buildAll store) ∧
    ∀ c < b.graph.size, (b.buildAll store).get? c = some (b.outcomeOf c) := by
  obtain ⟨hsound, -, hall⟩ :=
    requestEach_finishes hk hg (fun c hc => Condensation.mem_levels.1 hc) h
  exact ⟨hsound, fun c hc => hall c (Condensation.mem_levels.2 hc)⟩

/-- The finished summaries, once all components are built. -/
theorem finished?_buildAll (m : MethodId) : b.finished? (b.buildAll {}) m = b.summaryOf m := by
  rw [finished?_eq, summaryOf]
  cases hc : b.graph.componentOf? m with
  | none => rfl
  | some c =>
    rw [Option.bind_some, Option.bind_some,
      (buildAll_finishes hk hg b.sound_empty).2 c (lt_size_of_componentOf? hk hg hc),
      Option.bind_some]

/-- **The finished store**: once all components are built, each has the outcome that the others give
it. -/
theorem get?_buildAll {c : Nat} (hc : c < b.graph.size) :
    (b.buildAll {}).get? c = some (b.compute (b.buildAll {}) c) := by
  have hsame : b.finished? (b.buildAll {}) = b.summaryOf := funext (finished?_buildAll hk hg)
  rw [(buildAll_finishes hk hg b.sound_empty).2 c hc, outcomeOf_eq hk hg, compute, hsame, inquiry,
    answer_inquireComponent]

end Requests

end Builder

end Interlock
