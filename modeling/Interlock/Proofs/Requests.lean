import Interlock.Proofs.Store

/-!
# Sequences of requests

Components, summaries and the whole build may be asked for in any order. To say what
happens while requests are served, the store is watched: a watched store records which
computations begin, and which components are asked for while another one is computed.

- `Request`, `Reply`, `Builder.serveAll`: serving requests in turn.
- `Watched`, `Builder.watch`: requests on a watched store.
- `Builder.watch_store`: watching changes nothing.
- `Builder.nested_watch`: nested requests are for successors.
- `Builder.balanced_watch`: as many computations end as begin.
- `Builder.requests_agree`: the replies do not depend on the order of requests.
-/

namespace Interlock

/-! ## Requests and replies -/

/-- A request on a graph with `n` components. -/
inductive Request (n : Nat) where
  | component (c : Fin n)
  | summary (m : MethodId)
  | buildAll

/-- What a request is answered with. -/
inductive Reply where
  | outcome (outcome : Outcome)
  | summary (summary : Option Summary)
  | built

namespace Builder

section Serve

variable {σ : Type} (b : Builder)

/-- Serve a request; `request` gives the outcomes of components. With `b.component` for it, the
requests are `b.component`, `b.summary` and `b.buildAll`. -/
def serve (request : Nat → σ → Outcome × σ) : Request b.graph.size → σ → Reply × σ
  | .component c, state => (request c state).map .outcome id
  | .summary m, state => (b.summaryFrom request m state).map .summary id
  | .buildAll, state =>
    (.built, requestEach request b.graph.condensation.levels.flatten state)

/-- Serve requests in turn. -/
def serveAll (request : Nat → σ → Outcome × σ) :
    List (Request b.graph.size) → σ → List Reply × σ
  | [], state => ([], state)
  | r :: requests, state =>
    let (reply, state) := b.serve request r state
    let (replies, state) := serveAll request requests state
    (reply :: replies, state)

/-- The reply that a store with all components holds. -/
def replyIn (store : Store) : Request b.graph.size → Option Reply
  | .component c => (store.get? c).map .outcome
  | .summary m => some (.summary (b.finished? store m))
  | .buildAll => some .built

end Serve

end Builder

/-! ## Watched stores -/

/-- A store with a record of how it came about. -/
structure Watched where
  store : Store := {}
  /-- The components whose computation began, in order. -/
  begun : List Nat := []
  /-- Which component was asked for while another one, named first, was computed. -/
  nested : List (Nat × Nat) := []

namespace Watched

/-- The components that are finished. -/
def finished (w : Watched) : List Nat := w.store.entries.map (·.1)

/-- The computation of component `c` begins. -/
def begin (w : Watched) (c : Nat) : Watched := { w with begun := w.begun ++ [c] }

/-- Component `d` is asked for while component `c` is computed. -/
def nest (w : Watched) (c d : Nat) : Watched := { w with nested := w.nested ++ [(c, d)] }

/-- The computation of component `c` ends. -/
def finish (w : Watched) (c : Nat) (outcome : Outcome) : Watched :=
  { w with store := ⟨w.store.entries ++ [(c, outcome)]⟩ }

end Watched

namespace Builder

variable {b : Builder}

/-- The outcome of a component from a watched store. -/
def watch (b : Builder) : Nat → Nat → Watched → Outcome × Watched
  | 0, c, w => (.error (.unstable (b.graph.members c) 0), w)
  | depth + 1, c, w =>
    match w.store.get? c with
    | some outcome => (outcome, w)
    | none =>
      let (outcome, w) := (b.inquiry c).run
        (b.summaryFrom fun d w => watch b depth d (w.nest c d)) (w.begin c)
      (outcome, w.finish c outcome)

/-- A request for a component on a watched store. -/
def watched (b : Builder) (c : Nat) (w : Watched) : Outcome × Watched :=
  b.watch (b.graph.size + 1) c w

/-! ## Watching changes nothing -/

section View

variable {σ τ : Type} {view : σ → τ} {request : Nat → σ → Outcome × σ}
  {request' : Nat → τ → Outcome × τ}
  (h : ∀ c state, (request c state).map id view = request' c (view state))

include h

/-- What is not looked at makes no difference to a summary. -/
theorem summaryFrom_map (m : MethodId) (state : σ) :
    (b.summaryFrom request m state).map id view = b.summaryFrom request' m (view state) := by
  cases hc : b.graph.componentOf? m with
  | none => rw [summaryFrom_of_none hc, summaryFrom_of_none hc, Prod.map, id]
  | some c =>
    rw [summaryFrom_of_some hc, summaryFrom_of_some hc, ← h]
    rfl

theorem requestEach_map (cs : List Nat) (state : σ) :
    view (requestEach request cs state) = requestEach request' cs (view state) := by
  induction cs generalizing state with
  | nil => rfl
  | cons c cs ih =>
    show view (requestEach request cs (request c state).2)
      = requestEach request' cs (request' c (view state)).2
    rw [ih, ← h]
    rfl

/-- Nor to a reply. -/
theorem serve_map (r : Request b.graph.size) (state : σ) :
    (b.serve request r state).map id view = b.serve request' r (view state) := by
  cases r with
  | component c =>
    show ((request c state).map Reply.outcome id).map id view
      = (request' c (view state)).map Reply.outcome id
    rw [← h]
    rfl
  | summary m =>
    show ((b.summaryFrom request m state).map Reply.summary id).map id view
      = (b.summaryFrom request' m (view state)).map Reply.summary id
    rw [← summaryFrom_map h]
    rfl
  | buildAll =>
    show (Reply.built, view (requestEach request _ state))
      = (Reply.built, requestEach request' _ (view state))
    rw [requestEach_map h]

theorem serveAll_map (requests : List (Request b.graph.size)) (state : σ) :
    (b.serveAll request requests state).map id view
      = b.serveAll request' requests (view state) := by
  induction requests generalizing state with
  | nil => rfl
  | cons r requests ih =>
    show (((b.serve request r state).1 ::
          (b.serveAll request requests (b.serve request r state).2).1,
        (b.serveAll request requests (b.serve request r state).2).2)).map id view
      = ((b.serve request' r (view state)).1 ::
          (b.serveAll request' requests (b.serve request' r (view state)).2).1,
        (b.serveAll request' requests (b.serve request' r (view state)).2).2)
    rw [← serve_map h]
    show _ = ((b.serve request r state).1 ::
          (b.serveAll request' requests (view (b.serve request r state).2)).1,
        (b.serveAll request' requests (view (b.serve request r state).2)).2)
    rw [← ih]
    rfl

end View

/-- A request answers the same, and does the same to the store, whether it is watched or not. -/
theorem watch_store (depth c : Nat) (w : Watched) :
    (b.watch depth c w).map id Watched.store = b.demand depth c w.store := by
  induction depth generalizing c w with
  | zero => rfl
  | succ depth ih =>
    rw [watch, demand, Memo.getOrCompute]
    split
    · next outcome hget => rw [hget]; rfl
    · next hnone =>
      rw [hnone]
      -- the questions are answered alike by induction, and the records are not looked at
      have hrun := Inquiry.run_map Watched.store (b.inquiry c)
        (summaryFrom_map (b := b) fun d w => ih d (w.nest c d)) (w.begin c)
      rw [show (w.begin c).store = w.store from rfl] at hrun
      dsimp only
      rw [← hrun]
      rfl

theorem watched_store (c : Nat) (w : Watched) :
    (b.watched c w).map id Watched.store = b.component c w.store := watch_store _ c w

/-! ## What is recorded -/

/-- As many computations end as begin between `w` and `w'`. -/
def Balanced (w w' : Watched) : Prop :=
  ∀ d, w'.begun.count d + w.finished.count d = w.begun.count d + w'.finished.count d

theorem Balanced.refl (w : Watched) : Balanced w w := fun _ => rfl

/-- What holds of two stretches holds of both together. -/
theorem Balanced.trans {w w' w'' : Watched} (h : Balanced w w') (h' : Balanced w' w'') :
    Balanced w w'' := by
  intro d
  have := h d
  have := h' d
  omega

/-- A computation that begins and ends around others. -/
theorem Balanced.around {w w' : Watched} {c : Nat} (h : Balanced (w.begin c) w')
    (outcome : Outcome) : Balanced w (w'.finish c outcome) := by
  intro d
  have hbegin : (w.begin c).begun.count d = w.begun.count d + [c].count d := List.count_append
  have hfinish : (w'.finish c outcome).finished.count d = w'.finished.count d + [c].count d := by
    unfold Watched.finished Watched.finish
    rw [List.map_append, List.count_append]
    rfl
  have hwithin : w'.begun.count d + w.finished.count d
      = (w.begin c).begun.count d + w'.finished.count d := h d
  show w'.begun.count d + w.finished.count d
    = w.begun.count d + (w'.finish c outcome).finished.count d
  omega

/-- A request ends all computations that it begins. -/
theorem balanced_watch (depth c : Nat) (w : Watched) : Balanced w (b.watch depth c w).2 := by
  induction depth generalizing c w with
  | zero => exact .refl w
  | succ depth ih =>
    rw [watch]
    split
    · exact .refl w
    · refine Balanced.around (Inquiry.run_keeps (b.inquiry c) ?_ (.refl (w.begin c))) _
      intro m state hstate
      cases hd : b.graph.componentOf? m with
      | none =>
        rw [summaryFrom_of_none hd]
        exact hstate
      | some d =>
        rw [summaryFrom_of_some hd]
        -- asking begins and ends nothing
        exact hstate.trans (ih d (state.nest c d))

/-- No computation begins twice, because none ends twice. -/
theorem Balanced.nodup {w : Watched} (h : Balanced {} w) (hw : b.Sound w.store) :
    w.begun.Nodup := by
  rw [List.nodup_iff_count_le_one]
  intro c
  have hfinished : w.finished.count c ≤ 1 := List.nodup_iff_count_le_one.1 hw.nodup c
  have hbegun : w.begun.count c + 0 = 0 + w.finished.count c := h c
  omega

/-- Only successors were asked for while a component was computed. -/
def NestsSuccessors (b : Builder) (w : Watched) : Prop :=
  ∀ c d, (c, d) ∈ w.nested → d ∈ b.graph.condensation.successors c

/-- A request for a successor may be recorded. -/
theorem NestsSuccessors.nest {w : Watched} (h : b.NestsSuccessors w) {c d : Nat}
    (hd : d ∈ b.graph.condensation.successors c) : b.NestsSuccessors (w.nest c d) := by
  intro c' d' hmem
  rcases List.mem_append.1 hmem with hmem | hmem
  · exact h c' d' hmem
  · obtain ⟨rfl, rfl⟩ := Prod.mk.inj (List.mem_singleton.1 hmem)
    exact hd

section Keyed

variable (hk : b.facts.Keyed) (hg : b.graph = .of b.facts)

include hk hg

/-- What a request answers and does to a watched store. -/
theorem serves_watch (depth : Nat) {c : Nat} (hc : c < depth) {w : Watched} (h : b.Sound w.store) :
    Serves b c w.store ((b.watch depth c w).1, (b.watch depth c w).2.store) := by
  have hserves := serves_demand hk hg depth hc h
  rw [← watch_store] at hserves
  exact hserves

/-- Nested requests are for successors, since questions are. -/
theorem nested_watch (depth : Nat) {c : Nat} (hc : c < depth) {w : Watched}
    (h : b.Sound w.store) (hw : b.NestsSuccessors w) :
    b.NestsSuccessors (b.watch depth c w).2 := by
  induction depth generalizing c w with
  | zero => omega
  | succ depth ih =>
    rw [watch]
    split
    · exact hw
    · have hnested : ∀ d ∈ b.graph.condensation.successors c, ∀ state : Watched,
          b.Sound state.store ∧ b.NestsSuccessors state →
          (b.watch depth d (state.nest c d)).1 = b.outcomeOf d ∧
            b.Sound (b.watch depth d (state.nest c d)).2.store ∧
            b.NestsSuccessors (b.watch depth d (state.nest c d)).2 := by
        rintro d hd state ⟨hsound, hnests⟩
        have hlt := lt_of_mem_successors hk hg hd
        have hserves := serves_watch hk hg depth (c := d) (w := state.nest c d) (by omega) hsound
        exact ⟨hserves.outcome, hserves.sound, ih (by omega) hsound (hnests.nest hd)⟩
      have hbegin : b.Sound (w.begin c).store ∧ b.NestsSuccessors (w.begin c) := ⟨h, hw⟩
      exact (run_inquiry hk hg hnested hbegin).2.2

/-! ## Serving requests in turn -/

/-- Serving a request keeps what requests for components keep. -/
theorem serve_keeps {σ : Type} {request : Nat → σ → Outcome × σ} {P : σ → Prop}
    (h : ∀ c < b.graph.size, ∀ state, P state → P (request c state).2)
    (r : Request b.graph.size) {state : σ} (hstate : P state) :
    P (b.serve request r state).2 := by
  cases r with
  | component c => exact h c c.isLt state hstate
  | summary m =>
    show P (b.summaryFrom request m state).2
    cases hc : b.graph.componentOf? m with
    | none =>
      rw [summaryFrom_of_none hc]
      exact hstate
    | some c =>
      rw [summaryFrom_of_some hc]
      exact h c (lt_size_of_componentOf? hk hg hc) state hstate
  | buildAll =>
    have hlevels : ∀ c ∈ b.graph.condensation.levels.flatten, c < b.graph.size := fun c hc =>
      Condensation.mem_levels.1 hc
    show P (requestEach request b.graph.condensation.levels.flatten state)
    generalize b.graph.condensation.levels.flatten = cs at hlevels
    induction cs generalizing state with
    | nil => exact hstate
    | cons c cs ih =>
      refine ih (h c (hlevels c List.mem_cons_self) state hstate) ?_
      exact fun d hd => hlevels d (List.mem_cons_of_mem c hd)

/-- So do several requests. -/
theorem serveAll_keeps {σ : Type} {request : Nat → σ → Outcome × σ} {P : σ → Prop}
    (h : ∀ c < b.graph.size, ∀ state, P state → P (request c state).2)
    (requests : List (Request b.graph.size)) {state : σ} (hstate : P state) :
    P (b.serveAll request requests state).2 := by
  induction requests generalizing state with
  | nil => exact hstate
  | cons r requests ih => exact ih (serve_keeps hk hg h r hstate)

theorem sound_serve (r : Request b.graph.size) {store : Store} (h : b.Sound store) :
    b.Sound (b.serve b.component r store).2 :=
  serve_keeps (P := b.Sound) hk hg (fun _ hc _ hs => (serves_component hk hg hc hs).sound) r h

/-- A request is answered with what a store with all components holds. -/
theorem reply_serve (r : Request b.graph.size) {store : Store} (h : b.Sound store) :
    some (b.serve b.component r store).1 = b.replyIn (b.buildAll {}) r := by
  cases r with
  | component c =>
    show some (Reply.outcome (b.component c store).1)
      = ((b.buildAll {}).get? c).map Reply.outcome
    rw [(buildAll_finishes hk hg b.sound_empty).2 c c.isLt,
      (serves_component hk hg c.isLt h).outcome]
    rfl
  | summary m =>
    show some (Reply.summary (b.summary m store).1)
      = some (Reply.summary (b.finished? (b.buildAll {}) m))
    rw [finished?_buildAll hk hg, summaryOf, summary]
    cases hc : b.graph.componentOf? m with
    | none =>
      rw [summaryFrom_of_none hc]
      rfl
    | some c =>
      have hlt := lt_size_of_componentOf? hk hg hc
      rw [summaryFrom_of_some hc, (serves_component hk hg hlt h).outcome]
      rfl
  | buildAll => rfl

/-- The same for requests in turn, each of which leaves the store sound. -/
theorem replies_serveAll (requests : List (Request b.graph.size)) {store : Store}
    (h : b.Sound store) : (b.serveAll b.component requests store).1.map some
      = requests.map (b.replyIn (b.buildAll {})) := by
  induction requests generalizing store with
  | nil => rfl
  | cons r requests ih =>
    rw [List.map_cons, ← reply_serve hk hg r h, ← ih (sound_serve hk hg r h)]
    rfl

/-- What serving requests records. -/
theorem recorded_serveAll (requests : List (Request b.graph.size)) :
    b.Sound (b.serveAll b.watched requests {}).2.store ∧
      b.NestsSuccessors (b.serveAll b.watched requests {}).2 ∧
      Balanced {} (b.serveAll b.watched requests {}).2 := by
  refine serveAll_keeps (P := fun w => b.Sound w.store ∧ b.NestsSuccessors w ∧ Balanced {} w)
    hk hg ?_ requests ⟨b.sound_empty, fun c d hmem => absurd hmem List.not_mem_nil, .refl {}⟩
  rintro c hc w ⟨hsound, hnests, hbalanced⟩
  have hdepth : c < b.graph.size + 1 := Nat.lt_succ_of_lt hc
  exact ⟨(serves_watch hk hg _ hdepth hsound).sound, nested_watch hk hg _ hdepth hsound hnests,
    hbalanced.trans (balanced_watch _ c w)⟩

/-- **Requests in any order**: they reply what a fresh store holds once all components are built.
Meanwhile only successors of a component are asked for while it is computed, none is computed twice,
and building all components finds the successors of each one finished when its level is reached. -/
theorem requests_agree (requests : List (Request b.graph.size)) :
    (b.serveAll b.watched requests {}).map id Watched.store
      = b.serveAll b.component requests {} ∧
    (∀ c d, (c, d) ∈ (b.serveAll b.watched requests {}).2.nested →
      d ∈ b.graph.condensation.successors c ∧ d ≠ c) ∧
    (b.serveAll b.watched requests {}).2.begun.Nodup ∧
    (∀ lower level upper, b.graph.condensation.levels = lower ++ level :: upper →
      ∀ c ∈ level, ∀ d ∈ b.graph.condensation.successors c, ∃ outcome,
        (requestEach b.component lower.flatten (b.serveAll b.component requests {}).2).get? d
          = some outcome) ∧
    (b.serveAll b.component requests {}).1.map some
      = requests.map (b.replyIn (b.buildAll {})) := by
  -- the watched run and the plain one are the same run
  have hview := serveAll_map (b := b) (watched_store (b := b)) requests {}
  obtain ⟨hsound, hnests, hbalanced⟩ := recorded_serveAll hk hg requests
  refine ⟨hview, ?_, ?_, ?_, replies_serveAll hk hg requests b.sound_empty⟩
  · intro c d hmem
    have hsuccessor := hnests c d hmem
    exact ⟨hsuccessor, (lt_of_mem_successors hk hg hsuccessor).ne⟩
  · exact hbalanced.nodup hsound
  · intro lower level upper hlevels c hc d hd
    have hstore : b.Sound (b.serveAll b.component requests {}).2 := by
      rw [← hview]
      exact hsound
    exact ⟨_, successor_finished hk hg hlevels hc hd hstore⟩

end Keyed

/-! ## An example -/

/-- The facts of a method that only calls others. -/
def callsOnly (m : MethodId) (callees : List MethodId) : MethodFacts where
  method := m
  thread := .unknown
  tagged := { calls := callees.map fun callee => ⟨⟨callee, ⟨m, 1, 0, 0⟩⟩, ∅⟩ }
  degraded := false

/-- Methods 0 and 1 call each other, method 1 calls method 2, and method 3 calls method 0. -/
def relay : Builder :=
  let facts : FactTable := .ofList ([callsOnly ⟨0⟩ [⟨1⟩], callsOnly ⟨1⟩ [⟨0⟩, ⟨2⟩],
    callsOnly ⟨2⟩ [], callsOnly ⟨3⟩ [⟨0⟩]].map fun f => (f.method, f))
  ⟨facts, .of facts, none⟩

theorem keyed_relay : relay.facts.Keyed := by
  intro m f hf
  obtain ⟨f', -, heq⟩ := List.mem_map.1 (SortedMap.mem_of_get?_ofList hf)
  rw [← (Prod.mk.inj heq).1, ← (Prod.mk.inj heq).2]

/-- The last caller first, then its components from the top down. -/
def relayRequests : List (Request relay.graph.size) :=
  [.summary ⟨3⟩, .component ⟨1, by decide +kernel⟩, .buildAll, .component ⟨0, by decide +kernel⟩]

theorem requests_agree_relay :
    relay.facts.Keyed ∧
    (relay.serveAll relay.watched relayRequests {}).2.begun = [2, 1, 0] ∧
    (2, 1) ∈ (relay.serveAll relay.watched relayRequests {}).2.nested ∧
    (1 ∈ relay.graph.condensation.successors 2 ∧ 1 ≠ 2) ∧
    (∃ outcome, (requestEach relay.component [0, 1]
      (relay.serveAll relay.component relayRequests {}).2).get? 1 = some outcome) ∧
    (relay.serveAll relay.component relayRequests {}).1.map some
      = relayRequests.map (relay.replyIn (relay.buildAll {})) := by
  have hbegun : (relay.serveAll relay.watched relayRequests {}).2.begun = [2, 1, 0] := by
    decide +kernel
  have hnested : (2, 1) ∈ (relay.serveAll relay.watched relayRequests {}).2.nested := by
    decide +kernel
  have hlevels : relay.graph.condensation.levels = [[0], [1]] ++ [2] :: [] := by decide +kernel
  obtain ⟨-, hsuccessors, -, hfinished, hreplies⟩ := requests_agree keyed_relay rfl relayRequests
  have hsuccessor := hsuccessors 2 1 hnested
  exact ⟨keyed_relay, hbegun, hnested, hsuccessor,
    hfinished _ _ _ hlevels 2 List.mem_cons_self 1 hsuccessor.1, hreplies⟩

end Builder

end Interlock
