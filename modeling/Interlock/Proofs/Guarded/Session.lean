import Interlock.Proofs.Accounting
import Interlock.Proofs.Guarded.Classes
import Interlock.Proofs.Guarded.Locks
import Interlock.Proofs.Guarded.Summaries

/-!
# Analysis of a program with every look-up guarded

A session in which every look-up may fail: in arrays by place, in tables by method or class
name, and in sets by number. If one fails, so does the whole.

- `TableSession.of?`: facts, call graph in tables and notes of a program.
- `TableSession.drawCallGraph?`, `TableSession.run?`: the drawing and the report.
- `Program.Assembled`: the predecessors of all blocks are derived from edges, as they are in every
  program read from a text.
- `lookups_succeed`: in an assembled program no look-up ever fails, whatever edges, calls, classes
  and numbers it names and whatever the limits, and the results are those of `Session`.
-/

namespace Interlock

/-! ## Methods -/

/-- The name of a method, if there is one with that number. -/
def nameOf? (methods : List Method) (m : MethodId) : Option String :=
  (methods.find? (·.id = m)).map Method.qualifiedName

namespace Method

/-- The facts of a method, with the notes that finding them gives rise to, given what came of lock
tracking. -/
def prepareFrom (m : Method) (hierarchy : Hierarchy) :
    Except LimitReached Tagged → MethodFacts × List Note
  | .ok tagged =>
    (⟨m.id, hierarchy.classify m, tagged, false⟩,
      m.extract.skipped.map (Note.ofSkipped m.qualifiedName))
  | .error e =>
    (⟨m.id, hierarchy.classify m, m.assumeNoLocks, true⟩,
      m.extract.skipped.map (Note.ofSkipped m.qualifiedName)
        ++ [Note.ofBudget m.qualifiedName (.budgetExceeded m.id e.limit)])

theorem prepareFrom_trackLocks (m : Method) (hierarchy : Hierarchy) (budget : Option Nat) :
    m.prepareFrom hierarchy (m.trackLocks budget) = m.prepare hierarchy budget := by
  rw [prepare]
  cases m.trackLocks budget <;> rfl

/-- The facts of a method, with the notes that finding them gives rise to. -/
def prepare? (m : Method) (hierarchy : Hierarchy) (budget : Option Nat) :
    Option (MethodFacts × List Note) :=
  (m.trackLocks? budget).map (m.prepareFrom hierarchy)

/-- The note on a method that does not pass the checks; none for one that does. -/
def faultNote? (methods : List Method) (m : Method) : Option (Option Note) :=
  match m.fault? (methods.map (·.id)) with
  | none => some none
  | some fault => (nameOf? methods m.id).map fun name => some (Note.ofIncomplete m.id name fault)

end Method

/-! ## Sessions -/

/-- What is known about a program before methods are summarized, with the call graph in tables. -/
structure TableSession where
  config : Config
  hierarchy : Hierarchy
  /-- The capabilities of the classes. -/
  capabilities : List (String × Capabilities)
  /-- The methods with distinct numbers, also those that fail the checks. -/
  methods : List Method
  facts : FactTable
  graph : CallTables
  notes : List Note

namespace TableSession

/-- The session of a program. -/
def of? (program : Program) (config : Config) : Option TableSession := do
  let intake := Intake.of program.methods
  let faultNotes ← intake.unique.mapM (Method.faultNote? intake.unique)
  let hierarchy := Hierarchy.of program.classes intake.unique
  let capabilities ← hierarchy.capabilityTable?
  let prepared ← program.accepted.mapM fun m =>
    m.prepare? hierarchy (config.perMethodBudget.map UInt64.toNat)
  let facts : FactTable := .ofList (prepared.map fun (facts, _) => (facts.method, facts))
  let graph ← CallTables.of? facts
  let repeatedNotes := intake.repeated.map fun m =>
    Note.ofIncomplete m.id m.qualifiedName (.duplicateId m.id)
  return {
    config, hierarchy, capabilities, facts, graph
    methods := intake.unique
    notes := repeatedNotes ++ faultNotes.filterMap id ++ prepared.flatMap (·.2) }

variable (s : TableSession)

/-- The call graph as text for drawing. -/
def drawCallGraph? : Option String :=
  s.graph.draw? fun m => (nameOf? s.methods m).getD m.render

/-- The builder of the summaries. -/
def builder : TableBuilder := ⟨s.facts, s.graph, s.config.maxFixpointRounds.map UInt64.toNat⟩

/-- The notes for the methods of a component, if it failed. -/
def componentNotes? (store : Store) (component : Nat) : Option (List Note) := do
  match ← store.get? component with
  | .ok _ => return []
  | .error fault => fault.methods.mapM fun m =>
      (nameOf? s.methods m).map fun name => Note.ofIncomplete m name fault

/-- The notes for methods of components that failed, in component order. -/
def incompleteNotes? (store : Store) : Option (List Note) :=
  let components := List.range s.graph.condensation.components.size
  (components.mapM (s.componentNotes? store)).map List.flatten

/-- The accesses to pair up; a summary that is not found is taken to be missing. -/
def collection (store : Store) : Collection where
  hierarchy := s.hierarchy
  summaryOf m := (s.builder.finished? store m).join
  strict := s.config.strictThreadContext

/-- Summarize every method and collect the races of every class. -/
def run? : Option Report := do
  let store ← s.builder.buildAll? {}
  let notes ← s.incompleteNotes? store
  let candidates ← (s.collection store).candidates? (s.builder.finished? store)
  return {
    findings := (s.collection store).report candidates s.config.minConfidence
    notes := Note.sort (s.notes ++ notes) }

/-- `s.Describes t`: the tables say the same as a session. -/
structure Describes (s : TableSession) (t : Session) : Prop where
  config_eq : s.config = t.config
  hierarchy_eq : s.hierarchy = t.hierarchy
  capabilities_eq : s.capabilities
    = t.hierarchy.classNames.map fun name => (name, t.hierarchy.capabilities name)
  methods_eq : s.methods = t.methods
  facts_eq : s.facts = t.facts
  graph : s.graph.Describes t.graph
  notes_eq : s.notes = t.notes

end TableSession

/-- Every body is made from blocks with operations and successors; the predecessors are derived. -/
def Program.Assembled (program : Program) : Prop :=
  ∀ m ∈ program.methods, ∃ blocks, m.body = .ofBlocks blocks

/-- Programs that are read from a text are assembled. -/
theorem Program.assembled_of_parse? {text : String} {program : Program}
    (h : parse? text = some program) : program.Assembled := by
  intro m hm
  obtain ⟨q, v, hbody⟩ := exists_body_of_parse? h hm
  obtain ⟨blocks, hblocks, -⟩ := FlowGraph.exists_blocks_of_decoder hbody
  exact ⟨blocks, hblocks⟩

/-- A method that is taken in has a name. -/
theorem nameOf?_of_mem {program : Program} {m : Method}
    (hm : m ∈ (Intake.of program.methods).unique) :
    nameOf? (Intake.of program.methods).unique m.id = some m.qualifiedName := by
  have hfind : (Intake.of program.methods).unique.find? (·.id = m.id) = some m :=
    (find?_eq_some_iff_mem Method.id (Intake.nodup_unique program.methods)).2 ⟨hm, rfl⟩
  rw [nameOf?, hfind, Option.map_some]

namespace TableSession

variable {program : Program} {config : Config}

/-- No look-up fails when lock tracking meets the methods that passed the checks. -/
theorem prepare?_eq_some (h : program.Assembled) {m : Method} (hm : m ∈ program.accepted)
    (hierarchy : Hierarchy) (budget : Option Nat) :
    m.prepare? hierarchy budget = some (m.prepare hierarchy budget) := by
  obtain ⟨hunique, hnone⟩ := List.mem_filter.1 hm
  obtain ⟨blocks, hblocks⟩ := h m (Intake.mem_of_mem_unique hunique)
  obtain ⟨h0, hg⟩ := Method.wellFormed_of_fault? (Option.isNone_iff_eq_none.1 hnone)
  have hm : m.body.Mirrored := hblocks ▸ FlowGraph.mirrored_ofBlocks blocks
  rw [Method.prepare?, Method.trackLocks?_eq_some h0 hg hm, Option.map_some,
    Method.prepareFrom_trackLocks]

/-- **Session**: no look-up fails when that of an assembled program is set up. -/
theorem exists_of? (h : program.Assembled) (config : Config) :
    ∃ s, of? program config = some s ∧ s.Describes (.of program config) := by
  -- the notes on methods that fail the checks: each of these methods has a name
  have hfaults : (Intake.of program.methods).unique.mapM
      (Method.faultNote? (Intake.of program.methods).unique)
      = some ((Intake.of program.methods).unique.map fun m =>
        (m.fault? ((Intake.of program.methods).unique.map (·.id))).map
          (Note.ofIncomplete m.id m.qualifiedName)) := by
    refine mapM_eq_some fun m hm => ?_
    rw [Method.faultNote?, nameOf?_of_mem hm]
    cases m.fault? ((Intake.of program.methods).unique.map (·.id)) <;> rfl
  -- only methods that passed the checks are tracked
  have hprepared : ∀ hierarchy budget, program.accepted.mapM (·.prepare? hierarchy budget)
      = some (program.accepted.map (·.prepare hierarchy budget)) :=
    fun _ _ => mapM_eq_some fun m hm => prepare?_eq_some h hm _ _
  obtain ⟨graph, hgraph, hdescribes⟩ := CallTables.exists_of? (Session.keyed_facts program config)
  refine ⟨⟨config, (Session.of program config).hierarchy,
    (Session.of program config).hierarchy.classNames.map fun name =>
      (name, (Session.of program config).hierarchy.capabilities name),
    (Session.of program config).methods, (Session.of program config).facts, graph,
    (Session.of program config).notes⟩, ?_, rfl, rfl, rfl, rfl, rfl, hdescribes, rfl⟩
  simp only [of?, hfaults, Hierarchy.capabilityTable?_eq_some, hprepared, Option.bind_eq_bind,
    Option.bind_some, List.filterMap_map]
  show (CallTables.of? (Session.of program config).facts).bind _ = _
  rw [hgraph]
  rfl

section Described

variable {s : TableSession} (hs : s.Describes (.of program config))

include hs

/-- The builder with tables describes that of the session. -/
theorem Describes.builder : s.builder.Describes (Session.of program config).builder where
  facts_eq := hs.facts_eq
  graph_eq := rfl
  graph := hs.graph
  maxRounds_eq := by
    rw [TableSession.builder, hs.config_eq]
    rfl
  keyed := Session.keyed_facts program config

/-- No look-up fails when the call graph is drawn. -/
theorem Describes.drawCallGraph? :
    s.drawCallGraph? = some (Session.of program config).drawCallGraph := by
  have hname : (fun m => (nameOf? s.methods m).getD m.render)
      = (Session.of program config).nameOf := by
    rw [hs.methods_eq]
    rfl
  rw [TableSession.drawCallGraph?, hname]
  exact hs.graph.draw? (Session.keyed_facts program config) _

/-- The methods of a component that failed have names. -/
theorem Describes.componentNotes? {c : Nat} (hc : c < (Session.of program config).graph.size) :
    s.componentNotes? (Session.of program config).store c
      = some ((Session.of program config).componentNotes (Session.of program config).store c) := by
  rw [TableSession.componentNotes?, Session.componentNotes]
  cases hget : (Session.of program config).store.get? c with
  | none =>
    rw [Session.get?_store program config hc] at hget
    cases hget
  | some outcome =>
    cases outcome with
    | ok summaries => rfl
    | error fault =>
      -- the fault names the members of the component, and these are accepted methods
      obtain ⟨rounds, rfl⟩ := Session.fault_of_component program config hc hget
      refine mapM_eq_some fun m hm => ?_
      have hcomponent := (Session.mem_members program config).1 hm
      obtain ⟨method, hmethod, rfl⟩ := List.mem_map.1 <|
        (Session.exists_componentOf?_iff program config).1 ⟨c, hcomponent⟩
      rw [hs.methods_eq, Session.nameOf_of_accepted program config hmethod]
      show (nameOf? (Intake.of program.methods).unique method.id).map _ = _
      rw [nameOf?_of_mem (List.mem_filter.1 hmethod).1, Option.map_some]

/-- The notes on components that failed are found, component by component. -/
theorem Describes.incompleteNotes? : s.incompleteNotes? (Session.of program config).store
    = some ((Session.of program config).incompleteNotes (Session.of program config).store) := by
  have hsize : s.graph.condensation.components.size = (Session.of program config).graph.size :=
    hs.builder.size_components
  rw [TableSession.incompleteNotes?, hsize,
    mapM_eq_some fun c hc => hs.componentNotes? (List.mem_range.1 hc), Option.map_some,
    ← List.flatMap_def, Session.incompleteNotes_eq]

/-- The accesses to pair up are the same. -/
theorem Describes.collection : s.collection (Session.of program config).store
    = (Session.of program config).collection (Session.of program config).store := by
  have hsummaries : (fun m => (s.builder.finished? (Session.of program config).store m).join)
      = (Session.of program config).builder.finished? (Session.of program config).store := by
    funext m
    rw [Session.store, hs.builder.finished?]
    rfl
  rw [TableSession.collection, Session.collection, hsummaries, hs.hierarchy_eq, hs.config_eq]

/-- **Run**: no look-up fails when methods are summarized and races collected. -/
theorem Describes.run? : s.run? = some (Session.of program config).run := by
  have hstore : s.builder.buildAll? {} = some (Session.of program config).store :=
    hs.builder.buildAll?
  -- once all components are built, every summary that races ask for is there
  have hlook : ∀ m, s.builder.finished? (Session.of program config).store m
      = some ((Session.of program config).builder.finished? (Session.of program config).store m) :=
    fun m => hs.builder.finished? m
  simp only [TableSession.run?, hstore, hs.incompleteNotes?, hs.collection,
    Collection.candidates?_eq_some (c := (Session.of program config).collection _) hlook,
    Option.bind_eq_bind, Option.bind_some, Collection.report_candidates, hs.config_eq, hs.notes_eq]
  rfl

end Described

end TableSession

/-- **All look-ups succeed**: in every program read from a text, and in every other one whose
predecessor lists are derived from its edges, setting up the session, drawing the call graph and
running the analysis give what they give without guards, under all limits. It is the checks of
methods that see to it: lock tracking by itself fails on a body whose entry has a last edge that
leads nowhere. -/
theorem lookups_succeed :
    (∀ text program, Program.parse? text = some program → program.Assembled) ∧
    (∀ program : Program, program.Assembled → ∀ config : Config,
      ∃ s, TableSession.of? program config = some s ∧ s.Describes (.of program config) ∧
        s.drawCallGraph? = some (Session.of program config).drawCallGraph ∧
        s.run? = some (Session.of program config).run) ∧
    ∀ (m : Method) (target : Nat), 0 < m.body.size → (m.body.successors 0).getLast? = some target →
      m.body.size ≤ target → ∀ budget, m.trackLocks? budget = none := by
  refine ⟨fun text program h => Program.assembled_of_parse? h, fun program h config => ?_,
    fun m target h0 hlast hmissing => Method.trackLocks?_eq_none h0 hlast hmissing⟩
  obtain ⟨s, hof, hs⟩ := TableSession.exists_of? h config
  exact ⟨s, hof, hs, hs.drawCallGraph?, hs.run?⟩

/-- A method that jumps to a block that does not exist. -/
def Method.stray : Method where
  id := ⟨8⟩
  name := "jump"
  declaringClass := "Queue"
  body := .ofBlocks [([⟨6, .release .receiver⟩], [0, 9])]

/-- Classes that are each other's ancestors and name one that does not exist, two methods that loop
and call each other, one of them under locks, and five records that are left out: one jumps to a
block that does not exist, one has no blocks, one calls a method that does not exist, two repeat a
number. -/
def Program.ragged : Program where
  classes := [
    { name := "Queue"
      superclasses := ["Buffer", "Missing"]
      annotations := { threadSafe := true } },
    { name := "Buffer", superclasses := ["Queue"] }]
  methods := [
    { id := ⟨4⟩
      name := "push"
      declaringClass := "Queue"
      annotations := { synchronized := true }
      body := .ofBlocks [([⟨1, .acquire (.field (.thisField "Queue" "lock"))⟩], [1, 1, 2]),
        ([⟨2, .write (.thisField "Queue" "items")⟩, ⟨3, .call ⟨7⟩ []⟩], [0]), ([], [])] },
    { id := ⟨7⟩
      name := "pop"
      declaringClass := "Buffer"
      body := .ofBlocks [([⟨4, .call ⟨4⟩ []⟩, ⟨5, .call ⟨8⟩ []⟩], [0])] },
    .stray,
    { id := ⟨0⟩, name := "clear", declaringClass := "Queue", body := .ofBlocks [] },
    { id := ⟨2⟩
      name := "peek"
      declaringClass := "Stack"
      body := .ofBlocks [([⟨7, .call ⟨5⟩ []⟩], [])] },
    { id := ⟨7⟩, name := "pop", declaringClass := "Buffer", body := .ofBlocks [([], [3])] },
    { id := ⟨4⟩, name := "push", declaringClass := "Queue", body := .ofBlocks [] }]

theorem Program.assembled_ragged : ragged.Assembled := by
  intro m hm
  simp only [ragged, List.mem_cons, List.not_mem_nil, or_false] at hm
  rcases hm with rfl | rfl | rfl | rfl | rfl | rfl | rfl <;> exact ⟨_, rfl⟩

/-- The text of a program with a method that jumps to itself and to a block that does not exist. -/
def Program.strayText : String :=
  "\x7b\"methods\": [\x7b\"id\": 1, \"name\": \"jump\", \"declaringClass\": \"Queue\","
    ++ "\"cfg\": \x7b\"blocks\": [\x7b\"successors\": [7, 0, 0]\x7d]\x7d\x7d]\x7d"

/-- Limits that the methods that are left exceed. -/
def Config.tight : Config where
  perMethodBudget := some 2
  maxFixpointRounds := some 0

theorem lookups_succeed_ragged :
    (∃ program, Program.parse? Program.strayText = some program ∧ program.Assembled) ∧
    (Program.ragged.Assembled ∧ Program.ragged.accepted.map (·.id.val) = [4, 7] ∧
      ∃ s, TableSession.of? .ragged .tight = some s ∧
        s.drawCallGraph? = some (Session.of .ragged .tight).drawCallGraph ∧
        s.run? = some (Session.of .ragged .tight).run) ∧
    0 < Method.stray.body.size ∧ (Method.stray.body.successors 0).getLast? = some 9 ∧
      Method.stray.body.size ≤ 9 ∧ Method.stray.trackLocks? none = none := by
  obtain ⟨hparsed, hassembled, hstray⟩ := lookups_succeed
  refine ⟨?_, ⟨Program.assembled_ragged, by decide +kernel, ?_⟩, by decide, by decide, by decide,
    hstray .stray 9 (by decide) (by decide) (by decide) none⟩
  · have hsome : (Program.parse? Program.strayText).isSome = true := by decide +kernel
    obtain ⟨program, h⟩ := Option.isSome_iff_exists.1 hsome
    exact ⟨program, h, hparsed _ program h⟩
  · obtain ⟨s, hof, -, hdraw, hrun⟩ := hassembled .ragged Program.assembled_ragged .tight
    exact ⟨s, hof, hdraw, hrun⟩

end Interlock
