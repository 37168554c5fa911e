import Interlock.Proofs.Notes
import Interlock.Proofs.Rewriting

/-!
# Programs without line numbers

The lines of operations are taken out of a program, and what a session knows about each
method is then the same without lines. A place of a method has one line, so no two
locations of a method become the same.

- `Program.unlined`: the program with all lines set to zero.
- `Rewriting.unlined`: what becomes of methods, operations, accesses and calls.
- `MethodFacts.Lined`: lines are told by places, and `Method.Tags.lined`.
- `Session.builder_unlined`: what the summaries are built from.
- `analyze_budgetNotes_unlined`: the methods that lock tracking gives up on.
-/

namespace Interlock

/-! ## Taking lines out -/

/-- The operation without its line. -/
def Operation.unlined (op : Operation) : Operation := { op with line := 0 }

/-- The method without lines. -/
def Method.unlined (m : Method) : Method := { m with body := m.body.map Operation.unlined }

/-- The program without lines. -/
def Program.unlined (program : Program) : Program :=
  { program with methods := program.methods.map Method.unlined }

/-- The location without its line. -/
def Location.unlined (loc : Location) : Location := { loc with line := 0 }

/-- The access without its line. -/
def Access.unlined (a : Access) : Access := { a with location := a.location.unlined }

/-- The call without its line. -/
def CallSite.unlined (c : CallSite) : CallSite := { c with location := c.location.unlined }

/-- The access with its locks, without its line. -/
def TaggedAccess.unlined (a : TaggedAccess) : TaggedAccess := { a with access := a.access.unlined }

/-- The call with its locks, without its line. -/
def TaggedCall.unlined (c : TaggedCall) : TaggedCall := { c with call := c.call.unlined }

/-- The accesses and calls without their lines. -/
def Tagged.unlined (t : Tagged) : Tagged :=
  { t with
    accesses := t.accesses.map TaggedAccess.unlined
    calls := t.calls.map TaggedCall.unlined }

/-- The facts without lines. -/
def MethodFacts.unlined (f : MethodFacts) : MethodFacts := { f with tagged := f.tagged.unlined }

/-! ## Methods -/

/-- Taking lines out of operations takes them out of accesses and calls. -/
def Rewriting.unlined : Rewriting where
  method := Method.unlined
  operation := Operation.unlined
  access := Access.unlined
  call := CallSite.unlined
  relabels _ := ⟨rfl, rfl, fun _ => rfl, fun _ => rfl⟩
  interface _ := rfl
  callee? _ := rfl
  callLocks _ := rfl
  itemAt? m pos op := by
    obtain ⟨line, action⟩ := op
    cases action with
    | read target =>
      simp only [Method.itemAt?, Operation.unlined, Action.target?]
      cases target.resolve <;> rfl
    | write target =>
      simp only [Method.itemAt?, Operation.unlined, Action.target?]
      cases target.resolve <;> rfl
    | _ => rfl
  callee_call _ := rfl

/-- Whether lock tracking gives up is not a matter of lines. -/
theorem Method.budgetNote?_unlined (m : Method) (budget : Option Nat) :
    m.unlined.budgetNote? budget = m.budgetNote? budget := by
  have htrack : m.unlined.trackLocks budget = (m.trackLocks budget).map Tagged.unlined :=
    Rewriting.unlined.trackLocks m budget
  rw [budgetNote?, budgetNote?, htrack]
  cases m.trackLocks budget <;> rfl

/-! ## Lines are told by places -/

namespace MethodFacts

variable {f : MethodFacts}

/-- Accesses and calls at one place are on one line. -/
def Lined (f : MethodFacts) : Prop :=
  ∀ {loc loc' via via'}, f.ViaAt loc via → f.ViaAt loc' via' → loc.unlined = loc'.unlined →
    loc = loc'

/-- The places of accesses and calls without lines are those with lines, each without its own. -/
theorem viaAt_unlined {loc : Location} {via : Option MethodId} :
    f.unlined.ViaAt loc via ↔ ∃ loc', loc'.unlined = loc ∧ f.ViaAt loc' via := by
  cases via with
  | none =>
    constructor
    · rintro ⟨_, hmem, rfl⟩
      obtain ⟨a, ha, rfl⟩ := List.mem_map.1 hmem
      exact ⟨a.access.location, rfl, a, ha, rfl⟩
    · rintro ⟨_, rfl, a, ha, rfl⟩
      exact ⟨a.unlined, List.mem_map.2 ⟨a, ha, rfl⟩, rfl⟩
  | some callee =>
    constructor
    · rintro ⟨_, hmem, rfl, rfl⟩
      obtain ⟨c, hc, rfl⟩ := List.mem_map.1 hmem
      exact ⟨c.call.location, rfl, c, hc, rfl, rfl⟩
    · rintro ⟨_, rfl, c, hc, rfl, rfl⟩
      exact ⟨c.unlined, List.mem_map.2 ⟨c, hc, rfl⟩, rfl, rfl⟩

/-- What is done at a place is told by the place also without lines: the place has only one line to
lose. -/
theorem Lined.placed_unlined (hf : f.Lined) (hplaced : f.Placed) : f.unlined.Placed := by
  intro loc via via' hvia hvia'
  obtain ⟨loc₁, hloc₁, hvia₁⟩ := viaAt_unlined.1 hvia
  obtain ⟨loc₂, hloc₂, hvia₂⟩ := viaAt_unlined.1 hvia'
  -- both places come from one with a line, since facts are lined
  obtain rfl := hf hvia₁ hvia₂ (hloc₁.trans hloc₂.symm)
  exact hplaced hvia₁ hvia₂

theorem callees_unlined (f : MethodFacts) : f.unlined.callees = f.callees :=
  List.map_map

end MethodFacts

/-- A location is that of the operation at its place. -/
theorem Method.Tags.exists_operation {m : Method} {f : MethodFacts} (h : m.Tags f.tagged)
    {loc : Location} {via : Option MethodId} (hvia : f.ViaAt loc via) : ∃ op,
      (m.body.operations loc.block)[loc.op]? = some op ∧ loc = m.locationOf loc.pos op := by
  cases via with
  | none =>
    obtain ⟨a, ha, rfl⟩ := hvia
    obtain ⟨op, hop, hitem⟩ := h.access a ha
    exact ⟨op, hop, (itemAt?_access hitem).1⟩
  | some callee =>
    obtain ⟨c, hc, rfl, -⟩ := hvia
    obtain ⟨op, hop, hitem⟩ := h.call c hc
    exact ⟨op, hop, (itemAt?_call hitem).1⟩

/-- What lock tracking tags is lined. -/
theorem Method.Tags.lined {m : Method} {f : MethodFacts} (h : m.Tags f.tagged) : f.Lined := by
  intro loc loc' via via' hvia hvia' heq
  obtain ⟨op, hop, hloc⟩ := h.exists_operation hvia
  obtain ⟨op', hop', hloc'⟩ := h.exists_operation hvia'
  -- the locations agree but for the line, so one operation stands at both, and it has one line
  have hblock : loc.block = loc'.block := (congrArg Location.block heq :)
  have hplace : loc.op = loc'.op := (congrArg Location.op heq :)
  rw [hblock, hplace] at hop
  obtain rfl := Option.some_inj.1 (hop.symm.trans hop')
  rw [hloc, hloc', Location.pos, Location.pos, hblock, hplace]

/-! ## Sessions -/

/-- The builder of summaries without lines. -/
def Builder.unlined (b : Builder) : Builder :=
  { b with facts := b.facts.mapValues MethodFacts.unlined }

/-- Calls are the same without lines. -/
theorem CallGraph.of_unlined (facts : FactTable) :
    of (facts.mapValues MethodFacts.unlined) = of facts :=
  Rewriting.unlined.graph_of facts

/-- The classes see no lines. -/
theorem Program.alike_unlined (program : Program) :
    program.unlined.hierarchy.Alike program.hierarchy :=
  Rewriting.unlined.alike program

namespace Session

variable (program : Program) (config : Config)

theorem facts_unlined : (Session.of program.unlined config).facts
    = (Session.of program config).facts.mapValues MethodFacts.unlined :=
  Rewriting.unlined.facts_of program config

/-- **Builder**: the summaries of the program without lines are built from its facts without lines.
-/
theorem builder_unlined :
    (Session.of program.unlined config).builder = (Session.of program config).builder.unlined := by
  rw [builder_eq, builder_eq, facts_unlined, CallGraph.of_unlined]
  rfl

theorem lined_of_get?_facts {program : Program} {config : Config} {m : MethodId} {f : MethodFacts}
    (hf : (Session.of program config).facts.get? m = some f) : f.Lined := by
  obtain ⟨method, -, -, rfl⟩ := get?_facts.1 hf
  exact (method.tags_prepare _ _).lined

end Session

/-- The notes on methods that lock tracking gives up on are the same without lines. -/
theorem analyze_budgetNotes_unlined (program : Program) (config : Config) :
    ((analyze program.unlined config).notes.filter (·.kind = .budgetExceeded)).Perm
      ((analyze program config).notes.filter (·.kind = .budgetExceeded)) := by
  have haccepted : program.unlined.accepted = program.accepted.map Method.unlined :=
    Rewriting.unlined.accepted program
  refine (analyze_budgetNotes program.unlined config).trans ?_
  rw [haccepted, List.filterMap_map]
  simp only [Function.comp_def, Method.budgetNote?_unlined]
  exact (analyze_budgetNotes program config).symm

end Interlock
