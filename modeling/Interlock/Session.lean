import Interlock.Config
import Interlock.Note
import Interlock.Race.Collection
import Interlock.Summary.Store

/-!
# Analysis of a program

A session holds what is known about each method of a program by itself and the calls
between them. Running it summarizes all methods and collects the races of every
class.

Methods are taken on one by one: a record whose number is taken, and one that does
not pass the checks of `Method.fault?`, is left out with a note. Other methods are
analysed as if it had no summary.

- `Method.fault?`: the checks.
- `Session.of`: facts, call graph and notes of a program.
- `Session.run`: the report.
- `analyze`: both.
-/

namespace Interlock

/-- What an analysis reports. -/
structure Report where
  findings : List Finding
  notes : List Note
  deriving DecidableEq

/-! ## Checks -/

namespace Method

/-- The first fault of block `b`: a missing successor, else a call of a method that is not known. -/
def blockFault? (m : Method) (known : List MethodId) (b : Nat) : Option Fault :=
  match (m.body.successors b).find? (m.body.size ≤ ·) with
  | some target => some (.missingBlock m.id b target)
  | none =>
    (m.body.operations b).findSome? fun op =>
      match op.action with
      | .call callee _ => if callee ∈ known then none else some (.unknownCallee m.id callee op.line)
      | _ => none

/-- The first fault of the method, if it has one. -/
def fault? (m : Method) (known : List MethodId) : Option Fault :=
  if m.body.size = 0 then some (.emptyBody m.id)
  else (List.range m.body.size).findSome? (m.blockFault? known)

end Method

/-! ## Sessions -/

/-- Records split by whether their number is new. -/
structure Intake where
  /-- The first record of each number, in order. -/
  unique : List Method := []
  /-- The others, in order. -/
  repeated : List Method := []

/-- Take in one more record. -/
def Intake.add (intake : Intake) (m : Method) : Intake :=
  if m.id ∈ intake.unique.map (·.id) then { intake with repeated := intake.repeated ++ [m] }
  else { intake with unique := intake.unique ++ [m] }

/-- The records of a program. -/
def Intake.of (methods : List Method) : Intake := methods.foldl Intake.add {}

/-- What is known about a program before methods are summarized. -/
structure Session where
  config : Config
  hierarchy : Hierarchy
  /-- The methods with distinct numbers, also those that fail the checks. -/
  methods : List Method
  facts : FactTable
  graph : CallGraph
  notes : List Note

/-- The facts of a method, with the notes that finding them gives rise to. -/
def Method.prepare (m : Method) (hierarchy : Hierarchy) (budget : Option Nat) :
    MethodFacts × List Note :=
  let thread := hierarchy.classify m
  let skipped := m.extract.skipped.map (Note.ofSkipped m.qualifiedName)
  match m.trackLocks budget with
  | .ok tagged => (⟨m.id, thread, tagged, false⟩, skipped)
  | .error e =>
    (⟨m.id, thread, m.assumeNoLocks, true⟩,
      skipped ++ [Note.ofBudget m.qualifiedName (.budgetExceeded m.id e.limit)])

namespace Session

/-- The session of a program. -/
def of (program : Program) (config : Config) : Session :=
  let intake := Intake.of program.methods
  let known := intake.unique.map (·.id)
  let hierarchy := Hierarchy.of program.classes intake.unique
  let accepted := intake.unique.filter fun m => (m.fault? known).isNone
  let prepared := accepted.map fun m =>
    m.prepare hierarchy (config.perMethodBudget.map UInt64.toNat)
  let facts : FactTable := .ofList (prepared.map fun (facts, _) => (facts.method, facts))
  let repeatedNotes := intake.repeated.map fun m =>
    Note.ofIncomplete m.id m.qualifiedName (.duplicateId m.id)
  let faultNotes := intake.unique.filterMap fun m =>
    (m.fault? known).map (Note.ofIncomplete m.id m.qualifiedName)
  { config, hierarchy
    methods := intake.unique
    facts
    graph := .of facts
    notes := repeatedNotes ++ faultNotes ++ prepared.flatMap (·.2) }

/-- The name of a method. -/
def nameOf (s : Session) (m : MethodId) : String :=
  ((s.methods.find? (·.id = m)).map Method.qualifiedName).getD m.render

/-- The call graph as text for drawing. -/
def drawCallGraph (s : Session) : String := s.graph.draw s.nameOf

/-- The builder of the summaries. -/
def builder (s : Session) : Builder :=
  ⟨s.facts, s.graph, s.config.maxFixpointRounds.map UInt64.toNat⟩

/-- All components, finished. -/
def store (s : Session) : Store := s.builder.buildAll {}

/-- The notes for methods of components that failed, in component order. -/
def incompleteNotes (s : Session) (store : Store) : List Note :=
  (List.range s.graph.size).flatMap fun c =>
    match store.get? c with
    | some (.error fault) =>
      fault.methods.map fun m => Note.ofIncomplete m (s.nameOf m) fault
    | _ => []

/-- The accesses to pair up, given the finished components. -/
def collection (s : Session) (store : Store) : Collection :=
  ⟨s.hierarchy, s.builder.finished? store, s.config.strictThreadContext⟩

/-- Summarize every method and collect the races of every class. -/
def run (s : Session) : Report :=
  let store := s.store
  { findings := (s.collection store).findings s.config.minConfidence
    notes := Note.sort (s.notes ++ s.incompleteNotes store) }

end Session

/-- The report on a program. -/
def analyze (program : Program) (config : Config) : Report := (Session.of program config).run

end Interlock
