import Interlock.Proofs.Executions
import Interlock.Proofs.Interfaces
import Interlock.Proofs.Relabeling

/-!
# Programs with other operations

The operations of all methods are replaced by others that do the same to locks and call
the same methods. Then the same methods pass the checks, lock tracking takes the same
steps, and the facts of a session are the old ones with other accesses and calls in them.

- `Rewriting`: what becomes of methods and operations, and of accesses and calls.
- `Rewriting.trackLocks`, `Rewriting.isNone_fault?`, `Rewriting.prepare`: a method.
- `Rewriting.accepted`, `Rewriting.alike`: the methods and classes of a program.
- `Rewriting.facts_of`, `Rewriting.graph_of`: the facts and the call graph of a session.
-/

namespace Interlock

/-- The item with another access or another call. -/
def Item.map (onAccess : Access → Access) (onCall : CallSite → CallSite) : Item → Item
  | access a => .access (onAccess a)
  | call c => .call (onCall c)

/-- What becomes of methods and their operations, and of the accesses and calls that operations
perform. -/
structure Rewriting where
  method : Method → Method
  operation : Operation → Operation
  access : Access → Access
  call : CallSite → CallSite
  relabels : ∀ m : Method, m.Relabels operation (method m)
  interface : ∀ m : Method, (method m).interface = m.interface
  callee? : ∀ op, (operation op).action.callee? = op.action.callee?
  callLocks : ∀ op, (operation op).action.callLocks = op.action.callLocks
  itemAt? : ∀ (m : Method) pos op, (method m).itemAt? pos (operation op)
    = (m.itemAt? pos op).map (Item.map access call)
  callee_call : ∀ c, (call c).callee = c.callee

/-- All accesses and calls, from what operations perform. -/
theorem Method.assumeNoLocks_eq (m : Method) : m.assumeNoLocks
    = { accesses := m.body.positions.filterMap fun x =>
          ((m.itemAt? x.1 x.2).bind Item.access?).map (⟨·, ∅⟩)
        calls := m.body.positions.filterMap fun x =>
          ((m.itemAt? x.1 x.2).bind Item.call?).map (⟨·, ∅⟩) } := by
  rw [assumeNoLocks, extract]
  simp only [List.filterMap_filterMap, Tagged.mk.injEq, and_true]
  constructor
  · refine List.filterMap_congr fun x _ => ?_
    rcases m.itemAt? x.1 x.2 with _ | a | c <;> rfl
  · refine List.filterMap_congr fun x _ => ?_
    rcases m.itemAt? x.1 x.2 with _ | a | c <;> rfl

/-- Whether something is found in a list is told by whether it is found at the elements. -/
theorem isNone_findSome?_congr {α β γ : Type} {f : α → Option β} {g : α → Option γ} {l : List α}
    (h : ∀ a ∈ l, (f a).isNone = (g a).isNone) :
    (l.findSome? f).isNone = (l.findSome? g).isNone := by
  rw [Bool.eq_iff_iff, Option.isNone_iff_eq_none, Option.isNone_iff_eq_none,
    List.findSome?_eq_none_iff, List.findSome?_eq_none_iff]
  refine forall₂_congr fun a ha => ?_
  rw [← Option.isNone_iff_eq_none, ← Option.isNone_iff_eq_none, h a ha]

namespace Rewriting

variable (r : Rewriting) (m : Method)

/-! ## Methods -/

/-- The accesses and calls with their locks. -/
def tagged (t : Tagged) : Tagged :=
  { t with
    accesses := t.accesses.map fun a => { a with access := r.access a.access }
    calls := t.calls.map fun c => { c with call := r.call c.call } }

/-- The facts of a method. -/
def facts (f : MethodFacts) : MethodFacts := { f with tagged := r.tagged f.tagged }

theorem id_method : (r.method m).id = m.id := (congrArg Method.id (r.interface m) :)

theorem access? (pos : OpPos) (op : Operation) :
    ((r.method m).itemAt? pos (r.operation op)).bind Item.access?
      = ((m.itemAt? pos op).bind Item.access?).map r.access := by
  rw [r.itemAt?]
  rcases m.itemAt? pos op with _ | a | c <;> rfl

theorem call? (pos : OpPos) (op : Operation) :
    ((r.method m).itemAt? pos (r.operation op)).bind Item.call?
      = ((m.itemAt? pos op).bind Item.call?).map r.call := by
  rw [r.itemAt?]
  rcases m.itemAt? pos op with _ | a | c <;> rfl

/-- Tagging the new operations is tagging the old ones and replacing what they perform. -/
theorem tag (steps : Nat) (held : List (OpPos × Operation × LockSet)) :
    (r.method m).tag steps (held.map fun y => (y.1, r.operation y.2.1, y.2.2))
      = r.tagged (m.tag steps held) := by
  have haccesses : ((r.method m).tag steps
        (held.map fun y => (y.1, r.operation y.2.1, y.2.2))).accesses
      = (m.tag steps held).accesses.map fun a => { a with access := r.access a.access } := by
    rw [Method.tag_accesses, Method.tag_accesses, List.filterMap_map, List.map_filterMap]
    refine List.filterMap_congr fun x _ => ?_
    simp only [Function.comp_apply, r.access?, Option.map_map]
    rfl
  have hcalls : ((r.method m).tag steps
        (held.map fun y => (y.1, r.operation y.2.1, y.2.2))).calls
      = (m.tag steps held).calls.map fun c => { c with call := r.call c.call } := by
    rw [Method.tag_calls, Method.tag_calls, List.filterMap_map, List.map_filterMap]
    refine List.filterMap_congr fun x _ => ?_
    simp only [Function.comp_apply, r.call?, r.callLocks, Option.map_map]
    rfl
  rw [tagged, ← haccesses, ← hcalls]
  rfl

/-- Lock tracking takes the same steps, and finds the same locks or gives up. -/
theorem trackLocks (budget : Option Nat) :
    (r.method m).trackLocks budget = (m.trackLocks budget).map r.tagged := by
  rw [(r.relabels m).trackLocks, Method.trackLocks_eq_heldOver]
  cases m.heldOver m.lockUniverse budget with
  | error e => rfl
  | ok x => exact congrArg Except.ok (r.tag m x.1 x.2)

/-- So is taking all accesses and calls without locks. -/
theorem assumeNoLocks : (r.method m).assumeNoLocks = r.tagged m.assumeNoLocks := by
  simp only [Method.assumeNoLocks_eq, tagged, (r.relabels m).body, FlowGraph.positions_map,
    List.filterMap_map, List.map_filterMap, Function.comp_def, r.access?, r.call?, Option.map_map]

/-- A block is at fault exactly if it was. -/
theorem isNone_blockFault? (known : List MethodId) (b : Nat) :
    ((r.method m).blockFault? known b).isNone = (m.blockFault? known b).isNone := by
  rw [Method.blockFault?_eq, Method.blockFault?_eq, (r.relabels m).body, FlowGraph.successors_map,
    FlowGraph.size_map, FlowGraph.operations_map]
  -- edges stay, and a call is at fault for what it calls; only the fault tells its line
  cases (m.body.successors b).find? (m.body.size ≤ ·) with
  | some target => rfl
  | none =>
    dsimp only
    rw [List.findSome?_map]
    refine isNone_findSome?_congr fun op _ => ?_
    rw [Function.comp_apply, r.callee?]
    cases op.action.callee? with
    | none => rfl
    | some callee =>
      dsimp only [Option.bind_some]
      split <;> rfl

/-- The same methods pass the checks. -/
theorem isNone_fault? (known : List MethodId) :
    ((r.method m).fault? known).isNone = (m.fault? known).isNone := by
  rw [Method.fault?, Method.fault?, (r.relabels m).body, FlowGraph.size_map]
  split
  · rfl
  · exact isNone_findSome?_congr fun b _ => r.isNone_blockFault? m known b

/-- The facts of a method are the old ones with other accesses and calls. -/
theorem prepare {h h' : Hierarchy} (hs : h'.Alike h) (budget : Option Nat) :
    ((r.method m).prepare h' budget).1 = r.facts (m.prepare h budget).1 := by
  have hthread : h'.classify (r.method m) = h.classify m := hs.classify (r.interface m)
  rw [Method.prepare, Method.prepare, hthread, r.trackLocks, r.assumeNoLocks, r.id_method]
  cases m.trackLocks budget <;> rfl

end Rewriting

/-! ## Programs -/

/-- The program with all methods replaced. -/
def Program.rewrite (r : Rewriting) (program : Program) : Program :=
  { program with methods := program.methods.map r.method }

/-- Records are taken in by their numbers. -/
theorem Intake.unique_map (change : Method → Method) (hid : ∀ m, (change m).id = m.id)
    (methods : List Method) :
    (Intake.of (methods.map change)).unique = (Intake.of methods).unique.map change := by
  suffices hfold : ∀ (methods : List Method) (intake intake' : Intake),
      intake'.unique = intake.unique.map change →
      ((methods.map change).foldl Intake.add intake').unique
        = (methods.foldl Intake.add intake).unique.map change by
    exact hfold methods {} {} rfl
  intro methods
  induction methods with
  | nil => exact fun _ _ h => h
  | cons m methods ih =>
    intro intake intake' h
    refine ih (intake.add m) (intake'.add (change m)) ?_
    have hids : intake'.unique.map (·.id) = intake.unique.map (·.id) := by
      rw [h, List.map_map]
      exact List.map_congr_left fun m _ => hid m
    rw [add, add, hids, hid]
    split
    · exact h
    · rw [h, List.map_append]
      rfl

namespace Rewriting

variable (r : Rewriting) (program : Program)

/-- The same records are taken in. -/
theorem unique : (Intake.of (program.rewrite r).methods).unique
    = (Intake.of program.methods).unique.map r.method :=
  Intake.unique_map r.method r.id_method program.methods

/-- **Accepted methods**: they are the same ones, rewritten. -/
theorem accepted : (program.rewrite r).accepted = program.accepted.map r.method := by
  -- the checks know methods by their numbers
  have hids : (Intake.of (program.rewrite r).methods).unique.map (·.id)
      = (Intake.of program.methods).unique.map (·.id) := by
    rw [r.unique, List.map_map]
    exact List.map_congr_left fun m _ => r.id_method m
  rw [Program.accepted, Program.accepted, hids, r.unique, List.filter_map]
  congr 1
  exact List.filter_congr fun m _ => r.isNone_fault? m _

/-- Classes see no difference. -/
theorem alike : (program.rewrite r).hierarchy.Alike program.hierarchy := by
  refine Hierarchy.alike_of program.classes ?_
  rw [r.unique, List.map_map]
  exact List.map_congr_left fun m _ => r.interface m

/-- **Facts after rewriting**: the facts of a session are the old ones with other accesses and calls
in them. -/
theorem facts_of (config : Config) : (Session.of (program.rewrite r) config).facts
    = (Session.of program config).facts.mapValues r.facts := by
  -- as lists, facts can be compared one method at a time
  have hfacts : ∀ program : Program, (Session.of program config).facts
      = .ofList ((program.accepted.map fun m =>
          m.prepare program.hierarchy (config.perMethodBudget.map UInt64.toNat)).map
          fun p => (p.1.method, p.1)) := fun _ => rfl
  rw [hfacts, hfacts, SortedMap.mapValues_ofList, r.accepted, List.map_map, List.map_map,
    List.map_map, List.map_map]
  congr 1
  refine List.map_congr_left fun m _ => ?_
  simp only [Function.comp_apply, r.prepare m (r.alike program)]
  rfl

/-- Calls are of the same methods. -/
theorem graph_of (facts : FactTable) :
    CallGraph.of (facts.mapValues r.facts) = .of facts := by
  have hcallees : ∀ f : MethodFacts, (r.facts f).callees = f.callees := by
    intro f
    rw [MethodFacts.callees, MethodFacts.callees, Rewriting.facts, tagged, List.map_map]
    exact List.map_congr_left fun c _ => r.callee_call c.call
  rw [CallGraph.of, CallGraph.of, SortedMap.keys_mapValues, CallGraph.callEdges,
    CallGraph.callEdges, SortedMap.values_mapValues, List.flatMap_map]
  simp only [hcallees]
  rfl

end Rewriting

end Interlock
