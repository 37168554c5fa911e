import Interlock.Proofs.Coverage
import Interlock.Proofs.Rewriting

/-!
# Paths do not depend on bases

The path of an access is told by the class that declares its first field and by the names
of the fields that it follows, up to the first element. It does not matter which known
object the access starts from. So it does not matter to an analysis either: accesses and
locks alike are told apart by paths.

- `AccessExpr.rootClass?`, `AccessExpr.trail`: what a path is told by.
- `AccessExpr.resolve_eq_path_iff`: the expressions that have a given path.
- `Program.plain`: the program in which all known bases are the same.
- `Rewriting.plain`, `Session.builder_plain`: it has the same facts.
- `paths_forget_bases`: paths, expressions that have one, and findings.
-/

namespace Interlock

/-! ## Paths -/

/-- The class that declares the field; an element has none. -/
def Selector.className? : Selector → Option String
  | field className _ => some className
  | element => none

/-- The name of the field; an element has none. -/
def Selector.label : Selector → Option String
  | field _ name => some name
  | element => none

/-- The name of the field; the element step has none. -/
def Segment.label : Segment → Option String
  | field name => some name
  | element => none

theorem Segment.label_injective : Function.Injective label := by
  intro s s' h
  cases s <;> cases s' <;> simp_all [label]

namespace AccessExpr

/-- The class that declares the field that the expression starts with. -/
def rootClass? (e : AccessExpr) : Option String := e.selectors.head?.bind Selector.className?

/-- The names of the fields that the expression follows, cut right after the first element. -/
def trail (e : AccessExpr) : List (Option String) :=
  (e.selectors.take (e.selectors.idxOf .element + 1)).map Selector.label

end AccessExpr

/-- The segments of a path are named like the fields it follows, up to the first element. -/
theorem Segment.map_label_ofSelectors (selectors : List Selector) :
    (ofSelectors selectors).map label
      = (selectors.take (selectors.idxOf .element + 1)).map Selector.label := by
  induction selectors with
  | nil => rfl
  | cons s selectors ih =>
    cases s with
    | field className name =>
      have hne : Selector.field className name ≠ .element := Selector.noConfusion
      rw [List.idxOf_cons_ne _ hne, List.take_succ_cons, List.map_cons, ← ih]
      rfl
    | element =>
      rw [List.idxOf_cons_self, List.take_succ_cons, List.take_zero]
      rfl

/-- The base, if it does not matter which known one it is. -/
def Base.plain : Base → Base
  | unresolved => .unresolved
  | _ => .receiver

namespace AccessExpr

variable {e : AccessExpr} {p : AccessPath}

/-- The expression with a plain base. -/
def plain (e : AccessExpr) : AccessExpr := { e with base := e.base.plain }

/-- It makes no difference which known object an expression starts from. -/
theorem resolve_plain (e : AccessExpr) : e.plain.resolve = e.resolve := by
  obtain ⟨base, selectors⟩ := e
  cases base <;> rcases selectors with _ | ⟨_ | _, _⟩ <;> rfl

/-- An expression has a path if it starts with a field of a known object. The path then is of the
class that declares this field, and follows the trail of the expression. -/
theorem resolve_eq_path_iff : e.resolve = .path p ↔
    e.base ≠ .unresolved ∧ e.rootClass? = some p.root ∧ p.segments.map Segment.label = e.trail := by
  obtain ⟨base, selectors⟩ := e
  obtain ⟨root, segments⟩ := p
  rw [trail, ← Segment.map_label_ofSelectors,
    (List.map_injective_iff.2 Segment.label_injective).eq_iff]
  by_cases hbase : base = .unresolved
  · subst hbase
    exact iff_of_false (fun h => nomatch h) fun h => h.1 rfl
  · -- any other base is as good as the receiver, and then the first step decides
    have hplain : plain ⟨base, selectors⟩ = ⟨.receiver, selectors⟩ := by
      cases base with
      | unresolved => exact absurd rfl hbase
      | _ => rfl
    rw [← resolve_plain, hplain]
    rcases selectors with _ | ⟨⟨className, name⟩ | _, rest⟩
    · simp [resolve, rootClass?]
    · simp [resolve, rootClass?, Selector.className?, Segment.ofSelectors, hbase, eq_comm]
    · simp [resolve, rootClass?, Selector.className?]

end AccessExpr

/-! ## Programs with plain bases -/

/-- The lock expression with a plain base. -/
def LockExpr.plain : LockExpr → LockExpr
  | field target => .field target.plain
  | lock => lock

/-- Locks are named by paths, so their bases do not matter either. -/
theorem LockExpr.resolve?_plain (lock : LockExpr) : lock.plain.resolve? = lock.resolve? := by
  cases lock with
  | field target => rw [plain, resolve?, resolve?, target.resolve_plain]
  | _ => rfl

namespace Action

/-- The action with plain bases. -/
def plain : Action → Action
  | read target => .read target.plain
  | write target => .write target.plain
  | acquire lock => .acquire lock.plain
  | release lock => .release lock.plain
  | call callee locksHeld => .call callee (locksHeld.map LockExpr.plain)
  | nop => .nop

variable (a : Action)

theorem callee?_plain : a.plain.callee? = a.callee? := by
  cases a <;> rfl

theorem lock?_plain : a.plain.lock? = a.lock? := by
  cases a with
  | acquire lock => exact lock.resolve?_plain
  | release lock => exact lock.resolve?_plain
  | _ => rfl

/-- The same locks are acquired and released. -/
theorem lockEffect_plain : a.plain.lockEffect = a.lockEffect := by
  funext held
  cases a with
  | acquire lock =>
    simp only [plain, lockEffect, lock?, lock.resolve?_plain]
    cases lock.resolve? <;> rfl
  | release lock =>
    simp only [plain, lockEffect, lock?, lock.resolve?_plain]
    cases lock.resolve? <;> rfl
  | _ => rfl

theorem callLocks_plain : a.plain.callLocks = a.callLocks := by
  cases a with
  | call callee locksHeld =>
    rw [plain, callLocks, callLocks, List.filterMap_map]
    exact List.filterMap_congr fun lock _ => lock.resolve?_plain
  | _ => rfl

end Action

/-- The operation with plain bases. -/
def Operation.plain (op : Operation) : Operation := { op with action := op.action.plain }

namespace Method

/-- The method with plain bases. -/
def plain (m : Method) : Method :=
  { m with
    body := m.body.map Operation.plain
    annotations :=
      { m.annotations with guardedBy := m.annotations.guardedBy.map LockExpr.plain } }

/-- Operations with plain bases do the same to locks. -/
theorem relabels_plain (m : Method) : m.Relabels Operation.plain m.plain where
  body := rfl
  entryLocks := by
    -- of the locks held on entry, only the guard has a base
    have hguard : (m.annotations.guardedBy.map LockExpr.plain).bind LockExpr.resolve?
        = m.annotations.guardedBy.bind LockExpr.resolve? := by
      rw [Option.bind_map]
      exact Option.bind_congr fun lock _ => lock.resolve?_plain
    show SortedSet.ofList (_ ++ ((m.annotations.guardedBy.map LockExpr.plain).bind _).toList) = _
    rw [hguard]
    rfl
  lock op := op.action.lock?_plain
  effect op := op.action.lockEffect_plain

/-- They are the same accesses and calls. -/
theorem itemAt?_plain (m : Method) (pos : OpPos) (op : Operation) :
    m.plain.itemAt? pos op.plain = m.itemAt? pos op := by
  obtain ⟨line, action⟩ := op
  cases action with
  | read target =>
    simp only [itemAt?, Operation.plain, Action.plain, Action.target?, target.resolve_plain]
    rfl
  | write target =>
    simp only [itemAt?, Operation.plain, Action.plain, Action.target?, target.resolve_plain]
    rfl
  | _ => rfl

end Method

/-- The program with plain bases. -/
def Program.plain (program : Program) : Program :=
  { program with methods := program.methods.map Method.plain }

/-- Plain bases change neither accesses nor calls. -/
def Rewriting.plain : Rewriting where
  method := Method.plain
  operation := Operation.plain
  access := id
  call := id
  relabels := Method.relabels_plain
  interface _ := rfl
  callee? op := op.action.callee?_plain
  callLocks op := op.action.callLocks_plain
  itemAt? m pos op := by
    rw [m.itemAt?_plain]
    rcases m.itemAt? pos op with _ | a | c <;> rfl
  callee_call _ := rfl

namespace Session

variable (program : Program) (config : Config)

/-- The facts of a program with plain bases are those of the program. -/
theorem facts_plain :
    (Session.of program.plain config).facts = (Session.of program config).facts := by
  -- here accesses and calls are not changed at all, so neither are the facts
  have hsame : ∀ f, Rewriting.plain.facts f = f := fun f => by
    obtain ⟨method, thread, ⟨accesses, calls, steps⟩, degraded⟩ := f
    simp [Rewriting.facts, Rewriting.tagged, Rewriting.plain]
  refine (Rewriting.plain.facts_of program config).trans (SortedMap.ext_get? fun m => ?_)
  rw [SortedMap.get?_mapValues, funext hsame]
  exact Option.map_id'

/-- **Summaries**: so they are the same. -/
theorem builder_plain :
    (Session.of program.plain config).builder = (Session.of program config).builder := by
  rw [builder_eq, builder_eq, facts_plain]

theorem eventsOf_plain :
    (Session.of program.plain config).eventsOf = (Session.of program config).eventsOf := by
  funext m
  rw [eventsOf, eventsOf, store, store, builder_plain]

end Session

/-- The findings are those of the program with plain bases. -/
theorem analyze_findings_plain (program : Program) (config : Config) :
    (analyze program.plain config).findings = (analyze program config).findings :=
  analyze_findings_congr (Rewriting.plain.alike program) (Session.eventsOf_plain program config)

/-- **Paths are told by declared fields, and not by bases**: two expressions that have paths have
the same one exactly if their first fields are declared by the same class and they follow fields of
the same names up to the first element. An expression has a path exactly if it starts with a field
of a known object. And two programs that differ only in which known objects accesses and locks start
from have the same findings. -/
theorem paths_forget_bases :
    (∀ (e e' : AccessExpr) (p p' : AccessPath), e.resolve = .path p → e'.resolve = .path p' →
      (p = p' ↔ e.rootClass? = e'.rootClass? ∧ e.trail = e'.trail)) ∧
    (∀ e : AccessExpr, (∃ p, e.resolve = .path p) ↔
      e.base ≠ .unresolved ∧ ∃ className, e.rootClass? = some className) ∧
    ∀ program program' : Program, program.plain = program'.plain → ∀ config : Config,
      (analyze program config).findings = (analyze program' config).findings := by
  refine ⟨fun e e' p p' h h' => ?_, fun e => ⟨?_, ?_⟩, fun program program' h config => ?_⟩
  · obtain ⟨-, hroot, htrail⟩ := AccessExpr.resolve_eq_path_iff.1 h
    obtain ⟨-, hroot', htrail'⟩ := AccessExpr.resolve_eq_path_iff.1 h'
    rw [hroot, hroot', ← htrail, ← htrail', Option.some_inj,
      (List.map_injective_iff.2 Segment.label_injective).eq_iff]
    obtain ⟨root, segments⟩ := p
    obtain ⟨root', segments'⟩ := p'
    rw [AccessPath.mk.injEq]
  · rintro ⟨p, h⟩
    obtain ⟨hbase, hroot, -⟩ := AccessExpr.resolve_eq_path_iff.1 h
    exact ⟨hbase, p.root, hroot⟩
  · rintro ⟨hbase, className, hroot⟩
    exact ⟨⟨className, Segment.ofSelectors e.selectors⟩, AccessExpr.resolve_eq_path_iff.2
      ⟨hbase, hroot, Segment.map_label_ofSelectors e.selectors⟩⟩
  · -- both programs are analysed like the one with plain bases
    rw [← analyze_findings_plain program, h, analyze_findings_plain]

/-- A purse that is filled under a lock and read under a lock that callers hold; the expressions
start from the given objects. -/
def Program.purse (lock guard own other : Base) : Program where
  classes := [{ name := "Purse" }]
  methods := [
    { id := ⟨0⟩
      name := "fill"
      declaringClass := "Purse"
      body := .ofBlocks [([⟨1, .acquire (.field ⟨lock, [.field "Purse" "mutex"]⟩)⟩,
        ⟨2, .write ⟨own, [.field "Purse" "total", .field "Sum" "cents"]⟩⟩,
        ⟨3, .release (.field ⟨lock, [.field "Purse" "mutex"]⟩)⟩,
        ⟨4, .write ⟨own, [.field "Purse" "log", .element, .field "Entry" "text"]⟩⟩], [])] },
    { id := ⟨1⟩
      name := "show"
      declaringClass := "Purse"
      annotations := { guardedBy := some (.field ⟨guard, [.field "Purse" "mutex"]⟩) }
      body := .ofBlocks [([⟨5, .read ⟨other, [.field "Purse" "total", .field "Sum" "cents"]⟩⟩,
        ⟨6, .read ⟨other, [.field "Purse" "log", .element]⟩⟩], [])] }]

/-- The text of an entry of the log, of the receiver, is on the path of an entry, of a variable. -/
theorem paths_forget_bases_purse :
    (∃ p, (AccessExpr.mk .receiver
        [.field "Purse" "log", .element, .field "Entry" "text"]).resolve = .path p ∧
      (AccessExpr.mk (.localVar "copy") [.field "Purse" "log", .element]).resolve = .path p) ∧
    (Program.purse .receiver .receiver .receiver .receiver).plain
      = (Program.purse (.static "Purse") (.localVar "it") .receiver (.localVar "copy")).plain ∧
    (∃ f ∈ (analyze (.purse .receiver .receiver .receiver .receiver) {}).findings,
      f.IsOn ⟨"Purse", [.field "log", .element]⟩ ⟨0⟩ ⟨1⟩) ∧
    (analyze (.purse .receiver .receiver .receiver .receiver) {}).findings
      = (analyze (.purse (.static "Purse") (.localVar "it") .receiver (.localVar "copy"))
          {}).findings := by
  obtain ⟨hpaths, hresolves, hfindings⟩ := paths_forget_bases
  have hplain : (Program.purse .receiver .receiver .receiver .receiver).plain
      = (Program.purse (.static "Purse") (.localVar "it") .receiver
          (.localVar "copy")).plain := by decide +kernel
  refine ⟨?_, hplain, exists_finding_of_mem_keys rfl (by decide +kernel),
    hfindings _ _ hplain {}⟩
  obtain ⟨p, hp⟩ := (hresolves (.mk .receiver
    [.field "Purse" "log", .element, .field "Entry" "text"])).2 ⟨by decide, "Purse", by decide⟩
  obtain ⟨p', hp'⟩ := (hresolves (.mk (.localVar "copy")
    [.field "Purse" "log", .element])).2 ⟨by decide, "Purse", by decide⟩
  obtain rfl := (hpaths _ _ p p' hp hp').2 ⟨by decide, by decide⟩
  exact ⟨p, hp, hp'⟩

end Interlock
