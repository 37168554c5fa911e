import Interlock.Proofs.BuildSteps
import Interlock.Proofs.MoreLocks
import Mathlib.Logic.Relation

/-!
# Adding locks adds no findings

A program is edited step by step so that it holds more locks: a method becomes
synchronized or gets a guard, a call is known to be made under one more lock, an
acquisition takes the place of an operation that does nothing, a release is dropped.
Whatever is reported afterwards was reported before, if the predecessor lists of all bodies
mirror their successor lists.

Without that, dropping a release may add a finding. A block that is reached but lists no
predecessor keeps the state of code not reached, in which all locks that the method names are
held. The release that is dropped may be the only operation that names its lock.

- `Action.AddsLock`, `MethodAnnotations.AddsLock`, `Method.AddsLock`, `Program.AddsLock`: one edit.
- `Program.MoreLocks`: programs that differ in the locks held only.
- `Session.covers_of_moreLocks`: what is known of the methods of two such programs.
- `Program.AddsLock.exists_finding`, `analyze_addedLocks`: the findings after one edit and after
  any number of them.
- `dropped_release_adds_finding`: an edit of a body with a missing predecessor.
-/

namespace Interlock

/-! ## Edits -/

/-- One more lock is held during a call, acquired in place of doing nothing, or not released. -/
inductive Action.AddsLock : Action → Action → Prop
  | hold {callee : MethodId} {before after : List LockExpr} (lock : LockExpr) :
      AddsLock (.call callee (before ++ after)) (.call callee (before ++ lock :: after))
  | acquire (lock : LockExpr) : AddsLock .nop (.acquire lock)
  | keep (lock : LockExpr) : AddsLock (.release lock) .nop

/-- A method is declared to be synchronized, or one without a guard gets one. -/
inductive MethodAnnotations.AddsLock : MethodAnnotations → MethodAnnotations → Prop
  | synchronize (a : MethodAnnotations) : AddsLock a { a with synchronized := true }
  | guard {a : MethodAnnotations} (lock : LockExpr) : a.guardedBy = none →
      AddsLock a { a with guardedBy := some lock }

/-- The graph with another operation at a place. -/
def FlowGraph.setOperation {Op : Type} (g : FlowGraph Op) (pos : OpPos) (op : Op) : FlowGraph Op :=
  ⟨g.blocks.modify pos.block fun block =>
    { block with operations := block.operations.set pos.op op }⟩

/-- One edit of the annotations or of an operation, which stays in its line. -/
inductive Method.AddsLock : Method → Method → Prop
  | annotations {m : Method} {annotations : MethodAnnotations} :
      m.annotations.AddsLock annotations → AddsLock m { m with annotations }
  | operation {m : Method} {pos : OpPos} {op : Operation} {action : Action} :
      (m.body.operations pos.block)[pos.op]? = some op → op.action.AddsLock action →
      AddsLock m { m with body := m.body.setOperation pos { op with action } }

/-- One edit of one method. -/
inductive Program.AddsLock : Program → Program → Prop
  | method {program : Program} {before after : List Method} {m m' : Method} :
      program.methods = before ++ m :: after → m.AddsLock m' →
      AddsLock program { program with methods := before ++ m' :: after }

/-! ## Edits add locks -/

/-- Whatever is held before an edited action, no lock is lost by the edit. -/
theorem Action.AddsLock.moreLocks {a a' : Action} (h : a.AddsLock a') : a.MoreLocks a' := by
  cases h with
  | @hold callee before after lock =>
    refine ⟨rfl, rfl, fun _ => subset_rfl, fun l hl => ?_⟩
    simp only [callLocks, List.filterMap_append, List.mem_append] at hl ⊢
    exact hl.imp id fun hl => (List.sublist_cons_self lock after).filterMap _ |>.subset hl
  | acquire lock =>
    exact ⟨rfl, rfl, fun _ => Set.subset_union_left, fun _ hl => absurd hl List.not_mem_nil⟩
  | keep lock =>
    exact ⟨rfl, rfl, fun _ => Set.sdiff_subset, fun _ hl => absurd hl List.not_mem_nil⟩

/-- Edited annotations add to the locks held on entry. The classes see neither of the two
annotations. -/
theorem MethodAnnotations.AddsLock.moreLocks {m : Method} {annotations : MethodAnnotations}
    (h : m.annotations.AddsLock annotations) : m.MoreLocks { m with annotations } := by
  have hinterface : Method.interface { m with annotations } = m.interface := by
    cases h <;> rfl
  refine { Method.MoreLocks.refl m with interface := hinterface, entry := ?_ }
  cases h with
  | synchronize => exact Set.union_subset_union_left _ fun l hl => ⟨rfl, hl.2⟩
  | guard lock hnone =>
    refine Set.union_subset_union_right _ ?_
    rintro l ⟨guard, hguard, -⟩
    rw [hnone] at hguard
    cases hguard

namespace FlowGraph

variable {Op : Type} (g : FlowGraph Op) (pos : OpPos) (op : Op)

theorem size_setOperation : (g.setOperation pos op).size = g.size := Array.size_modify

theorem successors_setOperation : (g.setOperation pos op).successors = g.successors := by
  funext b
  rw [successors, successors, setOperation, Array.getElem?_modify]
  split
  · rw [Option.map_map]
    rfl
  · rfl

theorem predecessors_setOperation : (g.setOperation pos op).predecessors = g.predecessors := by
  funext b
  rw [predecessors, predecessors, setOperation, Array.getElem?_modify]
  split
  · rw [Option.map_map]
    rfl
  · rfl

/-- Only the block of the place has other operations, and one at that. -/
theorem operations_setOperation (b : Nat) : (g.setOperation pos op).operations b =
    if pos.block = b then (g.operations b).set pos.op op else g.operations b := by
  rw [operations, operations, setOperation, Array.getElem?_modify]
  split
  · cases g.blocks[b]? <;> simp
  · rfl

end FlowGraph

/-- A list is related to itself with one element replaced by a related one. -/
theorem forall₂_set {α : Type} {R : α → α → Prop} (hrefl : ∀ a, R a a) {l : List α} {i : Nat}
    {a a' : α} (ha : l[i]? = some a) (h : R a a') : List.Forall₂ R l (l.set i a') := by
  induction l generalizing i with
  | nil => cases ha
  | cons b l ih =>
    cases i with
    | zero =>
      obtain rfl := Option.some_inj.1 ha
      exact .cons h (List.forall₂_same.2 fun x _ => hrefl x)
    | succ i => exact .cons (hrefl b) (ih ha)

/-- An edited method holds more locks. -/
theorem Method.AddsLock.moreLocks {m m' : Method} (h : m.AddsLock m') : m.MoreLocks m' := by
  cases h with
  | annotations h => exact h.moreLocks
  | @operation pos op action hop h =>
    refine { Method.MoreLocks.refl m with
      size := m.body.size_setOperation pos _
      successors := m.body.successors_setOperation pos _
      predecessors := m.body.predecessors_setOperation pos _
      operations := fun b => ?_ }
    -- all blocks but one keep their operations
    rw [FlowGraph.operations_setOperation]
    split
    · next hb =>
      rw [hb] at hop
      exact forall₂_set Operation.MoreLocks.refl hop ⟨rfl, h.moreLocks⟩
    · exact List.forall₂_same.2 fun op _ => .refl op

/-! ## Programs -/

/-- `program.MoreLocks program'`: the programs are the same, except that the methods of the second
may hold more locks. -/
structure Program.MoreLocks (program program' : Program) : Prop where
  classes : program'.classes = program.classes
  methods : List.Forall₂ Method.MoreLocks program.methods program'.methods

/-- An edited program holds more locks. -/
theorem Program.AddsLock.moreLocks {program program' : Program} (h : program.AddsLock program') :
    program.MoreLocks program' := by
  obtain ⟨hmethods, hm⟩ := h
  refine ⟨rfl, ?_⟩
  rw [hmethods]
  have hsame : ∀ l, List.Forall₂ Method.MoreLocks l l :=
    fun l => List.forall₂_same.2 fun m _ => .refl m
  exact List.rel_append (hsame _) (.cons hm.moreLocks (hsame _))

/-- What related elements have in common, related lists have in common. -/
theorem map_eq_of_forall₂ {α β : Type} {R : α → α → Prop} {f : α → β} {l l' : List α}
    (h : List.Forall₂ R l l') (hf : ∀ {a a'}, R a a' → f a' = f a) : l'.map f = l.map f := by
  have hmap : List.Forall₂ Eq (l.map f) (l'.map f) := by
    rw [List.forall₂_map_left_iff, List.forall₂_map_right_iff]
    exact h.imp fun _ _ hab => (hf hab).symm
  rw [List.forall₂_eq_eq_eq] at hmap
  exact hmap.symm

/-- Each element of the second of two related lists has a partner in the first. -/
theorem exists_of_forall₂ {α : Type} {R : α → α → Prop} {l l' : List α} (h : List.Forall₂ R l l')
    {b : α} (hb : b ∈ l') : ∃ a ∈ l, R a b := by
  induction h with
  | nil => cases hb
  | cons hab _ ih =>
    rcases List.mem_cons.1 hb with rfl | hb
    · exact ⟨_, List.mem_cons_self, hab⟩
    · obtain ⟨a, ha, hab⟩ := ih hb
      exact ⟨a, List.mem_cons_of_mem _ ha, hab⟩

/-- Which records are taken in is a matter of numbers. -/
theorem Intake.forall₂_unique {methods methods' : List Method}
    (h : List.Forall₂ Method.MoreLocks methods methods') :
    List.Forall₂ Method.MoreLocks (Intake.of methods).unique (Intake.of methods').unique := by
  refine List.rel_foldl
    (P := fun intake intake' : Intake =>
      List.Forall₂ Method.MoreLocks intake.unique intake'.unique) ?_ .nil h
  intro intake intake' hintake m m' hm
  have hids : intake'.unique.map (·.id) = intake.unique.map (·.id) :=
    map_eq_of_forall₂ hintake fun h => h.id_eq
  rw [add, add, hids, hm.id_eq]
  split
  · exact hintake
  · exact List.rel_append hintake (.cons hm .nil)

namespace Program.MoreLocks

variable {program program' : Program} (h : program.MoreLocks program')

include h

/-- The same methods pass the checks. -/
theorem accepted : List.Forall₂ Method.MoreLocks program.accepted program'.accepted := by
  have hunique := Intake.forall₂_unique h.methods
  refine List.rel_filter (fun m m' hm => ?_) hunique
  show (m.fault? _).isNone = true ↔ (m'.fault? _).isNone = true
  rw [hm.fault?_eq, map_eq_of_forall₂ hunique fun h => h.id_eq]

/-- The classes are the same, and they see nothing of the locks. -/
theorem alike : program.hierarchy.Alike program'.hierarchy := by
  rw [hierarchy, hierarchy, h.classes]
  refine Hierarchy.alike_of _ ?_
  exact (map_eq_of_forall₂ (Intake.forall₂_unique h.methods) fun h => h.interface).symm

/-- No edit touches predecessors or successors. -/
theorem mirrored (hm : ∀ m ∈ program.methods, m.body.Mirrored) :
    ∀ m' ∈ program'.methods, m'.body.Mirrored := by
  intro m' hm'
  obtain ⟨m, hmem, hmore⟩ := exists_of_forall₂ h.methods hm'
  exact hmore.mirrored (hm m hmem)

end Program.MoreLocks

/-! ## Analyses -/

/-- Without a budget, the facts of a program cover those of one that holds more locks. -/
theorem Session.covers_of_moreLocks {program program' : Program} (h : program.MoreLocks program')
    (hm : ∀ m ∈ program.methods, m.body.Mirrored) {config : Config}
    (hbudget : config.perMethodBudget = none) :
    (Session.of program config).facts.Covers (Session.of program' config).facts := by
  intro id g hg
  obtain ⟨m', hm', rfl, rfl⟩ := get?_facts.1 hg
  obtain ⟨m, hmem, hmore⟩ := exists_of_forall₂ h.accepted hm'
  obtain ⟨h0, hwf⟩ := Program.wellFormed_of_accepted hmem
  obtain ⟨h0', hwf'⟩ := Program.wellFormed_of_accepted hm'
  refine .inr ⟨_, get?_facts.2 ⟨m, hmem, hmore.id_eq.symm, rfl⟩, ?_⟩
  rw [hbudget, Option.map_none]
  exact hmore.covers h0 hwf h0' hwf' (hm m (Program.mem_methods_of_accepted hmem)) h.alike

theorem Finding.StandsFor.refl (f : Finding) : f.StandsFor f :=
  ⟨⟨rfl, .inl ⟨rfl, rfl⟩⟩, Std.ReflCmp.isLE_rfl⟩

/-- A finding stands for whatever is stood for by one that it stands for. -/
theorem Finding.StandsFor.trans {f g h : Finding} (hfg : f.StandsFor g) (hgh : g.StandsFor h) :
    f.StandsFor h := by
  have hkey : f.key = h.key := (key_eq_iff.2 hfg.isOn).trans (key_eq_iff.2 hgh.isOn)
  exact ⟨key_eq_iff.1 hkey, Std.TransCmp.isLE_trans hgh.confidence hfg.confidence⟩

/-- **One edit**: what is reported after it was reported before. -/
theorem Program.AddsLock.exists_finding {program program' : Program}
    (h : program.AddsLock program') (hm : ∀ m ∈ program.methods, m.body.Mirrored) {config : Config}
    (hbudget : config.perMethodBudget = none) (hmax : config.maxFixpointRounds = none)
    {f' : Finding} (hf' : f' ∈ (analyze program' config).findings) :
    ∃ f ∈ (analyze program config).findings, f.StandsFor f' :=
  analyze_covers (Session.covers_of_moreLocks h.moreLocks hm hbudget) h.moreLocks.alike rfl rfl hmax
    hf'

/-- **Adding locks adds no finding**: without a budget for lock tracking and a cap on rounds, each
finding of a program to which any number of locks are added has one of the program before that is on
the same path and methods and at least as sure. The predecessors of all blocks are to mirror the
successors, as they do in every program that is read. -/
theorem analyze_addedLocks {program program' : Program}
    (h : Relation.ReflTransGen Program.AddsLock program program')
    (hm : ∀ m ∈ program.methods, m.body.Mirrored) {config : Config}
    (hbudget : config.perMethodBudget = none) (hmax : config.maxFixpointRounds = none) :
    ∀ f' ∈ (analyze program' config).findings,
      ∃ f ∈ (analyze program config).findings, f.StandsFor f' := by
  -- from the last edit back to the first; findings stand for those of the next program in the chain
  induction h using Relation.ReflTransGen.head_induction_on with
  | refl => exact fun f' hf' => ⟨f', hf', .refl f'⟩
  | head hstep _ ih =>
    intro f' hf'
    obtain ⟨g, hg, hstands⟩ := ih (hstep.moreLocks.mirrored hm) f' hf'
    obtain ⟨f, hf, hstands'⟩ := hstep.exists_finding hm hbudget hmax hg
    exact ⟨f, hf, hstands'.trans hstands⟩

/-- Writes an entry. -/
def Method.post : Method where
  id := ⟨0⟩
  name := "post"
  declaringClass := "Ledger"
  body := .ofBlocks [([⟨1, .nop⟩, ⟨2, .write (.thisField "Ledger" "entries")⟩], [])]

/-- Reads the entries through another method. -/
def Method.audit : Method where
  id := ⟨1⟩
  name := "audit"
  declaringClass := "Ledger"
  body := .ofBlocks [([⟨3, .call ⟨2⟩ []⟩], [])]

/-- Reads the entries in a loop. -/
def Method.total : Method where
  id := ⟨2⟩
  name := "total"
  declaringClass := "Ledger"
  annotations := { isPrivate := true }
  body := .ofBlocks [([⟨4, .read (.thisField "Ledger" "entries")⟩], [0, 1]), ([], [])]

/-- `post` as a synchronized method. -/
def Method.synchronizedPost : Method := { Method.post with annotations := { synchronized := true } }

/-- `post` as a synchronized method that acquires another lock. -/
def Method.guardedPost : Method :=
  { Method.synchronizedPost with
    body := Method.post.body.setOperation ⟨0, 0⟩ ⟨1, .acquire (.ofClass "Log")⟩ }

/-- `audit` with a lock that is known to be held during the call. -/
def Method.guardedAudit : Method :=
  { Method.audit with
    body := Method.audit.body.setOperation ⟨0, 0⟩ ⟨3, .call ⟨2⟩ [.ofClass "Ledger"]⟩ }

/-- A shared ledger without locks. -/
def Program.ledger : Program where
  classes := [{ name := "Ledger", annotations := { threadSafe := true } }]
  methods := [.post, .audit, .total]

/-- The ledger with locks that do not match. -/
def Program.guardedLedger : Program :=
  { Program.ledger with methods := [.guardedPost, .guardedAudit, .total] }

theorem addsLocks_guardedLedger :
    Relation.ReflTransGen Program.AddsLock .ledger .guardedLedger := by
  have hsynchronize : Method.AddsLock .post .synchronizedPost := .annotations (.synchronize _)
  have hacquire : Method.AddsLock .synchronizedPost .guardedPost :=
    @Method.AddsLock.operation .synchronizedPost ⟨0, 0⟩ ⟨1, .nop⟩ _ rfl (.acquire _)
  have hhold : Method.AddsLock .audit .guardedAudit :=
    @Method.AddsLock.operation .audit ⟨0, 0⟩ ⟨3, .call ⟨2⟩ []⟩ _ rfl
      (@Action.AddsLock.hold ⟨2⟩ [] [] _)
  exact ((Relation.ReflTransGen.single
    (@Program.AddsLock.method .ledger [] [.audit, .total] _ _ rfl hsynchronize)).tail
    (@Program.AddsLock.method _ [] [.audit, .total] _ _ rfl hacquire)).tail
    (@Program.AddsLock.method _ [.guardedPost] [.total] _ _ rfl hhold)

theorem mirrored_ledger : ∀ m ∈ Program.ledger.methods, m.body.Mirrored := by
  intro m hm
  rcases List.mem_cons.1 hm with rfl | hm
  · exact FlowGraph.mirrored_ofBlocks _
  rcases List.mem_cons.1 hm with rfl | hm
  · exact FlowGraph.mirrored_ofBlocks _
  obtain rfl := List.mem_singleton.1 hm
  exact FlowGraph.mirrored_ofBlocks _

theorem analyze_addedLocks_ledger :
    Relation.ReflTransGen Program.AddsLock .ledger .guardedLedger ∧
    (∀ m ∈ Program.ledger.methods, m.body.Mirrored) ∧
    ∃ f' ∈ (analyze .guardedLedger { strictThreadContext := true }).findings,
      f'.IsOn (.field "Ledger" "entries") ⟨0⟩ ⟨1⟩ ∧
      ∃ f ∈ (analyze .ledger { strictThreadContext := true }).findings, f.StandsFor f' := by
  obtain ⟨f', hf', hon⟩ : ∃ f' ∈ (analyze .guardedLedger { strictThreadContext := true }).findings,
      f'.IsOn (.field "Ledger" "entries") ⟨0⟩ ⟨1⟩ :=
    exists_finding_of_mem_keys rfl (by decide +kernel)
  exact ⟨addsLocks_guardedLedger, mirrored_ledger, f', hf', hon,
    analyze_addedLocks addsLocks_guardedLedger mirrored_ledger rfl rfl f' hf'⟩

/-! ## A missing predecessor -/

/-- A body of two blocks. The second writes a field and ends with the given action; it does not list
the first as a predecessor. -/
def earlyEdge (last : Action) : FlowGraph Operation :=
  ⟨#[{ successors := [1] },
    { operations := [⟨1, .write (.thisField "Register" "sum")⟩, ⟨2, last⟩] }]⟩

/-- A shared register with one method. -/
def Program.register (body : FlowGraph Operation) : Program where
  classes := [{ name := "Register", annotations := { threadSafe := true } }]
  methods := [{ id := ⟨0⟩, name := "add", declaringClass := "Register", body }]

/-- The method ends with a release. -/
def Program.releasing : Program := .register (earlyEdge (.release (.ofClass "Register")))

/-- The method does not release the lock. -/
def Program.keeping : Program := .register (earlyEdge .nop)

/-- **Dropping a release may add a finding**: of two methods whose bodies are built with an edge
before its target. They pass the checks and differ in a release that the second does not make. The
write of the first counts as made under the lock that is released after it, so it is not reported.
In the second nothing counts as held, and the write is reported. If predecessors are derived from
the successors, it is reported of the first as well. -/
theorem dropped_release_adds_finding :
    (∀ last, FlowGraph.build? [.block, .edge 0 1, .block,
      .operation 1 ⟨1, .write (.thisField "Register" "sum")⟩, .operation 1 ⟨2, last⟩]
        = some (earlyEdge last)) ∧
    Program.releasing.AddsLock .keeping ∧
    Program.releasing.accepted = Program.releasing.methods ∧
    (∃ f' ∈ (analyze .keeping {}).findings, f'.IsOn (.field "Register" "sum") ⟨0⟩ ⟨0⟩ ∧
      ¬ ∃ f ∈ (analyze .releasing {}).findings, f.StandsFor f') ∧
    ∃ f ∈ (analyze (.register (earlyEdge (.release (.ofClass "Register"))).rederived) {}).findings,
      f.IsOn (.field "Register" "sum") ⟨0⟩ ⟨0⟩ := by
  refine ⟨fun _ => rfl, ?_, rfl, ?_, exists_finding_of_mem_keys rfl (by decide +kernel)⟩
  · exact @Program.AddsLock.method .releasing [] [] _ _ rfl
      (@Method.AddsLock.operation _ ⟨1, 1⟩ ⟨2, .release (.ofClass "Register")⟩ _ rfl (.keep _))
  · obtain ⟨f', hf', hon⟩ : ∃ f' ∈ (analyze .keeping {}).findings,
        f'.IsOn (.field "Register" "sum") ⟨0⟩ ⟨0⟩ :=
      exists_finding_of_mem_keys rfl (by decide +kernel)
    refine ⟨f', hf', hon, ?_⟩
    rintro ⟨f, hf, -⟩
    -- no pair of methods is kept at all for the body with the release
    have hnone : ((Session.of .releasing {}).collection
        (Session.of .releasing {}).store).best.keys = [] := by decide +kernel
    have hkey := Collection.keys_findings.mem_iff.1 (List.mem_map_of_mem hf)
    rw [hnone] at hkey
    cases hkey

end Interlock
