import Interlock.Proofs.Budgets
import Interlock.Proofs.ClassRecords
import Mathlib.Data.Set.Card

/-!
# Nothing is lost silently

Every record either gets a finished summary or a note that says why not, and every access
and every method that is passed over or degraded has its own note.

- `Note.Tells`: what a note says of a method, field by field.
- `Accounts`: notes that correspond one to one to what calls for them.
- `Program.LeavesOut`: the records without a summary, and why.
- `Program.recordFault?`, `Program.leavesOut_iff`: the same, computed.
- `analyze_recordNotes`, `Session.done_iff`: records with notes and records with summaries.
- `analyze_accounts`: the notes of a report.
-/

namespace Interlock

/-! ## Notes that are called for -/

/-- `note.Tells m severity kind text`: the note is about the method. It carries the number of the
method, and its message is the qualified name of the method followed by the text. -/
structure Note.Tells (note : Note) (m : Method) (severity : Severity) (kind : NoteKind)
    (text : String) : Prop where
  method_eq : note.method = some m.id
  severity_eq : note.severity = severity
  kind_eq : note.kind = kind
  message_eq : note.message = m.qualifiedName ++ ": " ++ text

namespace Note

variable {note : Note} {m : Method}

/-- What a note tells is all that it says. -/
theorem tells_iff {severity : Severity} {kind : NoteKind} {text : String} :
    note.Tells m severity kind text ↔
      note = ⟨some m.id, severity, kind, m.qualifiedName ++ ": " ++ text⟩ := by
  constructor
  · rintro ⟨hmethod, hseverity, hkind, hmessage⟩
    cases note
    simp_all
  · rintro rfl
    exact ⟨rfl, rfl, rfl, rfl⟩

/-- The note on a record without a summary. -/
theorem tells_iff_eq_ofIncomplete {fault : Fault} :
    note.Tells m .warning .analysisIncomplete ("analysis incomplete, " ++ fault.message) ↔
      note = .ofIncomplete m.id m.qualifiedName fault := by
  have hopening : ": analysis incomplete, " = ": " ++ "analysis incomplete, " := rfl
  rw [tells_iff, ofIncomplete, hopening]
  simp only [String.append_assoc]

/-- The note on an access that is skipped. -/
theorem tells_iff_eq_ofSkipped (pos : OpPos) {op : Operation} {expr reason : String} :
    note.Tells m .info .skippedAccess ("access to `" ++ expr ++ "` on line "
        ++ op.line.toNat.repr ++ " is ignored, " ++ reason) ↔
      note = .ofSkipped m.qualifiedName ⟨m.locationOf pos op, expr, reason⟩ := by
  have hopening : ": access to `" = ": " ++ "access to `" := rfl
  rw [tells_iff, ofSkipped, hopening]
  simp only [String.append_assoc]
  rfl

/-- The note on a method that is degraded. -/
theorem tells_iff_eq_ofBudget {limit : Nat} :
    note.Tells m .warning .budgetExceeded ((Fault.budgetExceeded m.id limit).message
        ++ ", no locks are assumed to be held") ↔
      note = .ofBudget m.qualifiedName (.budgetExceeded m.id limit) := by
  rw [tells_iff, ofBudget, ← String.append_assoc]
  rfl

end Note

/-- The notes are those that are called for, one for each cause: `due cause note` says that the
cause calls for the note. -/
def Accounts {α : Type} (notes : List Note) (due : α → Note → Prop) : Prop :=
  ∃ entries : List (α × Note), (entries.map (·.1)).Nodup ∧
    (∀ cause note, (cause, note) ∈ entries ↔ due cause note) ∧ notes.Perm (entries.map (·.2))

/-- A note that is called for is among the notes. -/
theorem Accounts.mem {α : Type} {notes : List Note} {due : α → Note → Prop}
    (h : Accounts notes due) {cause : α} {note : Note} (hdue : due cause note) : note ∈ notes := by
  obtain ⟨entries, -, hentries, hperm⟩ := h
  exact hperm.mem_iff.2 (List.mem_map.2 ⟨(cause, note), (hentries cause note).2 hdue, rfl⟩)

/-- Causes that are listed once each and may call for a note. -/
theorem accounts_of_perm {α κ : Type} (causes : List α) (key : α → κ)
    (note? : α → Option Note) (hnodup : (causes.map key).Nodup) {notes : List Note}
    (hnotes : notes.Perm (causes.filterMap note?)) {due : κ → Note → Prop}
    (hdue : ∀ k note, due k note ↔ ∃ a ∈ causes, key a = k ∧ note? a = some note) :
    Accounts notes due := by
  -- the causes that call for a note are some of all causes, in the same order
  have hkeys : ∀ causes : List α, (causes.filterMap fun a => (note? a).map (key a, ·)).map (·.1)
      = (causes.filter fun a => (note? a).isSome).map key := by
    intro causes
    induction causes with
    | nil => rfl
    | cons a causes ih => cases hnote : note? a <;> simp [hnote, ih]
  refine ⟨causes.filterMap fun a => (note? a).map (key a, ·), ?_, fun k note => ?_, ?_⟩
  · rw [hkeys]
    exact hnodup.sublist (List.filter_sublist.map key)
  · rw [hdue, List.mem_filterMap]
    simp only [Option.map_eq_some_iff, Prod.mk.injEq]
    constructor
    · rintro ⟨a, ha, n, hn, rfl, rfl⟩
      exact ⟨a, ha, rfl, hn⟩
    · rintro ⟨a, ha, rfl, hn⟩
      exact ⟨a, ha, note, hn, rfl, rfl⟩
  · refine hnotes.trans (.of_eq ?_)
    rw [List.map_filterMap]
    refine List.filterMap_congr fun a _ => ?_
    cases note? a <;> rfl

/-! ## Records by position -/

/-- Whether an earlier record has the number of the method at a position. -/
def isRepeated (methods : List Method) (x : Method × Nat) : Bool :=
  x.1.id ∈ (methods.take x.2).map (·.id)

theorem isRepeated_iff {methods : List Method} {m : Method} {i : Nat} :
    isRepeated methods (m, i) = true ↔ m.id ∈ (methods.take i).map (·.id) :=
  decide_eq_true_iff

namespace Intake

theorem of_concat (methods : List Method) (m : Method) :
    Intake.of (methods ++ [m]) = (Intake.of methods).add m := by
  rw [Intake.of, Intake.of, List.foldl_append]
  rfl

/-- The numbers of the records that are taken in as new are all numbers. -/
theorem mem_ids_unique {methods : List Method} {id : MethodId} :
    id ∈ (Intake.of methods).unique.map (·.id) ↔ id ∈ methods.map (·.id) := by
  induction methods using List.reverseRecOn generalizing id with
  | nil => exact Iff.rfl
  | append_singleton methods m ih =>
    rw [of_concat, add]
    split
    · next hknown =>
      rw [List.map_append, List.mem_append, ih]
      constructor
      · exact .inl
      · rintro (h | h)
        · exact h
        · rw [List.map_singleton, List.mem_singleton] at h
          exact h ▸ ih.1 hknown
    · rw [List.map_append, List.map_append, List.mem_append, List.mem_append, ih]

/-- Records are taken in as new or as repeated by whether an earlier one has their number. -/
theorem of_eq (methods : List Method) : Intake.of methods =
    { unique := (methods.zipIdx.filter (!isRepeated methods ·)).map (·.1)
      repeated := (methods.zipIdx.filter (isRepeated methods)).map (·.1) } := by
  induction methods using List.reverseRecOn with
  | nil => rfl
  | append_singleton methods m ih =>
    -- the records before the last are judged as without it
    have hbefore : ∀ x ∈ methods.zipIdx, isRepeated (methods ++ [m]) x = isRepeated methods x := by
      intro x hx
      have hle : x.2 ≤ methods.length := by
        have hlt := List.snd_lt_of_mem_zipIdx hx
        omega
      rw [isRepeated, isRepeated, List.take_append_of_le_length hle]
    have hlast : isRepeated (methods ++ [m]) (m, methods.length)
        = decide (m.id ∈ (Intake.of methods).unique.map (·.id)) := by
      rw [isRepeated]
      simp only [mem_ids_unique, List.take_left]
    have hzip : (methods ++ [m]).zipIdx = methods.zipIdx ++ [(m, methods.length)] := by
      rw [List.zipIdx_append]
      simp
    rw [of_concat, add, hzip, List.filter_append, List.filter_append,
      List.filter_congr hbefore, List.filter_congr fun x hx => congrArg not (hbefore x hx)]
    by_cases hknown : m.id ∈ (Intake.of methods).unique.map (·.id)
    · rw [if_pos hknown]
      rw [decide_eq_true hknown] at hlast
      simp [hlast, ih]
    · rw [if_neg hknown]
      rw [decide_eq_false hknown] at hlast
      simp [hlast, ih]

end Intake

/-! ## Components that failed -/

/-- A component fails only if its summaries do not become stable. -/
theorem fault_of_summarizeComponent {cyclic : Bool} {maxRounds : Option Nat}
    {finished : MethodId → Option Summary} {members : List MethodFacts} {fault : Fault}
    (h : summarizeComponent cyclic maxRounds finished members = .error fault) :
    ∃ rounds, fault = .unstable (members.map (·.method)) rounds := by
  cases cyclic with
  | false =>
    rw [summarizeComponent_acyclic] at h
    cases h
  | true =>
    rw [summarizeComponent_cyclic] at h
    split at h
    · cases h
    · exact ⟨_, (Except.error.inj h).symm⟩

namespace Session

/-- Why the component of a method failed, if it did. -/
def unstable? (s : Session) (m : MethodId) : Option Fault :=
  match (s.graph.componentOf? m).bind s.store.get? with
  | some (.error fault) => some fault
  | _ => none

variable (program : Program) (config : Config)

theorem mem_members {m : MethodId} {c : Nat} : m ∈ (Session.of program config).graph.members c ↔
    (Session.of program config).graph.componentOf? m = some c :=
  CallGraph.mem_members (keyed_facts program config)

/-- A method has a component if it is accepted. -/
theorem exists_componentOf?_iff {m : MethodId} :
    (∃ c, (Session.of program config).graph.componentOf? m = some c) ↔
      m ∈ program.accepted.map (·.id) := by
  refine CallGraph.exists_componentOf?_iff.trans ?_
  rw [List.mem_map]
  constructor
  · rintro ⟨f, hf⟩
    obtain ⟨method, hmethod, hid, -⟩ := get?_facts.1 hf
    exact ⟨method, hmethod, hid⟩
  · rintro ⟨method, hmethod, hid⟩
    exact ⟨_, get?_facts.2 ⟨method, hmethod, hid, rfl⟩⟩

theorem componentOf?_lt {m : MethodId} {c : Nat}
    (h : (Session.of program config).graph.componentOf? m = some c) :
    c < (Session.of program config).graph.size :=
  CallGraph.componentOf?_lt (keyed_facts program config) h

/-- The components divide up the accepted methods. -/
theorem members_perm : ((List.range (Session.of program config).graph.size).flatMap
    (Session.of program config).graph.members).Perm (program.accepted.map (·.id)) := by
  refine (List.perm_ext_iff_of_nodup ?_ program.nodup_accepted).2 fun m => ?_
  · rw [List.nodup_flatMap]
    refine ⟨fun c _ => CallGraph.nodup_members (keyed_facts program config) c, ?_⟩
    refine List.nodup_range.imp fun {c d} hne => ?_
    intro m hc hd
    rw [mem_members] at hc hd
    exact hne (Option.some_inj.1 (hc.symm.trans hd))
  · rw [List.mem_flatMap, ← exists_componentOf?_iff program config]
    constructor
    · rintro ⟨c, -, hm⟩
      exact ⟨c, (mem_members program config).1 hm⟩
    · rintro ⟨c, hc⟩
      exact ⟨c, List.mem_range.2 (componentOf?_lt program config hc),
        (mem_members program config).2 hc⟩

/-- The fault of a component names its methods. -/
theorem fault_of_component {c : Nat} (hc : c < (Session.of program config).graph.size)
    {fault : Fault} (h : (Session.of program config).store.get? c = some (.error fault)) :
    ∃ rounds, fault = .unstable ((Session.of program config).graph.members c) rounds := by
  have hcompute : (Session.of program config).builder.compute (Session.of program config).store c
      = .error fault := Option.some_inj.1 ((get?_store program config hc).symm.trans h)
  obtain ⟨rounds, rfl⟩ := fault_of_summarizeComponent hcompute
  rw [Builder.map_method_memberFacts (keyed_facts program config) rfl]
  exact ⟨rounds, rfl⟩

/-- A component fails only with a fault that says its summaries are not stable. -/
theorem unstable?_eq_some {m : MethodId} {fault : Fault} :
    (Session.of program config).unstable? m = some fault ↔ ∃ c members rounds,
      (Session.of program config).graph.componentOf? m = some c ∧
      (Session.of program config).store.get? c = some (.error (.unstable members rounds)) ∧
      fault = .unstable members rounds := by
  rw [unstable?]
  constructor
  · intro h
    split at h
    · next error herror =>
      obtain rfl := Option.some_inj.1 h
      obtain ⟨c, hc, hget⟩ := Option.bind_eq_some_iff.1 herror
      obtain ⟨rounds, rfl⟩ := fault_of_component program config
        (componentOf?_lt program config hc) hget
      exact ⟨c, _, rounds, hc, hget, rfl⟩
    · cases h
  · rintro ⟨c, members, rounds, hc, hget, rfl⟩
    rw [hc, Option.bind_some, hget]

/-- The notes on failed components are the notes on their methods. -/
theorem incompleteNotes_perm :
    ((Session.of program config).incompleteNotes (Session.of program config).store).Perm
      ((program.accepted.map (·.id)).filterMap fun m =>
        ((Session.of program config).unstable? m).map
          (Note.ofIncomplete m ((Session.of program config).nameOf m))) := by
  refine .trans (.of_eq ?_) ((members_perm program config).filterMap _)
  rw [incompleteNotes, List.filterMap_flatMap]
  refine List.flatMap_congr fun c hc => ?_
  -- all methods of a component share its outcome
  have hunstable : ∀ m ∈ (Session.of program config).graph.members c,
      (Session.of program config).unstable? m
        = match (Session.of program config).store.get? c with
          | some (.error fault) => some fault
          | _ => none := by
    intro m hm
    rw [unstable?, (mem_members program config).1 hm, Option.bind_some]
  cases hget : (Session.of program config).store.get? c with
  | none =>
    rw [hget] at hunstable
    exact (List.filterMap_eq_nil_iff.2 fun m hm => by rw [hunstable m hm]; rfl).symm
  | some outcome =>
    rw [hget] at hunstable
    cases outcome with
    | ok out =>
      exact (List.filterMap_eq_nil_iff.2 fun m hm => by rw [hunstable m hm]; rfl).symm
    | error fault =>
      obtain ⟨rounds, rfl⟩ := fault_of_component program config (List.mem_range.1 hc) hget
      show List.map _ ((Session.of program config).graph.members c) = _
      rw [← List.filterMap_eq_map]
      refine List.filterMap_congr fun m hm => ?_
      rw [hunstable m hm]
      rfl

/-- An accepted method goes by its own name. -/
theorem nameOf_of_accepted {m : Method} (hm : m ∈ program.accepted) :
    (Session.of program config).nameOf m.id = m.qualifiedName := by
  have hfind : (Intake.of program.methods).unique.find? (·.id = m.id) = some m :=
    (find?_eq_some_iff_mem Method.id (Intake.nodup_unique program.methods)).2
      ⟨(List.mem_filter.1 hm).1, rfl⟩
  show (((Intake.of program.methods).unique.find? (·.id = m.id)).map Method.qualifiedName).getD _
    = _
  rw [hfind]
  rfl

end Session

/-! ## Records without a summary -/

/-- `program.LeavesOut config i m fault`: the record at position `i` is that of `m`, which gets no
summary because of the fault. -/
inductive Program.LeavesOut (program : Program) (config : Config) :
    Nat → Method → Fault → Prop where
  /-- An earlier record has its number. -/
  | repeated {i : Nat} {m : Method} : program.methods[i]? = some m →
      m.id ∈ (program.methods.take i).map (·.id) → LeavesOut program config i m (.duplicateId m.id)
  /-- It is the first with its number and fails the checks. -/
  | malformed {i : Nat} {m : Method} {fault : Fault} : program.methods[i]? = some m →
      m.id ∉ (program.methods.take i).map (·.id) →
      m.fault? (program.methods.map (·.id)) = some fault → LeavesOut program config i m fault
  /-- It is accepted, and the summaries of its component do not become stable. -/
  | unstable {i : Nat} {m : Method} {c : Nat} {members : List MethodId} {rounds : Nat} :
      program.methods[i]? = some m → m.id ∉ (program.methods.take i).map (·.id) →
      m.fault? (program.methods.map (·.id)) = none →
      (Session.of program config).graph.componentOf? m.id = some c →
      (Session.of program config).store.get? c = some (.error (.unstable members rounds)) →
      LeavesOut program config i m (.unstable members rounds)

/-- Why the record at a position gets no summary, if it gets none. -/
def Program.recordFault? (program : Program) (config : Config) (x : Method × Nat) : Option Fault :=
  if isRepeated program.methods x then some (.duplicateId x.1.id)
  else (x.1.fault? (program.methods.map (·.id))).or
    ((Session.of program config).unstable? x.1.id)

section Records

variable (program : Program) (config : Config)

/-- Which records get no summary, and why, can be computed. -/
theorem Program.leavesOut_iff {i : Nat} {m : Method} {fault : Fault} :
    program.LeavesOut config i m fault ↔
      (m, i) ∈ program.methods.zipIdx ∧ program.recordFault? config (m, i) = some fault := by
  rw [List.mem_zipIdx_iff_getElem?, recordFault?]
  constructor
  · intro h
    cases h with
    | repeated hm hrepeated =>
      rw [if_pos (isRepeated_iff.2 hrepeated)]
      exact ⟨hm, rfl⟩
    | malformed hm hfirst hfault =>
      rw [if_neg (mt isRepeated_iff.1 hfirst), hfault]
      exact ⟨hm, rfl⟩
    | unstable hm hfirst hnone hc hget =>
      rw [if_neg (mt isRepeated_iff.1 hfirst), hnone, Option.none_or]
      exact ⟨hm, (Session.unstable?_eq_some program config).2 ⟨_, _, _, hc, hget, rfl⟩⟩
  · rintro ⟨hm, h⟩
    split at h
    · next hrepeated =>
      obtain rfl := Option.some_inj.1 h
      exact .repeated hm (isRepeated_iff.1 hrepeated)
    · next hfirst =>
      have hfirst := mt isRepeated_iff.2 hfirst
      rcases Option.or_eq_some_iff.1 h with hfault | ⟨hnone, hunstable⟩
      · exact .malformed hm hfirst hfault
      · obtain ⟨c, members, rounds, hc, hget, rfl⟩ :=
          (Session.unstable?_eq_some program config).1 hunstable
        exact .unstable hm hfirst hnone hc hget

/-- The checks may ask for all numbers as well as for those taken in. -/
theorem Method.fault?_unique (m : Method) :
    m.fault? ((Intake.of program.methods).unique.map (·.id))
      = m.fault? (program.methods.map (·.id)) :=
  m.fault?_congr fun _ => Intake.mem_ids_unique

/-- Taking one of two values where there is one splits up the elements. -/
theorem filterMap_or_perm {α β : Type} (f g : α → Option β) (l : List α) :
    (l.filterMap fun a => (f a).or (g a)).Perm
      (l.filterMap f ++ (l.filter fun a => (f a).isNone).filterMap g) := by
  induction l with
  | nil => exact .nil
  | cons a l ih =>
    cases hf : f a with
    | some b => simpa [hf] using ih
    | none =>
      cases hg : g a with
      | none => simpa [hf, hg] using ih
      | some b => simpa [hf, hg] using (ih.cons b).trans List.perm_middle.symm

/-- The notes on records without a summary, in the order of the records. -/
theorem analyze_recordNotes :
    ((analyze program config).notes.filter (·.kind = .analysisIncomplete)).Perm
      (program.methods.zipIdx.filterMap fun x =>
        (program.recordFault? config x).map (Note.ofIncomplete x.1.id x.1.qualifiedName)) := by
  refine (analyze_incompleteNotes program config).trans ?_
  refine .trans ?_ ((List.filter_append_perm (isRepeated program.methods) _).filterMap _)
  rw [List.filterMap_append, List.append_assoc]
  refine .append (.of_eq ?_) ?_
  · -- repeated records
    rw [Intake.of_eq, List.map_map, ← List.filterMap_eq_map]
    refine List.filterMap_congr fun x hx => ?_
    rw [Program.recordFault?, if_pos (List.mem_filter.1 hx).2]
    rfl
  · -- first records: those that fail the checks, and the accepted ones
    have hfirst : (program.methods.zipIdx.filter (!isRepeated program.methods ·)).filterMap
          (fun x => (program.recordFault? config x).map
            (Note.ofIncomplete x.1.id x.1.qualifiedName))
        = (Intake.of program.methods).unique.filterMap fun m =>
            ((m.fault? ((Intake.of program.methods).unique.map (·.id))).map
                (Note.ofIncomplete m.id m.qualifiedName)).or
              (((Session.of program config).unstable? m.id).map
                (Note.ofIncomplete m.id m.qualifiedName)) := by
      simp only [Method.fault?_unique]
      rw [Intake.of_eq, List.filterMap_map]
      refine List.filterMap_congr fun x hx => ?_
      have hnot : ¬ isRepeated program.methods x = true := by simpa using (List.mem_filter.1 hx).2
      rw [Program.recordFault?, if_neg hnot]
      exact Option.map_or
    rw [hfirst]
    refine .trans ?_ (filterMap_or_perm _ _ _).symm
    refine .append_left _ ?_
    refine (Session.incompleteNotes_perm program config).trans (.of_eq ?_)
    simp only [Option.isNone_map]
    show _ = program.accepted.filterMap _
    rw [List.filterMap_map]
    refine List.filterMap_congr fun m hm => ?_
    rw [Function.comp_apply, Session.nameOf_of_accepted program config hm]

/-- The accepted methods are those of the first records that pass the checks. -/
theorem Program.mem_accepted_iff {m : Method} : m ∈ program.accepted ↔
    ∃ i, (m, i) ∈ program.methods.zipIdx ∧ isRepeated program.methods (m, i) = false ∧
      m.fault? (program.methods.map (·.id)) = none := by
  rw [accepted, List.mem_filter, Method.fault?_unique, Intake.of_eq, List.mem_map,
    Option.isNone_iff_eq_none]
  simp only [List.mem_filter, Bool.not_eq_true']
  constructor
  · rintro ⟨⟨x, ⟨hx, hfirst⟩, rfl⟩, hfault⟩
    exact ⟨x.2, hx, hfirst, hfault⟩
  · rintro ⟨i, hx, hfirst, hfault⟩
    exact ⟨⟨(m, i), ⟨hx, hfirst⟩, rfl⟩, hfault⟩

/-- A method has a finished summary if it has a record without a fault. -/
theorem Session.done_iff {m : MethodId} :
    (Session.of program config).builder.Done (Session.of program config).store m ↔
      m ∈ (program.methods.zipIdx.filter fun x => (program.recordFault? config x).isNone).map
        (·.1.id) := by
  rw [List.mem_map]
  simp only [List.mem_filter, Option.isNone_iff_eq_none]
  constructor
  · rintro ⟨summary, hs⟩
    obtain ⟨c, out, hc, hout, -⟩ := Builder.exists_component_of_finished? hs
    obtain ⟨method, hmethod, rfl⟩ :=
      List.mem_map.1 ((exists_componentOf?_iff program config).1 ⟨c, hc⟩)
    obtain ⟨i, hx, hfirst, hfault⟩ := (program.mem_accepted_iff).1 hmethod
    refine ⟨(method, i), ⟨hx, ?_⟩, rfl⟩
    -- there is a finished summary, so the component did not fail
    have hstable : (Session.of program config).unstable? method.id = none := by
      have hbind : ((Session.of program config).graph.componentOf? method.id).bind
          (Session.of program config).store.get? = some (.ok out) :=
        Option.bind_eq_some_iff.2 ⟨c, hc, hout⟩
      rw [unstable?, hbind]
    rw [Program.recordFault?, hfirst, hfault, hstable]
    rfl
  · rintro ⟨⟨method, i⟩, ⟨hx, hnone⟩, rfl⟩
    rw [Program.recordFault?] at hnone
    split at hnone
    · cases hnone
    · next hfirst =>
      obtain ⟨hfault, hstable⟩ := Option.or_eq_none_iff.1 hnone
      have hmethod := (program.mem_accepted_iff).2 ⟨i, hx, by simpa using hfirst, hfault⟩
      obtain ⟨c, hc⟩ := (exists_componentOf?_iff program config).2
        (List.mem_map.2 ⟨method, hmethod, rfl⟩)
      have hget := get?_store program config (componentOf?_lt program config hc)
      -- a component that failed would be the fault of the record
      cases hcompute : (Session.of program config).builder.compute
          (Session.of program config).store c with
      | error fault =>
        rw [hcompute] at hget
        have hbind : ((Session.of program config).graph.componentOf? method.id).bind
            (Session.of program config).store.get? = some (.error fault) :=
          Option.bind_eq_some_iff.2 ⟨c, hc, hget⟩
        rw [unstable?, hbind] at hstable
        cases hstable
      | ok out =>
        rw [hcompute] at hget
        obtain ⟨f, summary, -, -, -, hs⟩ := Builder.done_of_component
          (b := (Session.of program config).builder) (keyed_facts program config) rfl
          (fun _ => get?_store program config) hc hget
        exact ⟨summary, (Builder.finished?_of_component hget hc).trans hs⟩

/-- The records without a fault have distinct numbers. -/
theorem Program.nodup_faultless : ((program.methods.zipIdx.filter fun x =>
    (program.recordFault? config x).isNone).map (·.1.id)).Nodup := by
  have hfirst : program.methods.zipIdx.filter (fun x => (program.recordFault? config x).isNone)
      = (program.methods.zipIdx.filter (!isRepeated program.methods ·)).filter
          fun x => (program.recordFault? config x).isNone := by
    rw [List.filter_filter]
    refine List.filter_congr fun x _ => ?_
    rw [recordFault?]
    cases isRepeated program.methods x <;> simp
  have hunique := Intake.nodup_unique program.methods
  rw [Intake.of_eq, List.map_map] at hunique
  rw [hfirst]
  exact hunique.sublist (List.filter_sublist.map _)

/-- Each record has a note or its method a summary. -/
theorem analyze_length_records :
    ((analyze program config).notes.filter (·.kind = .analysisIncomplete)).length
      + {m | (Session.of program config).builder.Done (Session.of program config).store m}.ncard
      = program.methods.length := by
  have hdone : {m | (Session.of program config).builder.Done (Session.of program config).store m}
      = (((program.methods.zipIdx.filter fun x => (program.recordFault? config x).isNone).map
          (·.1.id)).toFinset : Set MethodId) := by
    ext m
    rw [List.coe_toFinset]
    exact Session.done_iff program config
  have hnone : ∀ x, (program.recordFault? config x).isNone
      = decide ¬ (program.recordFault? config x).isSome = true := by
    intro x
    cases program.recordFault? config x <;> rfl
  rw [(analyze_recordNotes program config).length_eq, hdone, Set.ncard_coe_finset,
    List.toFinset_card_of_nodup (program.nodup_faultless config), List.length_map,
    List.length_filterMap_eq_countP, ← List.countP_eq_length_filter]
  simp only [Option.isSome_map, hnone]
  rw [← List.length_eq_countP_add_countP, List.length_zipIdx]

end Records

/-! ## Accesses and budgets -/

/-- Lock tracking of a method that passes the checks gives up only when a budget is used up. -/
theorem Method.budget_of_trackLocks {m : Method} (h0 : 0 < m.body.size) (hg : m.body.WellFormed)
    {budget : Option Nat} {e : LimitReached} (h : m.trackLocks budget = .error e) :
    budget = some e.limit := by
  cases budget with
  | none =>
    obtain ⟨tagged, htagged⟩ := exists_trackLocks_none h0 hg
    rw [htagged] at h
    cases h
  | some limit =>
    rw [trackLocks, Problem.solve, Problem.solveWithin] at h
    split at h
    · cases h
    · obtain rfl := Except.error.inj h
      rfl

/-- `program.Skips (m, pos) note`: the note tells of the accepted method that its access at the
position is skipped, because its place cannot be named. -/
def Program.Skips (program : Program) (x : Method × OpPos) (note : Note) : Prop :=
  x.1 ∈ program.accepted ∧ ∃ op target kind reason,
    (x.1.body.operations x.2.block)[x.2.op]? = some op ∧
    op.action.target? = some (target, kind) ∧ target.resolve = .unresolved reason ∧
    note.Tells x.1 .info .skippedAccess ("access to `" ++ target.render ++ "` on line "
      ++ op.line.toNat.repr ++ " is ignored, " ++ reason.message)

/-- `program.Degrades config m note`: the note tells of the accepted method that it is degraded,
because the budget is used up. -/
def Program.Degrades (program : Program) (config : Config) (m : Method) (note : Note) : Prop :=
  m ∈ program.accepted ∧ ∃ f budget, (Session.of program config).facts.get? m.id = some f ∧
    f.degraded = true ∧ config.perMethodBudget = some budget ∧
    note.Tells m .warning .budgetExceeded ((Fault.budgetExceeded m.id budget.toNat).message
      ++ ", no locks are assumed to be held")

/-- An operation is skipped if it names an access whose place is not resolved. -/
theorem Method.skippedAt?_eq_some {m : Method} {pos : OpPos} {op : Operation} {s : SkippedAccess} :
    m.skippedAt? pos op = some s ↔ ∃ target kind reason, op.action.target? = some (target, kind) ∧
      target.resolve = .unresolved reason ∧
      s = ⟨m.locationOf pos op, target.render, reason.message⟩ := by
  rw [skippedAt?]
  constructor
  · intro h
    split at h
    · next target kind htarget =>
      split at h
      · next reason hreason =>
        exact ⟨target, kind, reason, htarget, hreason, (Option.some_inj.1 h).symm⟩
      · cases h
    · cases h
  · rintro ⟨target, kind, reason, htarget, hreason, rfl⟩
    rw [htarget]
    dsimp only
    rw [hreason]

section Due

variable (program : Program) (config : Config)

/-- Every access that is skipped has its note. -/
theorem analyze_accounts_skipped :
    Accounts ((analyze program config).notes.filter (·.kind = .skippedAccess)) program.Skips := by
  refine accounts_of_perm
    (program.accepted.flatMap fun m => m.body.positions.map fun x => (m, x.1, x.2))
    (fun x => (x.1, x.2.1))
    (fun x => (x.1.skippedAt? x.2.1 x.2.2).map (Note.ofSkipped x.1.qualifiedName)) ?_ ?_ ?_
  · rw [List.map_flatMap, List.nodup_flatMap]
    constructor
    · intro m _
      -- positions in one method are distinct, and so are the methods
      have hinjective : Function.Injective (Prod.mk m : OpPos → Method × OpPos) :=
        fun _ _ h => (Prod.mk.inj h).2
      have hkeys : (m.body.positions.map fun x => (m, x.1, x.2)).map (fun x => (x.1, x.2.1))
          = (m.body.positions.map (·.1)).map (Prod.mk m) := by
        rw [List.map_map, List.map_map]
        rfl
      rw [hkeys]
      exact m.body.nodup_positions.map hinjective
    · have hnodup : program.accepted.Nodup := .of_map _ program.nodup_accepted
      refine hnodup.imp fun {m m'} hne x hx hx' => hne ?_
      have hmethod : ∀ {m : Method}, x ∈ (m.body.positions.map fun x => (m, x.1, x.2)).map
          (fun x => (x.1, x.2.1)) → x.1 = m := by
        intro m hx
        obtain ⟨y, hy, rfl⟩ := List.mem_map.1 hx
        obtain ⟨z, -, rfl⟩ := List.mem_map.1 hy
        rfl
      exact (hmethod hx).symm.trans (hmethod hx')
  · refine (analyze_skippedNotes program config).trans (.of_eq ?_)
    rw [List.filterMap_flatMap]
    refine List.flatMap_congr fun m _ => ?_
    rw [Method.skippedNotes, Method.extract, List.map_filterMap, List.filterMap_map]
    rfl
  · rintro ⟨m, pos⟩ note
    simp only [Program.Skips, Note.tells_iff_eq_ofSkipped pos, List.mem_flatMap, List.mem_map,
      Option.map_eq_some_iff, Method.skippedAt?_eq_some]
    constructor
    · rintro ⟨hm, op, target, kind, reason, hop, htarget, hreason, rfl⟩
      exact ⟨(m, pos, op), ⟨m, hm, (pos, op), FlowGraph.mem_positions.2 hop, rfl⟩, rfl,
        _, ⟨target, kind, reason, htarget, hreason, rfl⟩, rfl⟩
    · rintro ⟨x, ⟨m', hm, ⟨pos', op⟩, hx, rfl⟩, hkey, s, ⟨target, kind, reason, htarget, hreason,
        rfl⟩, rfl⟩
      obtain ⟨rfl, rfl⟩ := Prod.mk.inj hkey
      exact ⟨hm, op, target, kind, reason, FlowGraph.mem_positions.1 hx, htarget, hreason, rfl⟩

/-- Every method that is degraded has its note. -/
theorem analyze_accounts_degraded :
    Accounts ((analyze program config).notes.filter (·.kind = .budgetExceeded))
      (program.Degrades config) := by
  refine accounts_of_perm program.accepted id
    (fun m => m.budgetNote? (config.perMethodBudget.map UInt64.toNat)) ?_
    (analyze_budgetNotes program config) fun m note => ?_
  · rw [List.map_id]
    exact .of_map _ program.nodup_accepted
  · -- facts are degraded where lock tracking gave up
    have hfacts : ∀ {m : Method}, m ∈ program.accepted → ∀ {f},
        (Session.of program config).facts.get? m.id = some f →
          (f.degraded = true ↔ ∃ e, m.trackLocks (config.perMethodBudget.map UInt64.toNat)
            = .error e) := by
      intro m hm f hf
      have hget := Session.get?_facts_of_accepted config hm
      obtain rfl := Option.some_inj.1 (hget.symm.trans hf)
      exact m.prepare_degraded _
    simp only [Program.Degrades, Note.tells_iff_eq_ofBudget]
    constructor
    · rintro ⟨hm, f, budget, hf, hdegraded, hbudget, rfl⟩
      obtain ⟨e, he⟩ := (hfacts hm hf).1 hdegraded
      obtain ⟨h0, hg⟩ := Program.wellFormed_of_accepted hm
      have hlimit := Method.budget_of_trackLocks h0 hg he
      rw [hbudget, Option.map_some, Option.some_inj] at hlimit
      exact ⟨m, hm, rfl, Method.budgetNote?_eq_some.2 ⟨e, he, by rw [hlimit]⟩⟩
    · rintro ⟨m, hm, rfl, hnote⟩
      obtain ⟨e, he, rfl⟩ := Method.budgetNote?_eq_some.1 hnote
      obtain ⟨h0, hg⟩ := Program.wellFormed_of_accepted hm
      obtain ⟨budget, hbudget, hlimit⟩ :=
        Option.map_eq_some_iff.1 (Method.budget_of_trackLocks h0 hg he)
      have hget := Session.get?_facts_of_accepted config hm
      exact ⟨hm, _, budget, hget, (hfacts hm hget).2 ⟨e, he⟩, hbudget, by rw [hlimit]; rfl⟩

/-- Every record without a summary has its note. -/
theorem analyze_accounts_records :
    Accounts ((analyze program config).notes.filter (·.kind = .analysisIncomplete))
      fun i note => ∃ m fault, program.LeavesOut config i m fault ∧
        note.Tells m .warning .analysisIncomplete ("analysis incomplete, " ++ fault.message) := by
  refine accounts_of_perm program.methods.zipIdx (·.2) _ ?_ (analyze_recordNotes program config)
    fun i note => ?_
  · rw [List.zipIdx_map_snd]
    exact List.nodup_range'
  · simp only [Program.leavesOut_iff, Note.tells_iff_eq_ofIncomplete, Option.map_eq_some_iff]
    constructor
    · rintro ⟨m, fault, ⟨hx, hfault⟩, rfl⟩
      exact ⟨(m, i), hx, rfl, fault, hfault, rfl⟩
    · rintro ⟨⟨m, i⟩, hx, rfl, fault, hfault, rfl⟩
      exact ⟨m, fault, ⟨hx, hfault⟩, rfl⟩

end Due

/-- Both methods of a finding have summaries. -/
theorem Collection.Owned.exists_summaries {c : Collection} (howned : c.Owned)
    {minConfidence : Confidence} {f : Finding} (hf : f ∈ c.findings minConfidence) :
    (∃ s, c.summaryOf f.methodA = some s) ∧ ∃ s, c.summaryOf f.methodB = some s := by
  obtain ⟨k, candidate, hcandidate, rfl⟩ := exists_candidate_of_mem_findings hf
  have harises := arises_of_mem_candidates hcandidate
  obtain ⟨-, s, hs, -⟩ := howned.reports harises.first
  obtain ⟨-, s', hs', -⟩ := howned.reports harises.second
  exact ⟨⟨s, hs.2⟩, ⟨s', hs'.2⟩⟩

/-- **Nothing is lost silently**: the notes of a report are sorted. Each record has a note or its
method a finished summary, and the notes correspond one to one to the records without one, to the
accesses that are skipped and to the methods that are degraded. Each of them carries the number of
the method concerned and opens with its qualified name. Both methods of a finding have finished
summaries. -/
theorem analyze_accounts (program : Program) (config : Config) :
    (analyze program config).notes.Pairwise (fun n n' => (n.order n').isLE = true) ∧
    ((analyze program config).notes.filter (·.kind = .analysisIncomplete)).length
      + {m | (Session.of program config).builder.Done (Session.of program config).store m}.ncard
      = program.methods.length ∧
    Accounts ((analyze program config).notes.filter (·.kind = .analysisIncomplete))
      (fun i note => ∃ m fault, program.LeavesOut config i m fault ∧
        note.Tells m .warning .analysisIncomplete ("analysis incomplete, " ++ fault.message)) ∧
    Accounts ((analyze program config).notes.filter (·.kind = .skippedAccess)) program.Skips ∧
    Accounts ((analyze program config).notes.filter (·.kind = .budgetExceeded))
      (program.Degrades config) ∧
    ∀ f ∈ (analyze program config).findings,
      (Session.of program config).builder.Done (Session.of program config).store f.methodA ∧
      (Session.of program config).builder.Done (Session.of program config).store f.methodB :=
  ⟨Note.pairwise_sort _, analyze_length_records program config,
    analyze_accounts_records program config, analyze_accounts_skipped program config,
    analyze_accounts_degraded program config,
    fun _ hf => (Session.owned program config).exists_summaries hf⟩

/-- Writes the stock. A block that no edge leads to reads from an object that is not known. -/
def Method.load : Method where
  id := ⟨0⟩
  name := "load"
  declaringClass := "Depot"
  body := .ofBlocks
    [([⟨1, .write (.thisField "Depot" "stock")⟩], []), ([⟨2, .read ⟨.unresolved, []⟩⟩], [])]

/-- Has the number of `load`. -/
def Method.reload : Method := { Method.load with name := "reload" }

/-- Jumps to a block that does not exist. -/
def Method.ship : Method where
  id := ⟨1⟩
  name := "ship"
  declaringClass := "Depot"
  body := .ofBlocks [([], [4])]

/-- Has the number of `ship`, which fails the checks. -/
def Method.reship : Method := { Method.ship with name := "reship", body := .ofBlocks [([], [])] }

/-- Reads the stock and calls itself. -/
def Method.restock : Method where
  id := ⟨2⟩
  name := "restock"
  declaringClass := "Depot"
  body := .ofBlocks [([⟨3, .read (.thisField "Depot" "stock")⟩, ⟨4, .call ⟨2⟩ []⟩], [])]

/-- Reads the stock in a loop. -/
def Method.takeStock : Method where
  id := ⟨3⟩
  name := "takeStock"
  declaringClass := "Depot"
  body := .ofBlocks [([⟨5, .read (.thisField "Depot" "stock")⟩], [0, 1]), ([], [])]

/-- A depot whose records are lost at every stage, if one visit and one round are allowed. -/
def Program.depot : Program where
  classes := [{ name := "Depot", annotations := { threadSafe := true } }]
  methods := [.load, .reload, .ship, .reship, .restock, .takeStock]

/-- One block visit for each method, and one round for each component. -/
def Config.sparing : Config := { perMethodBudget := some 1, maxFixpointRounds := some 1 }

theorem analyze_accounts_depot :
    (∀ x ∈ [(1, Method.reload, Fault.duplicateId ⟨0⟩), (2, .ship, .missingBlock ⟨1⟩ 0 4),
        (3, .reship, .duplicateId ⟨1⟩), (4, .restock, .unstable [⟨2⟩] 1)],
      Program.depot.LeavesOut .sparing x.1 x.2.1 x.2.2 ∧
      ∃ note ∈ (analyze .depot .sparing).notes, note.method = some x.2.1.id ∧
        note.message = x.2.1.qualifiedName ++ ": analysis incomplete, " ++ x.2.2.message) ∧
    ((analyze .depot .sparing).notes.filter (·.kind = .analysisIncomplete)).length = 4 ∧
    {m | (Session.of .depot .sparing).builder.Done (Session.of .depot .sparing).store m}.ncard = 2 ∧
    (∃ note ∈ (analyze .depot .sparing).notes, note.Tells .load .info .skippedAccess
      "access to `<unresolved>` on line 2 is ignored, receiver is not statically known") ∧
    (∃ note ∈ (analyze .depot .sparing).notes, note.Tells .takeStock .warning .budgetExceeded
      "lock tracking of method #3 exceeded 1 block visits, no locks are assumed to be held") ∧
    ∃ f ∈ (analyze .depot .sparing).findings, f.IsOn (.field "Depot" "stock") ⟨0⟩ ⟨3⟩ ∧
      (Session.of .depot .sparing).builder.Done (Session.of .depot .sparing).store f.methodA ∧
      (Session.of .depot .sparing).builder.Done (Session.of .depot .sparing).store f.methodB := by
  obtain ⟨-, hlength, hrecords, hskipped, hdegraded, hfindings⟩ := analyze_accounts .depot .sparing
  -- four of the six records have notes, so two methods have summaries
  have hfour :
      ((analyze .depot .sparing).notes.filter (·.kind = .analysisIncomplete)).length = 4 := by
    rw [(analyze_recordNotes .depot .sparing).length_eq]
    decide +kernel
  have hsix : Program.depot.methods.length = 6 := rfl
  refine ⟨fun x hx => ?_, hfour, by omega, ?_, ?_, ?_⟩
  · have hleft : Program.depot.LeavesOut .sparing x.1 x.2.1 x.2.2 := by
      rw [Program.leavesOut_iff]
      revert x
      decide +kernel
    have hnote := hrecords.mem ⟨_, _, hleft, Note.tells_iff_eq_ofIncomplete.2 rfl⟩
    exact ⟨hleft, _, List.mem_of_mem_filter hnote, rfl, rfl⟩
  · have hload : Method.load ∈ Program.depot.accepted := by decide +kernel
    have hdue : Program.depot.Skips (.load, ⟨1, 0⟩) _ :=
      ⟨hload, _, _, _, _, rfl, rfl, rfl, Note.tells_iff.2 rfl⟩
    exact ⟨_, List.mem_of_mem_filter (hskipped.mem hdue), rfl, rfl, rfl, by decide +kernel⟩
  · have htakeStock : Method.takeStock ∈ Program.depot.accepted := by decide +kernel
    have hflag : ((Session.of .depot .sparing).facts.get? ⟨3⟩).map (·.degraded) = some true := by
      decide +kernel
    obtain ⟨f, hf, hflag⟩ := Option.map_eq_some_iff.1 hflag
    have hdue : Program.depot.Degrades .sparing .takeStock _ :=
      ⟨htakeStock, f, 1, hf, hflag, rfl, Note.tells_iff.2 rfl⟩
    exact ⟨_, List.mem_of_mem_filter (hdegraded.mem hdue), rfl, rfl, rfl, by decide +kernel⟩
  · obtain ⟨f, hf, hon⟩ : ∃ f ∈ (analyze .depot .sparing).findings,
        f.IsOn (.field "Depot" "stock") ⟨0⟩ ⟨3⟩ :=
      exists_finding_of_mem_keys rfl (by decide +kernel)
    exact ⟨f, hf, hon, hfindings f hf⟩

end Interlock
