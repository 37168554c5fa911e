import Interlock.Note
import Interlock.Proofs.Executions

/-!
# The notes of an analysis

Where notes come from and how they are listed. They are sorted by all they say, so the
order in which they come up makes no difference.

- `Note.pairwise_sort`, `Note.sort_eq_of_perm`: sorted notes.
- `Session.notes_of`: the notes before methods are summarized.
- `analyze_incompleteNotes`, `analyze_skippedNotes`, `analyze_budgetNotes`: the notes of each kind.
-/

namespace Interlock

/-! ## Sorted notes -/

namespace Note

instance : Std.TransOrd Severity where
  eq_swap {a b} := by cases a <;> cases b <;> rfl
  isLE_trans {a b c} := by cases a <;> cases b <;> cases c <;> decide

instance : Std.LawfulEqOrd Severity where
  eq_of_compare {a b} := by cases a <;> cases b <;> decide

instance : Std.TransOrd NoteKind where
  eq_swap {a b} := by cases a <;> cases b <;> rfl
  isLE_trans {a b c} := by cases a <;> cases b <;> cases c <;> decide

instance : Std.LawfulEqOrd NoteKind where
  eq_of_compare {a b} := by cases a <;> cases b <;> decide

instance : Std.TransCmp order :=
  inferInstanceAs (Std.TransCmp (compareLex _ (compareLex _ (compareLex _ _))))

/-- Notes are compared by all they say. -/
theorem eq_of_order_eq {n n' : Note} (h : n.order n' = .eq) : n = n' := by
  obtain ⟨hmethod, h⟩ := compareLex_eq_eq.1 h
  obtain ⟨hseverity, h⟩ := compareLex_eq_eq.1 h
  obtain ⟨hkind, hmessage⟩ := compareLex_eq_eq.1 h
  have hmethod : n.method = n'.method := Std.LawfulEqOrd.eq_of_compare hmethod
  have hseverity : n.severity = n'.severity := Std.LawfulEqOrd.eq_of_compare hseverity
  have hkind : n.kind = n'.kind := Std.LawfulEqOrd.eq_of_compare hkind
  have hmessage : n.message = n'.message := Std.LawfulEqOrd.eq_of_compare hmessage
  cases n; cases n'
  simp_all

/-- Sorted notes are in order. -/
theorem pairwise_sort (notes : List Note) :
    (sort notes).Pairwise fun n n' => (n.order n').isLE = true :=
  pairwise_mergeSort_isLE order notes

/-- Sorted lists of the same notes are the same. -/
theorem eq_of_sorted_perm {notes notes' : List Note}
    (hsorted : notes.Pairwise fun n n' => (n.order n').isLE = true)
    (hsorted' : notes'.Pairwise fun n n' => (n.order n').isLE = true) (h : notes.Perm notes') :
    notes = notes' :=
  h.eq_of_pairwise (fun _ _ _ _ hle hge => eq_of_order_eq (Std.OrientedCmp.isLE_antisymm hle hge))
    hsorted hsorted'

/-- The order in which notes come up makes no difference. -/
theorem sort_eq_of_perm {notes notes' : List Note} (h : notes.Perm notes') :
    sort notes = sort notes' := by
  have hperm : (sort notes).Perm (sort notes') :=
    (List.mergeSort_perm _ _).trans (h.trans (List.mergeSort_perm _ _).symm)
  exact eq_of_sorted_perm (pairwise_sort notes) (pairwise_sort notes') hperm

end Note

/-! ## Notes of a session -/

/-- The notes of a session: repeated records, methods that fail the checks, and what comes up when
the accepted methods are prepared. -/
theorem Session.notes_of (program : Program) (config : Config) : (Session.of program config).notes
    = (Intake.of program.methods).repeated.map
          (fun m => Note.ofIncomplete m.id m.qualifiedName (.duplicateId m.id))
        ++ (Intake.of program.methods).unique.filterMap
          (fun m => (m.fault? ((Intake.of program.methods).unique.map (·.id))).map
            (Note.ofIncomplete m.id m.qualifiedName))
        ++ program.accepted.flatMap fun m =>
          (m.prepare program.hierarchy (config.perMethodBudget.map UInt64.toNat)).2 := by
  rw [← List.flatMap_map (fun m : Method =>
    m.prepare program.hierarchy (config.perMethodBudget.map UInt64.toNat)) (·.2)]
  rfl

/-! ## Notes of one kind -/

namespace Method

/-- The notes on the accesses of a method that are skipped. -/
def skippedNotes (m : Method) : List Note := m.extract.skipped.map (Note.ofSkipped m.qualifiedName)

/-- The note on a method that lock tracking gives up on. -/
def budgetNote? (m : Method) (budget : Option Nat) : Option Note :=
  match m.trackLocks budget with
  | .ok _ => none
  | .error e => some (.ofBudget m.qualifiedName (.budgetExceeded m.id e.limit))

/-- A method has the note exactly if tracking gives up on it. -/
theorem budgetNote?_eq_some {m : Method} {budget : Option Nat} {note : Note} :
    m.budgetNote? budget = some note ↔ ∃ e, m.trackLocks budget = .error e ∧
      note = .ofBudget m.qualifiedName (.budgetExceeded m.id e.limit) := by
  rw [budgetNote?]
  cases m.trackLocks budget with
  | ok tagged => simp
  | error e => simp [eq_comm]

/-- What comes up when a method is prepared: its skipped accesses first, then its budget. -/
theorem prepare_notes (m : Method) (hierarchy : Hierarchy) (budget : Option Nat) :
    (m.prepare hierarchy budget).2 = m.skippedNotes ++ (m.budgetNote? budget).toList := by
  rw [prepare, budgetNote?]
  cases m.trackLocks budget with
  | ok tagged => exact (List.append_nil _).symm
  | error e => rfl

end Method

namespace Note

/-- Notes that are all of one kind are kept or dropped together. -/
theorem filter_kind {notes : List Note} {kind : NoteKind} (h : ∀ n ∈ notes, n.kind = kind)
    (wanted : NoteKind) :
    notes.filter (·.kind = wanted) = if kind = wanted then notes else [] := by
  split
  · next heq => exact List.filter_eq_self.2 fun n hn => decide_eq_true ((h n hn).trans heq)
  · next hne =>
    refine List.filter_eq_nil_iff.2 fun n hn hwanted => hne ?_
    rw [← h n hn, of_decide_eq_true hwanted]

end Note

/-- The notes for the methods of a component, if it failed. -/
def Session.componentNotes (s : Session) (store : Store) (component : Nat) : List Note :=
  match store.get? component with
  | some (.error fault) => fault.methods.map fun m => Note.ofIncomplete m (s.nameOf m) fault
  | _ => []

theorem Session.incompleteNotes_eq (s : Session) (store : Store) :
    s.incompleteNotes store = (List.range s.graph.size).flatMap (s.componentNotes store) := rfl

section Kinds

variable (program : Program) (config : Config)

/-- **Notes by kind**: the notes of one kind, by where they come up. -/
theorem analyze_notes_filter (wanted : NoteKind) :
    ((analyze program config).notes.filter (·.kind = wanted)).Perm
      ((if .analysisIncomplete = wanted then
          (Intake.of program.methods).repeated.map
              (fun m => Note.ofIncomplete m.id m.qualifiedName (.duplicateId m.id))
            ++ (Intake.of program.methods).unique.filterMap
              (fun m => (m.fault? ((Intake.of program.methods).unique.map (·.id))).map
                (Note.ofIncomplete m.id m.qualifiedName))
            ++ (Session.of program config).incompleteNotes (Session.of program config).store
        else [])
        ++ program.accepted.flatMap fun m =>
          (if .skippedAccess = wanted then m.skippedNotes else [])
            ++ if .budgetExceeded = wanted then
                (m.budgetNote? (config.perMethodBudget.map UInt64.toNat)).toList
              else []) := by
  -- each place where notes come up makes notes of one kind
  have hrepeated : ∀ n ∈ (Intake.of program.methods).repeated.map
      (fun m => Note.ofIncomplete m.id m.qualifiedName (.duplicateId m.id)),
      n.kind = .analysisIncomplete := by
    intro n hn
    obtain ⟨m, -, rfl⟩ := List.mem_map.1 hn
    rfl
  have hfaults : ∀ n ∈ (Intake.of program.methods).unique.filterMap
      (fun m => (m.fault? ((Intake.of program.methods).unique.map (·.id))).map
        (Note.ofIncomplete m.id m.qualifiedName)), n.kind = .analysisIncomplete := by
    intro n hn
    obtain ⟨m, -, hn⟩ := List.mem_filterMap.1 hn
    obtain ⟨fault, -, rfl⟩ := Option.map_eq_some_iff.1 hn
    rfl
  have hunstable : ∀ n ∈ (Session.of program config).incompleteNotes
      (Session.of program config).store, n.kind = .analysisIncomplete := by
    intro n hn
    obtain ⟨c, -, hn⟩ := List.mem_flatMap.1 hn
    split at hn
    · obtain ⟨m, -, rfl⟩ := List.mem_map.1 hn
      rfl
    · cases hn
  have hskipped : ∀ m : Method, ∀ n ∈ m.skippedNotes, n.kind = .skippedAccess := by
    intro m n hn
    obtain ⟨s, -, rfl⟩ := List.mem_map.1 hn
    rfl
  have hbudget : ∀ m : Method, ∀ n ∈
      (m.budgetNote? (config.perMethodBudget.map UInt64.toNat)).toList,
      n.kind = .budgetExceeded := by
    intro m n hn
    rw [Option.mem_toList, Method.budgetNote?] at hn
    split at hn
    · cases hn
    · obtain rfl := Option.mem_some_iff.1 hn
      rfl
  -- sorting does not matter to which notes there are
  have hsorted : ((analyze program config).notes.filter (·.kind = wanted)).Perm
      (((Session.of program config).notes ++ (Session.of program config).incompleteNotes
        (Session.of program config).store).filter (·.kind = wanted)) :=
    (List.mergeSort_perm _ _).filter _
  refine hsorted.trans ?_
  rw [Session.notes_of]
  simp only [Method.prepare_notes, List.filter_append, List.filter_flatMap,
    Note.filter_kind hrepeated, Note.filter_kind hfaults, Note.filter_kind hunstable,
    Note.filter_kind (hskipped _), Note.filter_kind (hbudget _)]
  -- notes without a summary come up at the start and at the end; the other kinds only in between
  by_cases hwanted : NoteKind.analysisIncomplete = wanted
  · simp only [if_pos hwanted, List.append_assoc]
    exact (List.perm_append_comm.append_left _).append_left _
  · simp only [if_neg hwanted, List.append_nil, List.nil_append]
    exact .refl _

/-- The notes on methods without a summary: repeated records, records that fail the checks, and
components that do not become stable. -/
theorem analyze_incompleteNotes :
    ((analyze program config).notes.filter (·.kind = .analysisIncomplete)).Perm
      ((Intake.of program.methods).repeated.map
          (fun m => Note.ofIncomplete m.id m.qualifiedName (.duplicateId m.id))
        ++ (Intake.of program.methods).unique.filterMap
          (fun m => (m.fault? ((Intake.of program.methods).unique.map (·.id))).map
            (Note.ofIncomplete m.id m.qualifiedName))
        ++ (Session.of program config).incompleteNotes (Session.of program config).store) := by
  refine (analyze_notes_filter program config .analysisIncomplete).trans (.of_eq ?_)
  simp

/-- The notes on skipped accesses. -/
theorem analyze_skippedNotes :
    ((analyze program config).notes.filter (·.kind = .skippedAccess)).Perm
      (program.accepted.flatMap Method.skippedNotes) := by
  refine (analyze_notes_filter program config .skippedAccess).trans (.of_eq ?_)
  simp

/-- The notes on methods that lock tracking gives up on. -/
theorem analyze_budgetNotes :
    ((analyze program config).notes.filter (·.kind = .budgetExceeded)).Perm
      (program.accepted.filterMap fun m =>
        m.budgetNote? (config.perMethodBudget.map UInt64.toNat)) := by
  refine (analyze_notes_filter program config .budgetExceeded).trans (.of_eq ?_)
  simp [List.filterMap_eq_flatMap_toList]

end Kinds

end Interlock
