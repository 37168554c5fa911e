import Interlock.Proofs.Coverage
import Interlock.Proofs.LeastSolution
import Interlock.Proofs.Notes

/-!
# Smaller budgets hide nothing

When the budget for lock tracking is used up, a method is analysed as if it held no
locks. A smaller budget can only make this happen more often, so whatever is reported
under a larger budget is reported under a smaller one as well.

- `BudgetLE`: the first budget allows no more than the second.
- `Method.trackLocks_mono`: an answer within a budget is the answer within every larger one.
- `Method.prepare_covers`: a smaller budget leaves a method no less exposed.
- `Session.Degrades`: the methods that lock tracking gave up on, and
  `analyze_budgetNote_iff`, where they are listed.
- `analyze_smaller_budget`: findings and degraded methods under two budgets.
-/

namespace Interlock

/-- `BudgetLE small large`: what `small` allows, `large` allows. No budget allows everything. -/
def BudgetLE {α : Type} [LE α] (small large : Option α) : Prop := ∀ n ∈ large, ∃ k ∈ small, k ≤ n

/-- The settings with another budget for lock tracking. -/
def Config.withBudget (config : Config) (budget : Option UInt64) : Config :=
  { config with perMethodBudget := budget }

theorem BudgetLE.toNat {small large : Option UInt64} (h : BudgetLE small large) :
    BudgetLE (small.map UInt64.toNat) (large.map UInt64.toNat) := by
  intro n hn
  obtain ⟨n, hlarge, rfl⟩ := Option.mem_map.1 hn
  obtain ⟨k, hsmall, hle⟩ := h n hlarge
  exact ⟨k.toNat, Option.mem_map.2 ⟨k, hsmall, rfl⟩, UInt64.le_iff_toNat_le.1 hle⟩

/-- A solution found within a limit is the one found within every larger limit. -/
theorem Problem.solve_mono {Op D : Type} [JoinSemilattice D] [DecidableEq D] [LawfulJoin D]
    [Height D] [LawfulHeight D] {p : Problem Op D} (hg : p.graph.WellFormed)
    (h0 : 0 < p.graph.size) (hp : p.IsMonotone) {small large : Option Nat}
    (hle : BudgetLE small large) {s : Solution D} (h : p.solve small = .ok s) :
    p.solve large = .ok s := by
  obtain ⟨hends, rfl⟩ := solve_eq_ok.1 h
  cases large with
  | none =>
    -- without a limit, a run that is long enough ends where the limited one ended
    have hbound := waiting_run_visitBound hg h0 hp
    exact solve_eq_ok.2 ⟨hbound, congrArg _ (run_eq_run hbound hends)⟩
  | some n =>
    obtain ⟨k, rfl, hkn⟩ := hle n rfl
    have hrun : p.run n p.start = p.run k p.start := run_eq_of_le hkn hends
    exact solve_eq_ok.2 ⟨hrun ▸ hends, congrArg _ hrun⟩

namespace Method

variable {m : Method} (h0 : 0 < m.body.size) (hg : m.body.WellFormed)

include h0 hg in
/-- So is what lock tracking answers with. -/
theorem trackLocks_mono {small large : Option Nat} (hle : BudgetLE small large) {tagged : Tagged}
    (h : m.trackLocks small = .ok tagged) : m.trackLocks large = .ok tagged := by
  obtain ⟨s, hs, rfl⟩ := trackLocks_eq_ok h
  rw [trackLocks, Problem.solve_mono hg h0 m.lockProblem_isMonotone hle hs]
  rfl

/-! ## What a method exposes -/

/-- Assuming no locks covers whatever tags the method has. -/
theorem Tags.covered_by_assumeNoLocks {f g : MethodFacts} (hg : m.Tags g.tagged)
    (hthread : f.thread = g.thread) (hf : f.tagged = m.assumeNoLocks) : f.Covers g where
  thread := hthread
  access a ha := by
    obtain ⟨op, hop, hitem⟩ := hg.access a ha
    exact ⟨⟨a.access, ∅⟩, hf ▸ mem_assumeNoLocks_accesses hop hitem, rfl,
      fun l hl => absurd hl (SortedSet.not_mem_empty l)⟩
  call c hc := by
    obtain ⟨op, hop, hitem⟩ := hg.call c hc
    exact ⟨⟨c.call, ∅⟩, hf ▸ mem_assumeNoLocks_calls hop hitem, rfl,
      fun l hl => absurd hl (SortedSet.not_mem_empty l)⟩

variable (hierarchy : Hierarchy)

include h0 hg in
/-- A smaller budget leaves a method no less exposed. -/
theorem prepare_covers {small large : Option Nat} (hle : BudgetLE small large) :
    (m.prepare hierarchy small).1.Covers (m.prepare hierarchy large).1 := by
  have hthread : (m.prepare hierarchy small).1.thread = (m.prepare hierarchy large).1.thread := by
    rw [prepare_thread, prepare_thread]
  rcases m.prepare_tagged hierarchy small with htrack | hassume
  · -- tracking answers within the smaller budget, and then the facts are the same
    have hlarge := trackLocks_mono h0 hg hle htrack
    have htagged : (m.prepare hierarchy large).1.tagged = (m.prepare hierarchy small).1.tagged := by
      rw [prepare, hlarge]
    exact MethodFacts.covers_of_tagged hthread htagged.symm
  · exact (m.tags_prepare hierarchy large).covered_by_assumeNoLocks hthread hassume

/-- A method is degraded if lock tracking does not find an answer. -/
theorem prepare_degraded {budget : Option Nat} :
    (m.prepare hierarchy budget).1.degraded = true ↔ ∃ e, m.trackLocks budget = .error e := by
  rw [prepare]
  cases m.trackLocks budget with
  | ok tagged => simp
  | error e => simp

end Method

/-! ## Degraded methods -/

/-- `program.GivesUpOn budget m`: lock tracking finds no answer for the method within the budget. -/
def Program.GivesUpOn (program : Program) (budget : Option UInt64) (m : MethodId) : Prop :=
  ∃ method ∈ program.accepted, method.id = m ∧
    ∃ e, method.trackLocks (budget.map UInt64.toNat) = .error e

/-- The summary of the method was made without lock tracking. -/
def Session.Degrades (s : Session) (m : MethodId) : Prop :=
  ∃ summary, s.builder.finished? s.store m = some summary ∧ summary.degraded = true

section Degraded

variable {program : Program} {config : Config}

/-- Without a given cap on rounds, the methods that lock tracking gives up on are degraded. -/
theorem Session.degrades_iff (hmax : config.maxFixpointRounds = none) {m : MethodId} :
    (Session.of program config).Degrades m ↔ program.GivesUpOn config.perMethodBudget m := by
  constructor
  · rintro ⟨summary, hs, hdegraded⟩
    obtain ⟨f, hf, rfl⟩ := eq_summarize hs
    obtain ⟨method, hmethod, hid, rfl⟩ := get?_facts.1 hf
    exact ⟨method, hmethod, hid, (method.prepare_degraded _).1 hdegraded⟩
  · rintro ⟨method, hmethod, rfl, hgives⟩
    obtain ⟨summary, hs⟩ := done_of_accepted hmax hmethod
    obtain ⟨f, hf, rfl⟩ := eq_summarize hs
    have hfacts := get?_facts_of_accepted config hmethod
    obtain rfl := Option.some_inj.1 (hfacts.symm.trans hf)
    exact ⟨_, hs, (method.prepare_degraded _).2 hgives⟩

/-- The notes on budgets are those of the methods that lock tracking gives up on. -/
theorem analyze_budgetNote_iff {m : MethodId} :
    (∃ note ∈ (analyze program config).notes, note.kind = .budgetExceeded ∧ note.method = some m) ↔
      program.GivesUpOn config.perMethodBudget m := by
  -- of the notes of this kind it is known which they are, up to order
  have hmem : ∀ note, note ∈ (analyze program config).notes ∧ note.kind = .budgetExceeded ↔
      ∃ method ∈ program.accepted,
        method.budgetNote? (config.perMethodBudget.map UInt64.toNat) = some note := by
    intro note
    rw [← List.mem_filterMap, ← (analyze_budgetNotes program config).mem_iff, List.mem_filter,
      decide_eq_true_eq]
  constructor
  · rintro ⟨note, hnote, hkind, hm⟩
    obtain ⟨method, hmethod, hbudget⟩ := (hmem note).1 ⟨hnote, hkind⟩
    obtain ⟨e, he, rfl⟩ := Method.budgetNote?_eq_some.1 hbudget
    exact ⟨method, hmethod, Option.some_inj.1 hm, e, he⟩
  · rintro ⟨method, hmethod, rfl, e, he⟩
    obtain ⟨hnote, hkind⟩ :=
      (hmem _).2 ⟨method, hmethod, Method.budgetNote?_eq_some.2 ⟨e, he, rfl⟩⟩
    exact ⟨_, hnote, hkind, rfl⟩

end Degraded

/-! ## Two budgets -/

section Budgets

variable {program : Program} {small large : Option UInt64} (hle : BudgetLE small large)

include hle

/-- A smaller budget gives up on all methods that a larger one gives up on. -/
theorem Program.GivesUpOn.mono {m : MethodId} (h : program.GivesUpOn large m) :
    program.GivesUpOn small m := by
  obtain ⟨method, hmethod, hid, e, he⟩ := h
  obtain ⟨h0, hwf⟩ := wellFormed_of_accepted hmethod
  refine ⟨method, hmethod, hid, ?_⟩
  cases hsmall : method.trackLocks (small.map UInt64.toNat) with
  | ok tagged =>
    rw [Method.trackLocks_mono h0 hwf hle.toNat hsmall] at he
    cases he
  | error e => exact ⟨e, rfl⟩

/-- Under a smaller budget, no method is known to be less exposed. -/
theorem Session.covers_of_budgetLE (config : Config) :
    (Session.of program (config.withBudget small)).facts.Covers
      (Session.of program (config.withBudget large)).facts := by
  intro m g hg
  obtain ⟨method, hmethod, rfl, rfl⟩ := Session.get?_facts.1 hg
  obtain ⟨h0, hwf⟩ := Program.wellFormed_of_accepted hmethod
  exact .inr ⟨_, Session.get?_facts_of_accepted _ hmethod,
    Method.prepare_covers h0 hwf _ hle.toNat⟩

end Budgets

/-- **Smaller budgets hide nothing**: under a smaller budget, all that is reported under a larger
one is reported at least as surely, and the methods that are degraded there, and listed as such, are
degraded and listed here. -/
theorem analyze_smaller_budget (program : Program) (config : Config)
    (hmax : config.maxFixpointRounds = none) {small large : Option UInt64}
    (hle : BudgetLE small large) :
    (∀ f' ∈ (analyze program (config.withBudget large)).findings,
      ∃ f ∈ (analyze program (config.withBudget small)).findings, f.StandsFor f') ∧
    ∀ m, ((Session.of program (config.withBudget large)).Degrades m →
        (Session.of program (config.withBudget small)).Degrades m) ∧
      ((∃ note ∈ (analyze program (config.withBudget large)).notes,
          note.kind = .budgetExceeded ∧ note.method = some m) →
        ∃ note ∈ (analyze program (config.withBudget small)).notes,
          note.kind = .budgetExceeded ∧ note.method = some m) := by
  have hmax' : ∀ budget, (config.withBudget budget).maxFixpointRounds = none := fun _ => hmax
  refine ⟨fun f' hf' => ?_, fun m => ?_⟩
  · exact analyze_covers (Session.covers_of_budgetLE hle config) (fun _ => rfl) rfl rfl hmax hf'
  · rw [Session.degrades_iff (hmax' large), Session.degrades_iff (hmax' small),
      analyze_budgetNote_iff, analyze_budgetNote_iff]
    exact ⟨.mono hle, .mono hle⟩

/-- A shared cache that is filled in a loop under its lock and cleared without. -/
def Program.cache : Program where
  classes := [{ name := "Cache", annotations := { threadSafe := true } }]
  methods := [
    { id := ⟨0⟩
      name := "fill"
      declaringClass := "Cache"
      annotations := { synchronized := true }
      body := .ofBlocks [([⟨1, .write (.thisField "Cache" "entries")⟩], [0, 1]), ([], [])] },
    { id := ⟨1⟩
      name := "clear"
      declaringClass := "Cache"
      body := .ofBlocks [([⟨4, .write (.thisField "Cache" "entries")⟩], [])] }]

theorem analyze_smaller_budget_cache :
    BudgetLE (some (0 : UInt64)) (some 1) ∧
    (∃ f' ∈ (analyze .cache (({} : Config).withBudget (some 1))).findings,
      f'.IsOn (.field "Cache" "entries") ⟨0⟩ ⟨1⟩ ∧
      ∃ f ∈ (analyze .cache (({} : Config).withBudget (some 0))).findings, f.StandsFor f') ∧
    (∃ note ∈ (analyze .cache (({} : Config).withBudget (some 1))).notes,
      note.kind = .budgetExceeded ∧ note.method = some ⟨0⟩) ∧
    ∃ note ∈ (analyze .cache (({} : Config).withBudget (some 0))).notes,
      note.kind = .budgetExceeded ∧ note.method = some ⟨0⟩ := by
  have hle : BudgetLE (some (0 : UInt64)) (some 1) := by
    intro n hn
    exact ⟨0, rfl, Option.mem_some_iff.1 hn ▸ by decide⟩
  obtain ⟨hfindings, hdegraded⟩ := analyze_smaller_budget .cache {} rfl hle
  have hfinding : ∃ f' ∈ (analyze .cache (({} : Config).withBudget (some 1))).findings,
      f'.IsOn (.field "Cache" "entries") ⟨0⟩ ⟨1⟩ :=
    exists_finding_of_mem_keys rfl (by decide +kernel)
  have hnote : ∃ note ∈ (analyze .cache (({} : Config).withBudget (some 1))).notes,
      note.kind = .budgetExceeded ∧ note.method = some ⟨0⟩ := by decide +kernel
  obtain ⟨f', hf', hon⟩ := hfinding
  exact ⟨hle, ⟨f', hf', hon, hfindings f' hf'⟩, hnote, (hdegraded ⟨0⟩).2 hnote⟩

end Interlock
