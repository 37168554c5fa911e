import Interlock.Proofs.Budgets
import Interlock.Proofs.RaceGist
import Interlock.Proofs.UnlinedSummaries

/-!
# Line numbers are for reports

Two programs that differ in the lines of operations only are analysed alike: the findings
say the same but for locations, the same methods are degraded, and every component has the
same outcome up to the lines, after the same number of rounds. The findings themselves may
be about other accesses, for of several conflicts the one with the smallest locations is
reported, and locations are compared by line first.

- `Session.echoes_unlined`, `Session.unlined_echoes`: a program and the program without
  lines have the same accesses up to locations.
- `analyze_lines`: two programs with the same operations.
-/

namespace Interlock

theorem AccessEvent.nature_unlined (e : AccessEvent) : e.unlined.nature = e.nature := rfl

namespace Session

variable (program : Program) (config : Config)

/-- What the races of a session are collected from. -/
def races (s : Session) : Collection := s.collection s.store

theorem races_of : (Session.of program config).races = ⟨program.hierarchy,
    (Session.of program config).builder.finished? (Session.of program config).store,
    config.strictThreadContext⟩ := rfl

/-- Each access has one without its line that is of the same nature. -/
theorem echoes_unlined :
    (Session.of program config).races.Echoes (Session.of program.unlined config).races := by
  rw [races_of, races_of]
  refine ⟨program.alike_unlined.symm, rfl, fun m s hs => ⟨s.unlined, ?_, fun e he => ?_⟩⟩
  · dsimp only at hs ⊢
    rw [finished?_unlined, hs, Option.map_some]
  · exact ⟨e.unlined, Summary.mem_accesses_unlined.2 ⟨e, he, rfl⟩, e.nature_unlined⟩

/-- And each access without a line comes from one that is of the same nature. -/
theorem unlined_echoes :
    (Session.of program.unlined config).races.Echoes (Session.of program config).races := by
  rw [races_of, races_of]
  refine ⟨program.alike_unlined, rfl, fun m s hs => ?_⟩
  dsimp only at hs
  rw [finished?_unlined] at hs
  obtain ⟨s, hfinished, rfl⟩ := Option.map_eq_some_iff.1 hs
  refine ⟨s, hfinished, fun e he => ?_⟩
  obtain ⟨e', he', rfl⟩ := Summary.mem_accesses_unlined.1 he
  exact ⟨e', he', e'.nature_unlined.symm⟩

/-- The same methods are degraded without lines. -/
theorem degrades_unlined (m : MethodId) :
    (Session.of program.unlined config).Degrades m ↔ (Session.of program config).Degrades m := by
  rw [Degrades, Degrades, finished?_unlined]
  constructor
  · rintro ⟨_, hs, hdegraded⟩
    obtain ⟨s, hfinished, rfl⟩ := Option.map_eq_some_iff.1 hs
    exact ⟨s, hfinished, hdegraded⟩
  · rintro ⟨s, hs, hdegraded⟩
    exact ⟨s.unlined, by rw [hs, Option.map_some], hdegraded⟩

end Session

/-- The findings say the same without lines, but for locations. -/
theorem gist_findings_unlined (program : Program) (config : Config) :
    ((analyze program.unlined config).findings.map Finding.gist).Perm
      ((analyze program config).findings.map Finding.gist) :=
  Collection.gist_findings (Session.owned program.unlined config) (Session.owned program config)
    (Session.unlined_echoes program config) (Session.echoes_unlined program config)

/-- **Line numbers are for reports**: they make no difference but to what is reported as a location.
Two programs that are the same without lines have findings that say the same, as many of them, the
same degraded methods, and the same call graph with the same outcomes up to lines. -/
theorem analyze_lines {program program' : Program} (h : program.unlined = program'.unlined)
    (config : Config) :
    ((analyze program config).findings.map Finding.gist).Perm
      ((analyze program' config).findings.map Finding.gist) ∧
    (analyze program config).findings.length = (analyze program' config).findings.length ∧
    (analyze program config).notes.filter (·.kind = .budgetExceeded)
      = (analyze program' config).notes.filter (·.kind = .budgetExceeded) ∧
    (∀ m, (Session.of program config).Degrades m ↔ (Session.of program' config).Degrades m) ∧
    (Session.of program config).graph = (Session.of program' config).graph ∧
    ∀ c < (Session.of program config).graph.size,
      ((Session.of program config).store.get? c).map Outcome.unlined
        = ((Session.of program' config).store.get? c).map Outcome.unlined := by
  -- everything is compared through the program without lines, which is the same for both
  have hgist : ((analyze program config).findings.map Finding.gist).Perm
      ((analyze program' config).findings.map Finding.gist) := by
    have hunlined := gist_findings_unlined program config
    rw [h] at hunlined
    exact hunlined.symm.trans (gist_findings_unlined program' config)
  have hnotes : ((analyze program config).notes.filter (·.kind = .budgetExceeded)).Perm
      ((analyze program' config).notes.filter (·.kind = .budgetExceeded)) := by
    have hunlined := analyze_budgetNotes_unlined program config
    rw [h] at hunlined
    exact hunlined.symm.trans (analyze_budgetNotes_unlined program' config)
  have hgraph : (Session.of program config).graph = (Session.of program' config).graph := by
    have hbuilder : (Session.of program config).builder.unlined
        = (Session.of program' config).builder.unlined := by
      rw [← Session.builder_unlined, ← Session.builder_unlined, h]
    exact (congrArg Builder.graph hbuilder :)
  refine ⟨hgist, ?_, ?_, fun m => ?_, hgraph, fun c hc => ?_⟩
  · -- the gists are as many as the findings
    have hlength := hgist.length_eq
    rw [List.length_map, List.length_map] at hlength
    exact hlength
  · exact Note.eq_of_sorted_perm ((Note.pairwise_sort _).filter _) ((Note.pairwise_sort _).filter _)
      hnotes
  · rw [← Session.degrades_unlined program, ← Session.degrades_unlined program', h]
  · rw [← Session.get?_store_unlined program config hc,
      ← Session.get?_store_unlined program' config (hgraph ▸ hc), h]

/-- A counter that is written twice, on the given lines. -/
def Program.tally (first second : UInt32) : Program where
  classes := [{ name := "Tally" }]
  methods := [
    { id := ⟨0⟩
      name := "add"
      declaringClass := "Tally"
      body := .ofBlocks [([⟨first, .write (.thisField "Tally" "sum")⟩,
        ⟨second, .write (.thisField "Tally" "sum")⟩], [])] }]

/-- With the lines exchanged the finding says the same of another place: of the two writes, the one
on the smaller line is reported. -/
theorem analyze_lines_tally : (Program.tally 5 9).unlined = (Program.tally 9 5).unlined ∧
    ((analyze (.tally 5 9) {}).findings.map Finding.gist).Perm
      ((analyze (.tally 9 5) {}).findings.map Finding.gist) ∧
    (∃ f ∈ (analyze (.tally 5 9) {}).findings, f.locationA.op = 0) ∧
    ∃ f ∈ (analyze (.tally 9 5) {}).findings, f.locationA.op = 1 := by
  have hplace : ∀ (program : Program) (place : Nat),
      ((Session.of program {}).races.best.get? (.of (.field "Tally" "sum") ⟨0⟩ ⟨0⟩)).any
        (·.first.location.op = place) = true →
      ∃ f ∈ (analyze program {}).findings, f.locationA.op = place := by
    intro program place h
    obtain ⟨kept, hkept, hop⟩ := Option.any_eq_true .. |>.1 h
    exact ⟨_, Collection.mem_findings.2 ⟨_, kept, hkept, Confidence.low_le _, rfl⟩,
      of_decide_eq_true hop⟩
  have hlines : (Program.tally 5 9).unlined = (Program.tally 9 5).unlined := by decide +kernel
  exact ⟨hlines, (analyze_lines hlines {}).1, hplace _ _ (by decide +kernel),
    hplace _ _ (by decide +kernel)⟩

end Interlock
