import Interlock.Proofs.Coverage

/-!
# Malformed methods are isolated

A record that repeats a number is not looked at, and a method that fails the checks is
one that does nothing: the findings are those of the program without such records and
bodies. The method itself still counts: it can be called, it hides and overrides other
methods, and classes are known through it.

- `Program.firstRecords`: the first record of each number, `Intake.unique_eq`.
- `Program.repaired`: the program without repeated records and malformed bodies.
- `Program.mem_accepted_repaired`: all of its methods pass the checks.
- `Session.covers_repaired`, `Session.repaired_covers`: nothing but idle methods is added.
- `analyze_repaired`: the findings are the same.
-/

namespace Interlock

/-! ## First records -/

/-- The first record of each number, in order. -/
def Program.firstRecords (program : Program) : List Method :=
  program.methods.eraseDupsBy (·.id == ·.id)

/-- The records that are taken in as new are the first ones. -/
theorem Intake.unique_eq (methods : List Method) :
    (Intake.of methods).unique = methods.eraseDupsBy (·.id == ·.id) := by
  -- the list of erased duplicates is built from its end
  suffices hloop : ∀ (methods : List Method) (intake : Intake),
      (methods.foldl add intake).unique
        = List.eraseDupsBy.loop (·.id == ·.id) methods intake.unique.reverse by
    exact hloop methods {}
  intro methods
  induction methods with
  | nil =>
    intro intake
    exact (List.reverse_reverse intake.unique).symm
  | cons m methods ih =>
    intro intake
    -- a record is dropped if its number is among those taken in
    have hknown : intake.unique.reverse.any (m.id == ·.id)
        = decide (m.id ∈ intake.unique.map (·.id)) := by
      rw [Bool.eq_iff_iff, List.any_reverse, List.any_eq_true, decide_eq_true_eq, List.mem_map]
      exact exists_congr fun x => and_congr_right fun _ => by rw [beq_iff_eq, eq_comm]
    show (methods.foldl add (intake.add m)).unique
      = match intake.unique.reverse.any (m.id == ·.id) with
      | true => List.eraseDupsBy.loop (·.id == ·.id) methods intake.unique.reverse
      | false => List.eraseDupsBy.loop (·.id == ·.id) methods (m :: intake.unique.reverse)
    rw [ih, hknown, add]
    by_cases hm : m.id ∈ intake.unique.map (·.id)
    · rw [if_pos hm, decide_eq_true hm]
    · rw [if_neg hm, decide_eq_false hm, List.reverse_append]
      rfl

/-- Records with distinct numbers are all taken in. -/
theorem Intake.of_nodup {methods : List Method} (h : (methods.map (·.id)).Nodup) :
    Intake.of methods = { unique := methods } := by
  suffices hfold : ∀ (methods : List Method) (intake : Intake),
      ((intake.unique ++ methods).map (·.id)).Nodup →
        methods.foldl add intake = { intake with unique := intake.unique ++ methods } by
    exact hfold methods {} h
  intro methods
  induction methods with
  | nil =>
    intro intake _
    rw [List.append_nil]
    rfl
  | cons m methods ih =>
    intro intake hnodup
    have hnew : m.id ∉ intake.unique.map (·.id) := by
      rw [List.map_append, List.nodup_append] at hnodup
      exact fun hm => hnodup.2.2 m.id hm m.id (List.mem_cons_self ..) rfl
    have hadd : intake.add m = { intake with unique := intake.unique ++ [m] } := by
      rw [add, if_neg hnew]
    have happend : intake.unique ++ [m] ++ methods = intake.unique ++ m :: methods :=
      List.append_assoc ..
    rw [List.foldl_cons, hadd, ih]
    · rw [happend]
    · rw [happend]
      exact hnodup

/-! ## Repaired programs -/

/-- The method with a body in which nothing happens. -/
def Method.idle (m : Method) : Method := { m with body := .ofBlocks [([], [])] }

/-- The program without repeated records and with an idle body in place of each one that fails the
checks. -/
def Program.repaired (program : Program) : Program :=
  { program with
    methods := program.firstRecords.map fun m =>
      if (m.fault? (program.firstRecords.map (·.id))).isSome then m.idle else m }

namespace Method

theorem operations_idle (m : Method) (b : Nat) : m.idle.body.operations b = [] := by
  cases b <;> rfl

theorem fault?_idle (m : Method) (known : List MethodId) : m.idle.fault? known = none := rfl

/-- Where nothing happens there is nothing to tag. -/
theorem Tags.eq_nil {m : Method} {tagged : Tagged} (h : m.Tags tagged)
    (hnone : ∀ b, m.body.operations b = []) : tagged.accesses = [] ∧ tagged.calls = [] := by
  constructor
  · refine List.eq_nil_iff_forall_not_mem.2 fun a ha => ?_
    obtain ⟨op, hop, -⟩ := h.access a ha
    rw [hnone] at hop
    cases hop
  · refine List.eq_nil_iff_forall_not_mem.2 fun c hc => ?_
    obtain ⟨op, hop, -⟩ := h.call c hc
    rw [hnone] at hop
    cases hop

end Method

namespace Program

variable {program : Program} {m : Method}

/-- The accepted methods are the first records without a fault. -/
theorem mem_accepted : m ∈ program.accepted ↔
    m ∈ program.firstRecords ∧ m.fault? (program.firstRecords.map (·.id)) = none := by
  rw [accepted, Intake.unique_eq, List.mem_filter, Option.isNone_iff_eq_none]
  rfl

/-- Repairing a program changes no numbers. -/
theorem ids_repaired (program : Program) :
    program.repaired.methods.map (·.id) = program.firstRecords.map (·.id) := by
  rw [repaired, List.map_map]
  refine List.map_congr_left fun m _ => ?_
  show Method.id (if _ then _ else _) = m.id
  split <;> rfl

theorem nodup_firstRecords (program : Program) : (program.firstRecords.map (·.id)).Nodup := by
  rw [firstRecords, ← Intake.unique_eq]
  exact Intake.nodup_unique program.methods

/-- In a repaired program, all records are first ones. -/
theorem firstRecords_repaired (program : Program) :
    program.repaired.firstRecords = program.repaired.methods := by
  have hnodup : (program.repaired.methods.map (·.id)).Nodup := by
    rw [ids_repaired]
    exact program.nodup_firstRecords
  rw [firstRecords, ← Intake.unique_eq, Intake.of_nodup hnodup]

/-- The methods of a repaired program all pass the checks: they are the accepted ones of the program
and idle ones. -/
theorem mem_accepted_repaired : m ∈ program.repaired.accepted ↔
    m ∈ program.accepted ∨ ∃ m' ∈ program.firstRecords,
      m'.fault? (program.firstRecords.map (·.id)) ≠ none ∧ m = m'.idle := by
  rw [mem_accepted, mem_accepted, firstRecords_repaired, ids_repaired]
  constructor
  · rintro ⟨hm, -⟩
    obtain ⟨m', hm', rfl⟩ := List.mem_map.1 hm
    split
    · next hfault => exact .inr ⟨m', hm', Option.isSome_iff_ne_none.1 hfault, rfl⟩
    · next hfault => exact .inl ⟨hm', Option.not_isSome_iff_eq_none.1 hfault⟩
  · rintro (⟨hm, hfault⟩ | ⟨m', hm', hfault, rfl⟩)
    · refine ⟨List.mem_map.2 ⟨m, hm, ?_⟩, hfault⟩
      rw [hfault]
      rfl
    · refine ⟨List.mem_map.2 ⟨m', hm', ?_⟩, m'.fault?_idle _⟩
      rw [if_pos (Option.isSome_iff_ne_none.2 hfault)]

/-- The classes of a repaired program are alike. -/
theorem alike_repaired (program : Program) :
    program.repaired.hierarchy.Alike program.hierarchy := by
  refine Hierarchy.alike_of program.classes ?_
  rw [Intake.unique_eq, Intake.unique_eq]
  show program.repaired.firstRecords.map Method.interface
    = program.firstRecords.map Method.interface
  rw [firstRecords_repaired, repaired, List.map_map]
  refine List.map_congr_left fun m _ => ?_
  show Method.interface (if _ then _ else _) = m.interface
  split <;> rfl

end Program

/-! ## Analyses -/

/-- The hierarchy makes a difference to the facts of a method only by the context. -/
theorem Method.prepare_covers_of_classify {m : Method} {h h' : Hierarchy}
    (hclassify : h.classify m = h'.classify m) (budget : Option Nat) :
    (m.prepare h budget).1.Covers (m.prepare h' budget).1 := by
  refine MethodFacts.covers_of_tagged ?_ ?_
  · rw [prepare_thread, prepare_thread, hclassify]
  · rw [prepare, prepare]
    cases m.trackLocks budget <;> rfl

namespace Session

variable (program : Program) (config : Config)

/-- All facts of a program are facts of the repaired program. -/
theorem repaired_covers : (Session.of program.repaired config).facts.Covers
    (Session.of program config).facts := by
  intro m g hg
  obtain ⟨method, hmethod, rfl, rfl⟩ := get?_facts.1 hg
  have haccepted := Program.mem_accepted_repaired.2 (.inl hmethod)
  exact .inr ⟨_, get?_facts_of_accepted config haccepted,
    method.prepare_covers_of_classify (program.alike_repaired.classify rfl) _⟩

/-- The other facts of the repaired program are those of idle methods. -/
theorem covers_repaired : (Session.of program config).facts.Covers
    (Session.of program.repaired config).facts := by
  intro m g hg
  obtain ⟨method, hmethod, rfl, rfl⟩ := get?_facts.1 hg
  rcases Program.mem_accepted_repaired.1 hmethod with haccepted | ⟨faulty, -, -, rfl⟩
  · exact .inr ⟨_, get?_facts_of_accepted config haccepted,
      method.prepare_covers_of_classify (program.alike_repaired.symm.classify rfl) _⟩
  · exact .inl ((faulty.idle.tags_prepare _ _).eq_nil faulty.operations_idle)

end Session

/-- **Isolation of malformed methods**: repeated records and malformed bodies make no difference to
the findings. -/
theorem analyze_repaired (program : Program) (config : Config)
    (hmax : config.maxFixpointRounds = none) :
    (analyze program config).findings = (analyze program.repaired config).findings :=
  analyze_eq_of_covers program.alike_repaired.symm hmax (Session.covers_repaired program config)
    (Session.repaired_covers program config)

/-- A counter with malformed methods of all kinds. `reset` is repeated, and the second record of it
would write as well; `step` jumps to a block that does not exist, `load` has no blocks and `save`
calls a method that does not exist. -/
def Program.brokenCounter : Program where
  classes := [{ name := "Counter", annotations := { threadSafe := true } }]
  methods := [
    { id := ⟨0⟩
      name := "reset"
      declaringClass := "Counter"
      body := .ofBlocks [([⟨1, .write (.thisField "Counter" "value")⟩, ⟨2, .call ⟨1⟩ []⟩,
        ⟨3, .call ⟨3⟩ []⟩], [])] },
    { id := ⟨1⟩
      name := "step"
      declaringClass := "Counter"
      body := .ofBlocks [([⟨4, .write (.thisField "Counter" "value")⟩], [7])] },
    { id := ⟨0⟩
      name := "reset"
      declaringClass := "Counter"
      body := .ofBlocks [([⟨5, .write (.thisField "Counter" "limit")⟩], [])] },
    { id := ⟨2⟩
      name := "load"
      declaringClass := "Counter"
      body := .ofBlocks [] },
    { id := ⟨3⟩
      name := "save"
      declaringClass := "Counter"
      body := .ofBlocks [([⟨6, .read (.thisField "Counter" "value")⟩, ⟨7, .call ⟨9⟩ []⟩], [])] }]

theorem analyze_repaired_brokenCounter :
    (∃ f ∈ (analyze .brokenCounter {}).findings, f.IsOn (.field "Counter" "value") ⟨0⟩ ⟨0⟩) ∧
    Program.brokenCounter.repaired.methods.map (fun m => (m.id.val, m.body.size))
      = [(0, 1), (1, 1), (2, 1), (3, 1)] ∧
    (analyze .brokenCounter {}).findings = (analyze Program.brokenCounter.repaired {}).findings :=
  ⟨exists_finding_of_mem_keys rfl (by decide +kernel), by decide +kernel,
    analyze_repaired .brokenCounter {} rfl⟩

end Interlock
