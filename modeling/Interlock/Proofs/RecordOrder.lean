import Interlock.Proofs.ClassRecords
import Interlock.Proofs.Isolation
import Interlock.Proofs.Notes

/-!
# The order of records does not matter

If methods have distinct numbers and classes distinct names, their records can come in
any order. The facts about methods, and with them the call graph and all summaries, are
the same; notes are sorted by all they say. Classes expose their accesses in another
order, and so the two accesses of a candidate may be exchanged if they are at the same
location; nothing else about a finding changes.

- `Program.Reordered`: the same records in another order.
- `Session.facts_of_reordered`, `Session.notes_of_reordered`: what is known before summaries.
- `Collection.exists_twin`: the candidates are the same, up to accesses at one location.
- `Finding.outline`: a finding without kinds and message.
- `analyze_reordered`: notes and outlines of findings are the same.
-/

namespace Interlock

/-! ## Facts and notes -/

/-- `program.Reordered program'`: the same records in another order. Methods have distinct numbers
and classes distinct names. -/
structure Program.Reordered (program program' : Program) : Prop where
  methods : program.methods.Perm program'.methods
  classes : program.classes.Perm program'.classes
  nodup_ids : (program.methods.map (·.id)).Nodup
  nodup_names : (program.classes.map (·.name)).Nodup

namespace Program.Reordered

variable {program program' : Program} (hs : program.Reordered program')

include hs

theorem symm : program'.Reordered program where
  methods := hs.methods.symm
  classes := hs.classes.symm
  nodup_ids := (hs.methods.map _).nodup_iff.1 hs.nodup_ids
  nodup_names := (hs.classes.map _).nodup_iff.1 hs.nodup_names

/-- No record is repeated, so all are taken in as they come. -/
theorem intake : Intake.of program.methods = { unique := program.methods } :=
  Intake.of_nodup hs.nodup_ids

/-- The classes expose the same methods, in another order. -/
theorem hierarchy : program.hierarchy.Reordered program'.hierarchy := by
  rw [Program.hierarchy, Program.hierarchy, hs.intake, hs.symm.intake]
  exact Hierarchy.reordered_of hs.classes hs.nodup_names hs.methods

/-- The hierarchy makes a difference to what is prepared of a method only by the context. -/
theorem prepare (m : Method) (budget : Option Nat) :
    m.prepare program.hierarchy budget = m.prepare program'.hierarchy budget := by
  rw [Method.prepare, Method.prepare, hs.hierarchy.classify]

theorem fault? (m : Method) :
    m.fault? (program.methods.map (·.id)) = m.fault? (program'.methods.map (·.id)) :=
  m.fault?_congr fun _ => (hs.methods.map _).mem_iff

/-- The same methods pass the checks. -/
theorem accepted : program.accepted.Perm program'.accepted := by
  rw [Program.accepted, Program.accepted, hs.intake, hs.symm.intake]
  simp only [hs.fault?]
  exact hs.methods.filter _

end Program.Reordered

namespace Session

variable {program program' : Program} (hs : program.Reordered program') (config : Config)

include hs

/-- The facts are kept by the numbers of methods, so they are the same. -/
theorem facts_of_reordered : (Session.of program config).facts = (Session.of program' config).facts
    := by
  refine SortedMap.ext_get? fun m => Option.ext fun f => ?_
  have hprepare : ∀ method : Method,
      method.prepare (Session.of program config).hierarchy
          (config.perMethodBudget.map UInt64.toNat)
        = method.prepare (Session.of program' config).hierarchy
          (config.perMethodBudget.map UInt64.toNat) := fun method => hs.prepare method _
  rw [get?_facts, get?_facts]
  simp only [hprepare, hs.accepted.mem_iff]

/-- The same notes come up, in another order. -/
theorem notes_of_reordered :
    (Session.of program config).notes.Perm (Session.of program' config).notes := by
  rw [notes_of, notes_of, hs.intake, hs.symm.intake]
  refine .append (.append .nil ?_) ?_
  · simp only [hs.fault?]
    exact hs.methods.filterMap _
  · simp only [hs.prepare]
    exact hs.accepted.flatMap_right _

/-- **Summaries**: they are built from the facts alone. -/
theorem builder_of_reordered :
    (Session.of program config).builder = (Session.of program' config).builder := by
  rw [builder_eq, builder_eq, facts_of_reordered hs]

/-- Methods go by the same names. -/
theorem nameOf_of_reordered :
    (Session.of program config).nameOf = (Session.of program' config).nameOf := by
  have hname : ∀ (program : Program) (m : MethodId), (Session.of program config).nameOf m
      = (((Intake.of program.methods).unique.find? (·.id = m)).map Method.qualifiedName).getD
          m.render := fun _ _ => rfl
  funext m
  rw [hname, hname, hs.intake, hs.symm.intake, find?_eq_of_perm _ hs.methods hs.nodup_ids]

theorem componentNotes_of_reordered (store : Store) (component : Nat) :
    (Session.of program config).componentNotes store component
      = (Session.of program' config).componentNotes store component := by
  rw [componentNotes, componentNotes, nameOf_of_reordered hs]

/-- The same components fail, and are told of in the same order. -/
theorem incompleteNotes_of_reordered :
    (Session.of program config).incompleteNotes (Session.of program config).store
      = (Session.of program' config).incompleteNotes (Session.of program' config).store := by
  have hbuilder := builder_of_reordered hs config
  have hgraph : (Session.of program config).graph = (Session.of program' config).graph :=
    congrArg Builder.graph hbuilder
  have hstore : (Session.of program config).store = (Session.of program' config).store :=
    congrArg (Builder.buildAll · {}) hbuilder
  rw [incompleteNotes_eq, incompleteNotes_eq, hgraph, hstore]
  exact List.flatMap_congr fun c _ => componentNotes_of_reordered hs config _ c

end Session

/-! ## Candidates -/

namespace Collection

/-- `c.Reordered c'`: the same summaries, and the methods of classes in another order. -/
structure Reordered (c c' : Collection) : Prop where
  hierarchy : c.hierarchy.Reordered c'.hierarchy
  summaryOf : c.summaryOf = c'.summaryOf
  strict : c.strict = c'.strict

variable {c c' : Collection}

theorem Reordered.symm (hs : c.Reordered c') : c'.Reordered c :=
  ⟨hs.hierarchy.symm, hs.summaryOf.symm, hs.strict.symm⟩

/-- A class exposes the same accesses, in another order. -/
theorem mem_exposed_of_reordered (hs : c.Reordered c') {className : String} {e : AccessEvent} :
    e ∈ c.exposed className ↔ e ∈ c'.exposed className := by
  rw [mem_exposed, mem_exposed, hs.summaryOf]
  simp only [(hs.hierarchy.visibleMethods className).mem_iff]

/-- Each candidate has one for the same key that no rank tells apart from it. -/
theorem exists_twin (hs : c.Reordered c') {k : RaceKey} {candidate : Candidate}
    (h : (k, candidate) ∈ c.candidates) :
    ∃ candidate', (k, candidate') ∈ c'.candidates ∧ candidate'.Twin candidate := by
  obtain ⟨className, hclass, path, a, b, hpair, hconflict, hentry⟩ := mem_candidates.1 h
  obtain ⟨rfl, rfl⟩ := Prod.mk.inj hentry
  obtain ⟨ha, hb⟩ := mem_of_mem_pairsUp hpair
  simp only [List.mem_filter, decide_eq_true_eq] at ha hb
  rw [hs.hierarchy.classNames] at hclass
  rw [hs.strict] at hconflict
  rw [hs.hierarchy.ancestors]
  -- the pair comes up the other way round, if its accesses are exposed in the other order
  rcases mem_candidates_of_conflict hclass ((mem_exposed_of_reordered hs).1 ha.1)
    ((mem_exposed_of_reordered hs).1 hb.1) (ha.2.trans hb.2.symm) hconflict with hof | hof
  · exact ⟨_, hof, ⟨rfl, rfl, rfl, rfl, rfl, rfl⟩⟩
  · exact ⟨_, hof, Candidate.twin_of_comm ..⟩

/-- What is kept for a key is preferred to what the other order keeps for it. -/
theorem best_le_of_reordered (hs : c.Reordered c') {k : RaceKey} {kept kept' : Candidate}
    (hkept : c.best.get? k = some kept) (hkept' : c'.best.get? k = some kept') :
    (kept.preference kept').isLE = true := by
  obtain ⟨candidate, hcandidate, htwin⟩ :=
    exists_twin hs.symm (mem_candidates_of_get?_best hkept')
  obtain ⟨best, hbest, hle⟩ := exists_best_le hcandidate
  obtain rfl := Option.some_inj.1 (hkept.symm.trans hbest)
  exact Std.TransCmp.isLE_trans hle (by rw [Candidate.twin_iff.2 htwin]; rfl)

/-- What is kept for a key is the same, up to accesses at one location. -/
theorem exists_twin_best (hs : c.Reordered c') {k : RaceKey} {kept : Candidate}
    (hkept : c.best.get? k = some kept) :
    ∃ kept', c'.best.get? k = some kept' ∧ kept.Twin kept' := by
  obtain ⟨candidate', hcandidate', -⟩ := exists_twin hs (mem_candidates_of_get?_best hkept)
  obtain ⟨kept', -, hkept'⟩ := get?_best hcandidate'
  refine ⟨kept', hkept', Candidate.twin_iff.1 ?_⟩
  -- each of the two is preferred to the other, so no rank tells them apart
  have hle := best_le_of_reordered hs hkept hkept'
  have hge := best_le_of_reordered hs.symm hkept' hkept
  have hswap : kept'.preference kept = (kept.preference kept').swap := Std.OrientedCmp.eq_swap
  rw [hswap] at hge
  cases horder : kept.preference kept' with
  | lt => simp [horder] at hge
  | eq => rfl
  | gt => simp [horder] at hle

end Collection

/-! ## Findings -/

/-- A finding without the kinds of its accesses and its message, and whether both accesses write. -/
def Finding.outline (f : Finding) : Finding × Bool :=
  ({ f with kindA := .read, kindB := .read, message := "" }, f.kindA.isWrite && f.kindB.isWrite)

namespace Collection

variable {c c' : Collection} (howned : c.Owned) (howned' : c'.Owned) (hs : c.Reordered c')
  {minConfidence : Confidence}

include howned howned' hs

/-- Each finding has one with the same outline. -/
theorem exists_outline {f : Finding} (hf : f ∈ c.findings minConfidence) :
    ∃ f' ∈ c'.findings minConfidence, f.outline = f'.outline := by
  obtain ⟨k, kept, hkept, hmin, rfl⟩ := mem_findings.1 hf
  obtain ⟨kept', hkept', htwin⟩ := exists_twin_best hs hkept
  have hf' : Finding.ofCandidate c'.nameOf kept' ∈ c'.findings minConfidence :=
    mem_findings.2 ⟨k, kept', hkept', htwin.confidence ▸ hmin, rfl⟩
  refine ⟨_, hf', ?_⟩
  -- the methods are those of the locations, and the key tells the path
  obtain ⟨hA, hB⟩ := howned.methods_of_mem_findings hf
  obtain ⟨hA', hB'⟩ := howned'.methods_of_mem_findings hf'
  have hkey : kept.key = kept'.key := by
    rw [key_of_mem_candidates (mem_candidates_of_get?_best hkept),
      key_of_mem_candidates (mem_candidates_of_get?_best hkept')]
  have hpath : kept.first.path = kept'.first.path := (RaceKey.of_eq_of hkey).1
  have hownerA : kept.first.owner = kept'.first.owner :=
    hA.trans ((congrArg Location.method htwin.first).trans hA'.symm)
  have hownerB : kept.second.owner = kept'.second.owner :=
    hB.trans ((congrArg Location.method htwin.second).trans hB'.symm)
  have hwrite : (kept.first.kind.isWrite && kept.second.kind.isWrite)
      = (kept'.first.kind.isWrite && kept'.second.kind.isWrite) := htwin.isWriteWrite
  simp only [Finding.outline, Finding.ofCandidate, htwin.className, htwin.confidence, htwin.first,
    htwin.second, hpath, hownerA, hownerB, hwrite]

/-- **Findings**: they have the same outlines in the same order. -/
theorem outline_findings : (c.findings minConfidence).map Finding.outline
    = (c'.findings minConfidence).map Finding.outline := by
  -- the outline keeps what findings are sorted by, and no two findings are sorted alike
  have hsorted : ∀ {c : Collection}, c.Owned →
      ((c.findings minConfidence).map Finding.outline).Pairwise fun x y => x.1.order y.1 = .lt :=
    fun howned => List.pairwise_map.2 howned.pairwise_findings
  have hnodup : ∀ {c : Collection}, c.Owned →
      ((c.findings minConfidence).map Finding.outline).Nodup := by
    intro c howned
    refine (hsorted howned).imp fun {x y} hlt heq => ?_
    subst heq
    have hself : x.1.order x.1 = .eq := Std.ReflCmp.compare_self
    rw [hself] at hlt
    cases hlt
  have hperm : ((c.findings minConfidence).map Finding.outline).Perm
      ((c'.findings minConfidence).map Finding.outline) := by
    refine (List.perm_ext_iff_of_nodup (hnodup howned) (hnodup howned')).2 fun x => ?_
    rw [List.mem_map, List.mem_map]
    constructor
    · rintro ⟨f, hf, rfl⟩
      obtain ⟨f', hf', heq⟩ := exists_outline howned howned' hs hf
      exact ⟨f', hf', heq.symm⟩
    · rintro ⟨f', hf', rfl⟩
      obtain ⟨f, hf, heq⟩ := exists_outline howned' howned hs.symm hf'
      exact ⟨f, hf, heq.symm⟩
  refine List.Perm.eq_of_pairwise (fun x y _ _ hlt hgt => ?_) (hsorted howned) (hsorted howned')
    hperm
  exact absurd (Std.OrientedCmp.gt_of_lt hgt) (by rw [hlt]; decide)

end Collection

/-- **The order of records does not matter**: the notes are the same; the findings are the same in
number, order and everything but the kinds of their accesses and the message, and where both
accesses write they still do. -/
theorem analyze_reordered {program program' : Program} (hs : program.Reordered program')
    (config : Config) :
    (analyze program config).notes = (analyze program' config).notes ∧
    (analyze program config).findings.map Finding.outline
      = (analyze program' config).findings.map Finding.outline := by
  constructor
  · show Note.sort _ = Note.sort _
    rw [Session.incompleteNotes_of_reordered hs]
    exact Note.sort_eq_of_perm ((Session.notes_of_reordered hs config).append_right _)
  · rw [analyze_findings, analyze_findings]
    -- a collection asks the builder for the summaries
    have hcollection : ∀ program, (Session.of program config).collection
        (Session.of program config).store
        = ⟨program.hierarchy, (Session.of program config).builder.finished?
            ((Session.of program config).builder.buildAll {}), config.strictThreadContext⟩ :=
      fun _ => rfl
    refine Collection.outline_findings (Session.owned program config)
      (Session.owned program' config) ?_
    rw [hcollection, hcollection, Session.builder_of_reordered hs]
    exact ⟨hs.hierarchy, rfl, rfl⟩

/-- The records of a program from the last to the first. -/
def Program.reversed (program : Program) : Program :=
  ⟨program.classes.reverse, program.methods.reverse⟩

/-- Two methods of a meter call a private one, which reads without a lock and writes under one. Of
both there is a read and a write at the same location, and only a read and a write conflict. -/
def Program.meter : Program where
  classes := [{ name := "Meter" }, { name := "Gauge", superclasses := ["Meter"] }]
  methods := [
    { id := ⟨0⟩
      name := "start"
      declaringClass := "Meter"
      body := .ofBlocks [([⟨1, .call ⟨2⟩ []⟩], [])] },
    { id := ⟨1⟩
      name := "stop"
      declaringClass := "Meter"
      body := .ofBlocks [([⟨2, .call ⟨2⟩ []⟩], [])] },
    { id := ⟨2⟩
      name := "touch"
      declaringClass := "Meter"
      annotations := { isPrivate := true }
      body := .ofBlocks [([⟨3, .read (.thisField "Meter" "ticks")⟩, ⟨4, .acquire .receiver⟩,
        ⟨5, .write (.thisField "Meter" "ticks")⟩, ⟨6, .release .receiver⟩], [])] }]

/-- The kinds of the accesses do change: of the two conflicts at one pair of locations, the one that
comes up first is reported. -/
theorem analyze_reordered_meter : Program.meter.Reordered Program.meter.reversed ∧
    (analyze .meter {}).notes = (analyze Program.meter.reversed {}).notes ∧
    (analyze .meter {}).findings.map Finding.outline
      = (analyze Program.meter.reversed {}).findings.map Finding.outline ∧
    (∃ f ∈ (analyze .meter {}).findings,
      f.IsOn (.field "Meter" "ticks") ⟨0⟩ ⟨1⟩ ∧ f.kindA = .read) ∧
    ∃ f ∈ (analyze Program.meter.reversed {}).findings,
      f.IsOn (.field "Meter" "ticks") ⟨0⟩ ⟨1⟩ ∧ f.kindA = .write := by
  have hs : Program.meter.Reordered Program.meter.reversed :=
    ⟨(List.reverse_perm _).symm, (List.reverse_perm _).symm, by decide, by decide⟩
  have hkind : ∀ (program : Program) (kind : AccessKind),
      (((Session.of program {}).collection (Session.of program {}).store).best.get?
        (.of (.field "Meter" "ticks") ⟨0⟩ ⟨1⟩)).any (·.first.kind = kind) = true →
      ∃ f ∈ (analyze program {}).findings,
        f.IsOn (.field "Meter" "ticks") ⟨0⟩ ⟨1⟩ ∧ f.kindA = kind := by
    intro program kind h
    obtain ⟨kept, hkept, hkind⟩ := Option.any_eq_true .. |>.1 h
    have hkey := Collection.key_of_mem_candidates (Collection.mem_candidates_of_get?_best hkept)
    exact ⟨_, Collection.mem_findings.2 ⟨_, kept, hkept, Confidence.low_le _, rfl⟩,
      RaceKey.of_eq_of hkey, of_decide_eq_true hkind⟩
  obtain ⟨hnotes, hfindings⟩ := analyze_reordered hs {}
  exact ⟨hs, hnotes, hfindings, hkind _ _ (by decide +kernel), hkind _ _ (by decide +kernel)⟩

end Interlock
