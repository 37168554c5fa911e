import Interlock.Proofs.Coverage
import Interlock.Proofs.Representatives

/-!
# Strict mode and the confidence filter

Strict mode drops conflicts between accesses of unknown context, and the filter drops
findings of low confidence. Neither touches a finding of high confidence: it is about two
accesses in the background, which may overlap in either mode, and no candidate of low
confidence takes its place.

- `Collection.withStrict`: the same summaries in another mode.
- `Collection.sure_candidates`: the candidates of high confidence are the same in both modes.
- `Collection.sure_foldl_keep`: what is kept of high confidence depends on them alone.
- `Collection.sure_findings`: the findings of high confidence.
- `analyze_strictness`: what the settings do to a report.
-/

namespace Interlock

/-! ## Candidates of high confidence -/

namespace Candidate

/-- Whether the confidence is high. -/
def isSure (c : Candidate) : Bool := c.confidence = .high

/-- The confidence of a candidate is high exactly if both accesses are in the background. -/
theorem isSure_of {className : String} {ancestors : Nat} {a b : AccessEvent} :
    (of className ancestors a b).isSure = true ↔
      a.thread = .background ∧ b.thread = .background := by
  rw [isSure, confidence_of, decide_eq_true_eq]
  split
  · next h => exact iff_of_true rfl h
  · next h => exact iff_of_false nofun h

/-- A candidate of high confidence goes before one of low confidence. -/
theorem order_of_isSure {c d : Candidate} (hc : c.isSure = true) (hd : d.isSure = false) :
    c.order d = .lt := by
  have hhigh : c.confidence = .high := of_decide_eq_true hc
  have hlow : d.confidence = .low := by
    cases hconfidence : d.confidence with
    | low => rfl
    | high => exact absurd hconfidence (of_decide_eq_false hd)
  simp only [order, compareLex, compareOn, hhigh, hlow]
  rfl

end Candidate

/-- What conflicts in strict mode conflicts in either mode. -/
theorem AccessEvent.conflictsWith_of_strict {a b : AccessEvent} (strict : Bool)
    (h : a.conflictsWith true b = true) : a.conflictsWith strict b = true := by
  simp only [conflictsWith, Bool.and_eq_true] at h ⊢
  obtain ⟨⟨hwrite, hthreads⟩, hlocks⟩ := h
  refine ⟨⟨hwrite, ?_⟩, hlocks⟩
  revert hthreads
  cases a.thread <;> cases b.thread <;> simp [ThreadContext.mayRunInParallel]

/-- Accesses in the background may overlap in either mode. -/
theorem AccessEvent.conflictsWith_background {a b : AccessEvent} (ha : a.thread = .background)
    (strict strict' : Bool) : a.conflictsWith strict b = a.conflictsWith strict' b := by
  rw [conflictsWith, conflictsWith, ha]
  rfl

namespace Collection

/-- The same summaries in the given mode. -/
def withStrict (c : Collection) (strict : Bool) : Collection := { c with strict }

variable (c : Collection) (strict strict' : Bool)

/-- The candidates of high confidence on one path are the same in both modes. -/
theorem sure_candidatesOn (className : String) (ancestors : Nat) (events : List AccessEvent) :
    ((c.withStrict strict).candidatesOn className ancestors events).filter (·.2.isSure)
      = ((c.withStrict strict').candidatesOn className ancestors events).filter (·.2.isSure) := by
  rw [candidatesOn, candidatesOn, List.filter_filterMap, List.filter_filterMap]
  refine List.filterMap_congr fun pair _ => ?_
  obtain ⟨a, b⟩ := pair
  by_cases hsure : (Candidate.of className ancestors a b).isSure = true
  · have hsame := AccessEvent.conflictsWith_background (b := b) (Candidate.isSure_of.1 hsure).1
      strict strict'
    show Option.filter _ (if a.conflictsWith strict b = true then _ else _)
      = Option.filter _ (if a.conflictsWith strict' b = true then _ else _)
    rw [hsame]
  · -- in neither mode is there a candidate of high confidence
    have hnone : ∀ conflict : Bool, Option.filter (fun e : RaceKey × Candidate => e.2.isSure)
        (if conflict = true then some (RaceKey.of a.path a.owner b.owner,
          Candidate.of className ancestors a b) else none) = none := by
      intro conflict
      cases conflict with
      | false => rfl
      | true => simp [hsure]
    exact (hnone _).trans (hnone _).symm

/-- The candidates of high confidence are the same in both modes. -/
theorem sure_candidates : (c.withStrict strict).candidates.filter (·.2.isSure)
    = (c.withStrict strict').candidates.filter (·.2.isSure) := by
  simp only [candidates, candidatesIn, List.filter_flatMap]
  refine List.flatMap_congr fun className _ => List.flatMap_congr fun path _ => ?_
  exact c.sure_candidatesOn strict strict' _ _ _

/-! ## What is kept -/

/-- `KeepsSure best sure`: what is kept of high confidence in `best` is what is kept in `sure`. -/
def KeepsSure (best sure : SortedMap RaceKey Candidate) : Prop :=
  ∀ k, (best.get? k).filter (·.isSure) = sure.get? k

/-- An entry of high confidence replaces one of low confidence, and the same of high confidence in
both. -/
theorem KeepsSure.keep_of_isSure {best sure : SortedMap RaceKey Candidate}
    (h : KeepsSure best sure) {entry : RaceKey × Candidate} (hentry : entry.2.isSure = true) :
    KeepsSure (keep best entry) (keep sure entry) := by
  intro k
  rw [keep, keep, SortedMap.get?_alter, SortedMap.get?_alter]
  by_cases hk : k = entry.1
  · rw [if_pos hk, if_pos hk, ← hk, ← h k]
    cases best.get? k with
    | none => exact Option.filter_some_pos hentry
    | some kept =>
      by_cases hkept : kept.isSure = true
      · rw [Option.filter_some_pos hkept]
        dsimp only
        split
        · exact Option.filter_some_pos hentry
        · exact Option.filter_some_pos hkept
      · have hlt := Candidate.order_of_isSure hentry (Bool.eq_false_iff.2 hkept)
        rw [Option.filter_some_neg (Bool.eq_false_iff.2 hkept)]
        dsimp only
        rw [if_pos hlt]
        exact Option.filter_some_pos hentry
  · rw [if_neg hk, if_neg hk]
    exact h k

/-- An entry of low confidence replaces none of high confidence. -/
theorem KeepsSure.keep_of_not_isSure {best sure : SortedMap RaceKey Candidate}
    (h : KeepsSure best sure) {entry : RaceKey × Candidate} (hentry : entry.2.isSure = false) :
    KeepsSure (keep best entry) sure := by
  intro k
  rw [keep, SortedMap.get?_alter]
  by_cases hk : k = entry.1
  · rw [if_pos hk, ← h k, ← hk]
    have hfilter : Option.filter (·.isSure) (some entry.2) = none :=
      Option.filter_some_neg hentry
    cases best.get? k with
    | none => exact hfilter
    | some kept =>
      dsimp only
      split
      · next hlt =>
        by_cases hkept : kept.isSure = true
        · -- what is kept is of high confidence, so it goes before the entry
          have hgt : entry.2.order kept = .gt :=
            Std.OrientedCmp.gt_of_lt (Candidate.order_of_isSure hkept hentry)
          rw [hgt] at hlt
          cases hlt
        · rw [hfilter, Option.filter_some_neg (Bool.eq_false_iff.2 hkept)]
      · rfl
  · rw [if_neg hk]
    exact h k

/-- Entries of low confidence do not matter for what is kept of high confidence. -/
theorem sure_foldl_keep {entries : List (RaceKey × Candidate)}
    {best sure : SortedMap RaceKey Candidate} (h : KeepsSure best sure) :
    KeepsSure (entries.foldl keep best) ((entries.filter (·.2.isSure)).foldl keep sure) := by
  induction entries generalizing best sure with
  | nil => exact h
  | cons entry entries ih =>
    by_cases hentry : entry.2.isSure = true
    · rw [List.filter_cons_of_pos (p := fun e : RaceKey × Candidate => e.2.isSure) hentry]
      exact ih (h.keep_of_isSure hentry)
    · rw [List.filter_cons_of_neg (p := fun e : RaceKey × Candidate => e.2.isSure) hentry]
      exact ih (h.keep_of_not_isSure (Bool.eq_false_iff.2 hentry))

/-- What is kept of high confidence is the same in both modes. -/
theorem sure_best (k : RaceKey) : ((c.withStrict strict).best.get? k).filter (·.isSure)
    = ((c.withStrict strict').best.get? k).filter (·.isSure) := by
  have hempty : KeepsSure ∅ ∅ := fun k => by
    rw [SortedMap.get?_empty]
    rfl
  have hsure : ∀ strict, ((c.withStrict strict).best.get? k).filter (·.isSure)
      = (((c.withStrict strict).candidates.filter (·.2.isSure)).foldl keep ∅).get? k :=
    fun strict => sure_foldl_keep hempty k
  rw [hsure, hsure, c.sure_candidates strict strict']

/-! ## Findings -/

/-- Findings of high confidence come from what is kept of high confidence, however they are
filtered. -/
theorem mem_sure_findings {minConfidence : Confidence} {f : Finding} :
    f ∈ (c.findings minConfidence).filter (·.confidence = .high) ↔
      ∃ k kept, (c.best.get? k).filter (·.isSure) = some kept ∧
        Finding.ofCandidate c.nameOf kept = f := by
  rw [List.mem_filter, mem_findings, decide_eq_true_eq]
  constructor
  · rintro ⟨⟨k, kept, hkept, -, rfl⟩, hhigh⟩
    have hsure : kept.isSure = true := decide_eq_true hhigh
    exact ⟨k, kept, by rw [hkept, Option.filter_some_pos hsure], rfl⟩
  · rintro ⟨k, kept, hkept, rfl⟩
    obtain ⟨hkept, hsure⟩ := Option.filter_eq_some_iff.1 hkept
    have hhigh : kept.confidence = .high := of_decide_eq_true hsure
    refine ⟨⟨k, kept, hkept, ?_, rfl⟩, hhigh⟩
    rw [hhigh]
    cases minConfidence <;> rfl

variable {c}

/-- The findings of high confidence are the same in both modes and under both filters. -/
theorem Owned.sure_findings (howned : c.Owned) (minConfidence minConfidence' : Confidence) :
    ((c.withStrict strict).findings minConfidence).filter (·.confidence = .high)
      = ((c.withStrict strict').findings minConfidence').filter (·.confidence = .high) := by
  -- both lists are sorted, so it is enough that they have the same findings
  have hsorted : ∀ strict minConfidence,
      (((c.withStrict strict).findings minConfidence).filter (·.confidence = .high)).Pairwise
        fun f g => f.order g = .lt := by
    intro strict minConfidence
    have howned' : (c.withStrict strict).Owned := howned
    exact howned'.pairwise_findings.filter _
  refine eq_of_sorted Finding.order (hsorted _ _) (hsorted _ _) fun f => ?_
  rw [mem_sure_findings, mem_sure_findings]
  have hbest := c.sure_best strict strict'
  simp only [hbest]
  rfl

/-- The filter for high confidence leaves findings of high confidence only. -/
theorem filter_findings_high : (c.findings .high).filter (·.confidence = .high)
    = c.findings .high := by
  refine List.filter_eq_self.2 fun f hf => ?_
  obtain ⟨k, kept, -, hconfidence, rfl⟩ := mem_findings.1 hf
  rw [decide_eq_true_eq]
  show kept.confidence = .high
  cases hkept : kept.confidence with
  | high => rfl
  | low =>
    rw [hkept] at hconfidence
    cases hconfidence

/-- What is reported in strict mode is reported in either mode, maybe by another finding. -/
theorem Owned.exists_finding_of_strict (howned : c.Owned) {minConfidence : Confidence} {f : Finding}
    (h : f ∈ (c.withStrict true).findings minConfidence) :
    ∃ g ∈ (c.withStrict strict).findings minConfidence, g.IsOn f.path f.methodA f.methodB := by
  -- a finding of high confidence is still there; for one of low confidence another may be kept
  by_cases hhigh : f.confidence = .high
  · have hf : f ∈ ((c.withStrict true).findings minConfidence).filter (·.confidence = .high) :=
      List.mem_filter.2 ⟨h, decide_eq_true hhigh⟩
    rw [howned.sure_findings true strict minConfidence minConfidence] at hf
    exact ⟨f, (List.mem_filter.1 hf).1, rfl, .inl ⟨rfl, rfl⟩⟩
  · obtain ⟨k, kept, hkept, hconfidence, rfl⟩ := mem_findings.1 h
    have hlow : kept.confidence = .low := by
      cases hkept' : kept.confidence with
      | low => rfl
      | high => exact absurd hkept' hhigh
    -- both accesses are exposed in this mode too, where they conflict as well
    obtain ⟨className, hclass, path, a, b, hpair, hconflict, hentry⟩ :=
      mem_candidates.1 (mem_candidates_of_get?_best hkept)
    have hcandidate : (k, kept) ∈ (c.withStrict strict).candidates :=
      mem_candidates.2 ⟨className, hclass, path, a, b, hpair,
        AccessEvent.conflictsWith_of_strict strict hconflict, hentry⟩
    obtain ⟨kept', hmem', hkept'⟩ := get?_best hcandidate
    have hle : (compare minConfidence kept'.confidence).isLE = true := by
      rw [hlow] at hconfidence
      cases minConfidence with
      | low => exact Confidence.low_le _
      | high => cases hconfidence
    refine ⟨_, mem_findings.2 ⟨k, kept', hkept', hle, rfl⟩, Finding.key_eq_iff.1 ?_⟩
    exact (key_of_mem_candidates hmem').trans (key_of_mem_candidates hcandidate).symm

end Collection

/-! ## Reports -/

/-- **Strict mode and the confidence filter**: what they do to a report, whatever the other
settings. The findings of high confidence are the same under all settings of the two; the filter for
high confidence leaves just these; and a path and two methods that are reported in strict mode are
reported in relaxed mode too. -/
theorem analyze_strictness (program : Program) (config : Config) :
    (∀ strict strict' minConfidence minConfidence',
      (analyze program { config with
        strictThreadContext := strict, minConfidence }).findings.filter (·.confidence = .high)
      = (analyze program { config with
        strictThreadContext := strict'
        minConfidence := minConfidence' }).findings.filter (·.confidence = .high)) ∧
    (∀ strict strict' minConfidence,
      (analyze program { config with
        strictThreadContext := strict, minConfidence := .high }).findings
      = (analyze program { config with
        strictThreadContext := strict', minConfidence }).findings.filter (·.confidence = .high)) ∧
    ∀ minConfidence, ∀ f ∈ (analyze program { config with
        strictThreadContext := true, minConfidence }).findings,
      ∃ g ∈ (analyze program { config with
          strictThreadContext := false, minConfidence }).findings,
        g.IsOn f.path f.methodA f.methodB := by
  -- neither setting is read before races are collected
  have hfindings : ∀ strict minConfidence, (analyze program { config with
      strictThreadContext := strict, minConfidence }).findings
      = (((Session.of program config).collection (Session.of program config).store).withStrict
          strict).findings minConfidence := fun _ _ => rfl
  have howned := Session.owned program config
  simp only [hfindings]
  refine ⟨howned.sure_findings, fun strict strict' minConfidence => ?_,
    fun minConfidence f hf => howned.exists_finding_of_strict false hf⟩
  rw [← howned.sure_findings strict strict' .high minConfidence, Collection.filter_findings_high]

/-- A method of unknown context that writes to the jobs and calls one in the background, which does
so too; and one of unknown context that writes elsewhere. -/
def Program.spool : Program where
  classes := [{ name := "Spool" }]
  methods := [
    { id := ⟨0⟩
      name := "flush"
      declaringClass := "Spool"
      body := .ofBlocks [([⟨1, .write (.thisField "Spool" "jobs")⟩, ⟨2, .call ⟨1⟩ []⟩], [])] },
    { id := ⟨1⟩
      name := "drain"
      declaringClass := "Spool"
      annotations := { threadSafe := true }
      body := .ofBlocks [([⟨3, .write (.thisField "Spool" "jobs")⟩], [])] },
    { id := ⟨2⟩
      name := "submit"
      declaringClass := "Spool"
      body := .ofBlocks [([⟨4, .write (.thisField "Spool" "next")⟩], [])] }]

/-- The first method races with itself, for sure only where both accesses are by way of the second.
The third one races with itself in relaxed mode only. -/
theorem analyze_strictness_spool :
    (∃ f ∈ (analyze .spool { strictThreadContext := true }).findings,
      f.confidence = .high ∧ f ∈ (analyze .spool { minConfidence := .high }).findings ∧
      ∃ g ∈ (analyze .spool {}).findings, g.IsOn f.path f.methodA f.methodB) ∧
    (analyze .spool { strictThreadContext := true }).findings.length
      < (analyze .spool {}).findings.length := by
  obtain ⟨-, hhigh, hrelaxed⟩ := analyze_strictness .spool {}
  -- findings are sorted and cannot be computed here, but what is kept can
  have hkept : (((Session.of .spool { strictThreadContext := true }).collection
      (Session.of .spool { strictThreadContext := true }).store).best.get?
        (.of (.field "Spool" "jobs") ⟨0⟩ ⟨0⟩)).any (·.confidence = .high) = true := by
    decide +kernel
  obtain ⟨kept, hget, hconfidence⟩ := Option.any_eq_true .. |>.1 hkept
  have hsure : ∃ f ∈ (analyze .spool { strictThreadContext := true }).findings,
      f.confidence = .high :=
    ⟨_, Collection.mem_findings.2 ⟨_, kept, hget, Confidence.low_le _, rfl⟩,
      of_decide_eq_true hconfidence⟩
  constructor
  · obtain ⟨f, hf, hconfidence⟩ := hsure
    refine ⟨f, hf, hconfidence, ?_, hrelaxed .low f hf⟩
    rw [hhigh false true .low]
    exact List.mem_filter.2 ⟨hf, decide_eq_true hconfidence⟩
  · have hlength : ∀ strict, (analyze .spool { strictThreadContext := strict }).findings.length
        = ((Session.of .spool { strictThreadContext := strict }).collection
            (Session.of .spool { strictThreadContext := strict }).store).best.keys.length := by
      intro strict
      rw [← Collection.keys_findings.length_eq, List.length_map]
      rfl
    rw [hlength, hlength]
    decide +kernel

end Interlock
