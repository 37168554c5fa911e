import Interlock.Proofs.RaceReports
import Mathlib.Data.List.Count

/-!
# Each pair of methods is reported once

A finding is on a path and an unordered pair of methods. The findings hold one for
every path and pair that some class exposes with conflicting accesses, and no other;
they are listed in strictly increasing order.

- `Collection.Arises`: what every candidate is.
- `Collection.Attributed`, `Collection.Owned`: summaries hold accesses of their own methods.
- `Collection.Conflicts`: two methods have conflicting accesses to a path.
- `Collection.keys_findings`: the paths and pairs of the findings are the keys of the
  candidates that are kept.
- `Collection.exists_candidate_iff`: the keys that have candidates.
- `Collection.findings_exact`: which findings there are, and in which order.
-/

namespace Interlock

/-- The path and the methods of a finding. -/
def Finding.key (f : Finding) : RaceKey := .of f.path f.methodA f.methodB

/-- `f.IsOn path m m'`: the finding is on this path and these methods, in either order. -/
def Finding.IsOn (f : Finding) (path : AccessPath) (m m' : MethodId) : Prop :=
  f.path = path ∧ (f.methodA = m ∧ f.methodB = m' ∨ f.methodA = m' ∧ f.methodB = m)

instance (f : Finding) (path : AccessPath) (m m' : MethodId) : Decidable (f.IsOn path m m') :=
  inferInstanceAs (Decidable (_ ∧ _))

/-- The path and the methods of a finding are told by its key. -/
theorem Finding.key_eq_iff {f : Finding} {path : AccessPath} {m m' : MethodId} :
    f.key = .of path m m' ↔ f.IsOn path m m' := by
  constructor
  · exact RaceKey.of_eq_of
  · rintro ⟨rfl, ⟨rfl, rfl⟩ | ⟨rfl, rfl⟩⟩
    · rfl
    · exact RaceKey.of_comm _ _ _

/-! ## The order of findings and of their accesses -/

instance : Std.TransCmp Finding.order :=
  inferInstanceAs (Std.TransCmp (compareLex _ (compareLex _ (compareLex _ _))))

instance : Std.TransCmp AccessEvent.order := inferInstanceAs (Std.TransCmp (compareLex _ _))

/-- Findings that are listed at the same place are on the same path and locations. -/
theorem Finding.eq_of_order_eq {f g : Finding} (h : f.order g = .eq) :
    f.path = g.path ∧ f.locationA = g.locationA ∧ f.locationB = g.locationB := by
  obtain ⟨-, h⟩ := compareLex_eq_eq.1 h
  obtain ⟨hpath, h⟩ := compareLex_eq_eq.1 h
  obtain ⟨hA, hB⟩ := compareLex_eq_eq.1 h
  exact ⟨Std.LawfulEqOrd.eq_of_compare hpath, Std.LawfulEqOrd.eq_of_compare hA,
    Std.LawfulEqOrd.eq_of_compare hB⟩

/-- The accesses of a candidate are in order. -/
theorem Candidate.order_of (className : String) (ancestors : Nat) (a b : AccessEvent) :
    ((of className ancestors a b).first.order (of className ancestors a b).second).isLE := by
  unfold of
  split
  · next h => exact h
  · next h =>
    have hgt : a.order b = .gt := by simpa using h
    have hlt : b.order a = .lt := Std.OrientedCmp.lt_of_gt hgt
    show (b.order a).isLE
    rw [hlt]
    rfl

/-- The two accesses of a candidate are those that it was formed from. -/
theorem Candidate.of_cases (className : String) (ancestors : Nat) (a b : AccessEvent) :
    of className ancestors a b = ⟨className, ancestors, a, b⟩ ∨
      of className ancestors a b = ⟨className, ancestors, b, a⟩ := by
  unfold of
  split
  · exact .inl rfl
  · exact .inr rfl

theorem Candidate.of_ordered {className : String} {ancestors : Nat} {a b : AccessEvent}
    (h : (a.order b).isLE = true) : of className ancestors a b = ⟨className, ancestors, a, b⟩ :=
  if_pos h

namespace Collection

variable {c : Collection}

/-! ## Candidates -/

/-- `c.Arises candidate`: the candidate is a conflict between two accesses that its class exposes,
in order. -/
structure Arises (c : Collection) (candidate : Candidate) : Prop where
  first : candidate.first ∈ c.exposed candidate.className
  second : candidate.second ∈ c.exposed candidate.className
  path : candidate.first.path = candidate.second.path
  conflict : candidate.first.conflictsWith c.strict candidate.second = true
  ordered : (candidate.first.order candidate.second).isLE = true
  ancestors : candidate.ancestors = (c.hierarchy.ancestors candidate.className).length

/-- Every candidate comes about like that. -/
theorem arises_of_mem_candidates {k : RaceKey} {candidate : Candidate}
    (h : (k, candidate) ∈ c.candidates) : c.Arises candidate := by
  obtain ⟨className, -, path, a, b, hpair, hconflict, hentry⟩ := mem_candidates.1 h
  obtain ⟨ha, hb⟩ := mem_of_mem_pairsUp hpair
  simp only [List.mem_filter, decide_eq_true_eq] at ha hb
  have hpath : a.path = b.path := ha.2.trans hb.2.symm
  have hordered :=
    Candidate.order_of className (c.hierarchy.ancestors className).length a b
  obtain rfl := (Prod.mk.inj hentry).2
  rcases Candidate.of_cases className (c.hierarchy.ancestors className).length a b with hof | hof
  · rw [hof] at hordered ⊢
    exact ⟨ha.1, hb.1, hpath, hconflict, hordered, rfl⟩
  · rw [hof] at hordered ⊢
    rw [AccessEvent.conflictsWith_comm] at hconflict
    exact ⟨hb.1, ha.1, hpath.symm, hconflict, hordered, rfl⟩

/-- A candidate is the one of its two accesses in its class. -/
theorem Arises.eq_of {candidate : Candidate} (h : c.Arises candidate) : candidate =
    .of candidate.className (c.hierarchy.ancestors candidate.className).length candidate.first
      candidate.second := by
  rw [Candidate.of_ordered h.ordered, ← h.ancestors]

/-! ## One finding for each key -/

/-- What is kept for a key is one of its candidates. -/
theorem mem_candidates_of_get?_best {k : RaceKey} {kept : Candidate}
    (h : c.best.get? k = some kept) : (k, kept) ∈ c.candidates := by
  rcases get?_foldl_keep c.candidates ∅ k with ⟨hsame, -⟩ | ⟨candidate, hmem, hget⟩
  · have hnone : c.best.get? k = none := hsame
    rw [h] at hnone
    cases hnone
  · have hget' : c.best.get? k = some candidate := hget
    rw [h, Option.some_inj] at hget'
    rw [hget']
    exact hmem

/-- The keys that something is kept for are those of the candidates. -/
theorem mem_keys_best {k : RaceKey} :
    k ∈ c.best.keys ↔ ∃ candidate, (k, candidate) ∈ c.candidates := by
  rw [SortedMap.mem_keys_iff]
  constructor
  · rintro ⟨kept, hkept⟩
    exact ⟨kept, mem_candidates_of_get?_best hkept⟩
  · rintro ⟨candidate, hcandidate⟩
    obtain ⟨kept, -, hbest⟩ := get?_best hcandidate
    exact ⟨kept, hbest⟩

/-- What is kept is reported if the confidence in it will do. -/
theorem findings_perm {minConfidence : Confidence} : (c.findings minConfidence).Perm
    ((c.best.values.filter fun candidate => (compare minConfidence candidate.confidence).isLE).map
      (Finding.ofCandidate c.nameOf)) :=
  List.mergeSort_perm _ _

/-- The findings on what is kept have the keys that it is kept for. -/
theorem keys_best :
    (c.best.values.map (Finding.ofCandidate c.nameOf)).map Finding.key = c.best.keys := by
  rw [SortedMap.values, SortedMap.keys, List.map_map, List.map_map]
  refine List.map_congr_left fun entry hentry => ?_
  obtain ⟨k, kept⟩ := entry
  exact key_of_mem_candidates (mem_candidates_of_get?_best (SortedMap.mem_toList_iff.1 hentry))

/-- If every confidence will do, the keys of the findings are the keys that something is kept for,
each once. -/
theorem keys_findings : ((c.findings .low).map Finding.key).Perm c.best.keys := by
  have hall : ∀ candidate ∈ c.best.values,
      (compare Confidence.low candidate.confidence).isLE = true :=
    fun candidate _ => Confidence.low_le candidate.confidence
  have hperm : (c.findings .low).Perm _ := findings_perm
  rw [List.filter_eq_self.2 hall] at hperm
  rw [← keys_best]
  exact hperm.map Finding.key

theorem nodup_keys_findings {minConfidence : Confidence} :
    ((c.findings minConfidence).map Finding.key).Nodup := by
  rw [(findings_perm.map Finding.key).nodup_iff]
  refine List.Nodup.sublist ((List.filter_sublist.map _).map _) ?_
  rw [keys_best]
  exact c.best.nodup_keys

/-- The number of findings on a path and two methods is the number of times that their key
occurs. -/
theorem countP_findings (path : AccessPath) (m m' : MethodId) :
    (c.findings .low).countP (·.IsOn path m m')
      = ((c.findings .low).map Finding.key).count (.of path m m') := by
  rw [List.count_eq_countP, List.countP_map]
  refine List.countP_congr fun f _ => ?_
  simp only [Function.comp_apply, decide_eq_true_eq, beq_iff_eq]
  exact Finding.key_eq_iff.symm

/-! ## Which keys there are -/

/-- Summaries hold accesses of their own methods. -/
def Attributed (c : Collection) : Prop :=
  ∀ m s, c.summaryOf m = some s → ∀ e ∈ s.accesses, e.owner = m

/-- Summaries hold accesses of their own methods, at locations in these methods. -/
def Owned (c : Collection) : Prop :=
  ∀ m s, c.summaryOf m = some s → ∀ e ∈ s.accesses, e.owner = m ∧ e.location.method = m

/-- `c.Reports className m s`: the class exposes the method with number `m`, which is reported under
its own name and has the summary `s`. -/
def Reports (c : Collection) (className : String) (m : MethodId) (s : Summary) : Prop :=
  (∃ x ∈ c.hierarchy.visibleMethods className, x.id = m ∧ x.isReportingRoot = true) ∧
    c.summaryOf m = some s

/-- `c.Conflicts path m m'`: some class exposes both methods, and they have accesses to the path
that conflict. Both accesses may be the same one. -/
def Conflicts (c : Collection) (path : AccessPath) (m m' : MethodId) : Prop :=
  ∃ className s s', c.Reports className m s ∧ c.Reports className m' s' ∧
    ∃ a ∈ s.accesses, ∃ b ∈ s'.accesses,
      a.path = path ∧ b.path = path ∧ a.conflictsWith c.strict b = true

theorem Conflicts.symm {path : AccessPath} {m m' : MethodId} (h : c.Conflicts path m m') :
    c.Conflicts path m' m := by
  obtain ⟨className, s, s', hs, hs', a, ha, b, hb, hpath, hpath', hconflict⟩ := h
  refine ⟨className, s', s, hs', hs, b, hb, a, ha, hpath', hpath, ?_⟩
  rw [AccessEvent.conflictsWith_comm]
  exact hconflict

theorem Reports.mem_exposed {className : String} {m : MethodId} {s : Summary}
    (h : c.Reports className m s) {e : AccessEvent} (he : e ∈ s.accesses) :
    e ∈ c.exposed className := by
  obtain ⟨⟨x, hx, rfl, hroot⟩, hs⟩ := h
  exact Collection.mem_exposed.2 ⟨x, hx, hroot, s, hs, he⟩

/-- An exposed access is in the summary of its owner. -/
theorem Attributed.reports (h : c.Attributed) {className : String} {e : AccessEvent}
    (he : e ∈ c.exposed className) : ∃ s, c.Reports className e.owner s ∧ e ∈ s.accesses := by
  obtain ⟨x, hx, hroot, s, hs, he⟩ := Collection.mem_exposed.1 he
  rw [h x.id s hs e he]
  exact ⟨s, ⟨⟨x, hx, rfl, hroot⟩, hs⟩, he⟩

theorem Owned.attributed (howned : c.Owned) : c.Attributed :=
  fun m s hs e he => (howned m s hs e he).1

theorem Owned.reports (howned : c.Owned) {className : String} {e : AccessEvent}
    (h : e ∈ c.exposed className) :
    e.location.method = e.owner ∧ ∃ s, c.Reports className e.owner s ∧ e ∈ s.accesses := by
  obtain ⟨s, hs, he⟩ := howned.attributed.reports h
  exact ⟨(howned _ s hs.2 e he).2, s, hs, he⟩

/-- The keys that have candidates are those of the conflicts. -/
theorem exists_candidate_iff (howned : c.Owned) {path : AccessPath} {m m' : MethodId} :
    (∃ candidate, (RaceKey.of path m m', candidate) ∈ c.candidates) ↔ c.Conflicts path m m' := by
  constructor
  · rintro ⟨candidate, h⟩
    have harises := arises_of_mem_candidates h
    obtain ⟨-, s, hs, hfirst⟩ := howned.reports harises.first
    obtain ⟨-, s', hs', hsecond⟩ := howned.reports harises.second
    have hab : c.Conflicts candidate.first.path candidate.first.owner candidate.second.owner :=
      ⟨_, s, s', hs, hs', _, hfirst, _, hsecond, rfl, harises.path.symm, harises.conflict⟩
    -- the key tells the methods up to their order
    obtain ⟨hpath, ⟨hm, hm'⟩ | ⟨hm, hm'⟩⟩ := RaceKey.of_eq_of (key_of_mem_candidates h)
    · rw [← hpath, ← hm, ← hm']
      exact hab
    · rw [← hpath, ← hm, ← hm']
      exact hab.symm
  · rintro ⟨className, s, s', hs, hs', a, ha, b, hb, rfl, hpath', hconflict⟩
    obtain ⟨x, hx, -⟩ := hs.1
    have hclass := Hierarchy.mem_classNames_of_visible hx
    obtain ⟨candidate, hcandidate⟩ :=
      exists_candidate hclass (hs.mem_exposed ha) (hs'.mem_exposed hb) hpath'.symm hconflict
    rw [(howned m s hs.2 a ha).1, (howned m' s' hs'.2 b hb).1] at hcandidate
    exact ⟨candidate, hcandidate⟩

/-! ## The list of findings -/

/-- Every finding comes from a candidate. -/
theorem exists_candidate_of_mem_findings {minConfidence : Confidence} {f : Finding}
    (h : f ∈ c.findings minConfidence) :
    ∃ k candidate, (k, candidate) ∈ c.candidates ∧ Finding.ofCandidate c.nameOf candidate = f := by
  obtain ⟨k, kept, hkept, -, hf⟩ := mem_findings.1 h
  exact ⟨k, kept, mem_candidates_of_get?_best hkept, hf⟩

/-- The locations of a finding are in its methods. -/
theorem Owned.methods_of_mem_findings (howned : c.Owned) {minConfidence : Confidence} {f : Finding}
    (h : f ∈ c.findings minConfidence) :
    f.methodA = f.locationA.method ∧ f.methodB = f.locationB.method := by
  obtain ⟨k, candidate, hcandidate, rfl⟩ := exists_candidate_of_mem_findings h
  have harises := arises_of_mem_candidates hcandidate
  exact ⟨(howned.reports harises.first).1.symm, (howned.reports harises.second).1.symm⟩

/-- The accesses of a finding are in order. -/
theorem order_of_mem_findings {minConfidence : Confidence} {f : Finding}
    (h : f ∈ c.findings minConfidence) :
    ((compare f.locationA f.locationB).then (compare f.kindA f.kindB)).isLE := by
  obtain ⟨k, candidate, hcandidate, rfl⟩ := exists_candidate_of_mem_findings h
  exact (arises_of_mem_candidates hcandidate).ordered

/-- Findings are sorted. -/
theorem pairwise_findings_isLE (minConfidence : Confidence) :
    (c.findings minConfidence).Pairwise (fun f g => (f.order g).isLE) :=
  pairwise_mergeSort_isLE Finding.order _

/-- Sorted findings with different keys are strictly sorted. -/
theorem Owned.pairwise_findings (howned : c.Owned) {minConfidence : Confidence} :
    (c.findings minConfidence).Pairwise (fun f g => f.order g = .lt) := by
  -- findings at the same place would have the same key
  have hkeys : (c.findings minConfidence).Pairwise (fun f g => f.key ≠ g.key) :=
    List.pairwise_map.1 nodup_keys_findings
  refine ((pairwise_findings_isLE minConfidence).and hkeys).imp_of_mem fun {f g} hf hg hfg => ?_
  obtain ⟨hle, hne⟩ := hfg
  cases horder : f.order g with
  | lt => rfl
  | eq =>
    obtain ⟨hpath, hA, hB⟩ := Finding.eq_of_order_eq horder
    obtain ⟨hfA, hfB⟩ := howned.methods_of_mem_findings hf
    obtain ⟨hgA, hgB⟩ := howned.methods_of_mem_findings hg
    refine absurd ?_ hne
    rw [Finding.key, Finding.key, hpath, hfA, hfB, hgA, hgB, hA, hB]
  | gt =>
    rw [horder] at hle
    cases hle

/-- **Each pair of methods is reported once**: if every confidence will do, there is one finding on
a path and two methods if these conflict there, else none; the findings are strictly sorted by
class, path and locations; and each has its accesses sorted by location and kind. -/
theorem findings_exact (howned : c.Owned) :
    (∀ path m m',
      (c.Conflicts path m m' → (c.findings .low).countP (·.IsOn path m m') = 1) ∧
      (¬ c.Conflicts path m m' → (c.findings .low).countP (·.IsOn path m m') = 0)) ∧
    (c.findings .low).Pairwise (fun f g => f.order g = .lt) ∧
    ∀ f ∈ c.findings .low,
      ((compare f.locationA f.locationB).then (compare f.kindA f.kindB)).isLE := by
  refine ⟨fun path m m' => ?_, howned.pairwise_findings, fun f hf => order_of_mem_findings hf⟩
  -- findings, what is kept and conflicts have the same keys
  have hkey : RaceKey.of path m m' ∈ (c.findings .low).map Finding.key ↔ c.Conflicts path m m' := by
    rw [keys_findings.mem_iff, mem_keys_best, exists_candidate_iff howned]
  rw [countP_findings]
  constructor
  · intro hconflicts
    exact List.count_eq_one_of_mem nodup_keys_findings (hkey.2 hconflicts)
  · intro hnone
    exact List.count_eq_zero.2 fun hmem => hnone (hkey.1 hmem)

/-- A counter that `Queue` increments and `Stack`, which extends it, also reads. The summaries of
the two methods have one access each. -/
def counter : Collection where
  hierarchy := .of [{ name := "Queue" }, { name := "Stack", superclasses := ["Queue"] }]
    [{ id := ⟨0⟩, name := "put", declaringClass := "Queue", body := .ofBlocks [([], [])] },
      { id := ⟨1⟩, name := "size", declaringClass := "Stack", body := .ofBlocks [([], [])] }]
  summaryOf m :=
    if m = ⟨0⟩ then
      some ⟨m, [⟨.field "Queue" "count", .write, ∅, ⟨m, 3, 0, 0⟩, .unknown, m, none⟩],
        .unknown, false⟩
    else if m = ⟨1⟩ then
      some ⟨m, [⟨.field "Queue" "count", .read, ∅, ⟨m, 7, 0, 0⟩, .unknown, m, none⟩],
        .unknown, false⟩
    else none
  strict := false

theorem findings_exact_counter : counter.Owned ∧
    (counter.findings .low).countP (·.IsOn (.field "Queue" "count") ⟨1⟩ ⟨0⟩) = 1 := by
  have howned : counter.Owned := by
    intro m s hs e he
    simp only [counter] at hs
    split at hs
    · obtain rfl := Option.some_inj.1 hs
      obtain rfl := List.mem_singleton.1 he
      exact ⟨rfl, rfl⟩
    · split at hs
      · obtain rfl := Option.some_inj.1 hs
        obtain rfl := List.mem_singleton.1 he
        exact ⟨rfl, rfl⟩
      · cases hs
  refine ⟨howned, ((findings_exact howned).1 _ _ _).1 ?_⟩
  -- both methods are visible in `Stack` only
  refine ⟨"Stack", _, _, ⟨?_, rfl⟩, ⟨?_, rfl⟩, _, List.mem_singleton_self _, _,
    List.mem_singleton_self _, rfl, rfl, ?_⟩ <;> decide +kernel

end Collection

end Interlock
