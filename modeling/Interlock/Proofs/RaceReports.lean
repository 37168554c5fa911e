import Interlock.Proofs.Sorted
import Interlock.Race.Collection

/-!
# Races that are reported

What the collection of races does with the accesses that a class exposes. No two
accesses that conflict are lost: they give rise to a candidate, some candidate for
their path and methods is kept, and a candidate that is kept becomes a finding.

- `Hierarchy.mem_classNames_of_visible`: only known classes have visible methods.
- `AccessEvent.conflictsWith_comm`, `RaceKey.of_comm`: conflicts and keys do not
  depend on which access comes first.
- `Collection.key_of_mem_candidates`, `Collection.mem_candidates_of_conflict`: the candidates.
- `Collection.get?_best`: what is kept for a key.
- `Collection.exists_finding`: conflicts between exposed accesses are reported.
-/

namespace Interlock

/-! ## Visible methods -/

namespace Hierarchy

variable {h : Hierarchy} {name : String}

/-- Nothing is known of a class that is not declared and has no methods. -/
theorem info_eq_default (hname : name ∉ h.classNames) : h.info name = {} := by
  have hnone : h.classes.get? name = none := by
    rw [Option.eq_none_iff_forall_ne_some]
    exact fun info hinfo => hname (SortedMap.mem_keys_iff.2 ⟨info, hinfo⟩)
  rw [info, hnone, Option.getD_none]

/-- A class that is not known has no ancestors. -/
theorem ancestors_eq_nil (hname : name ∉ h.classNames) : h.ancestors name = [] := by
  have hparents : h.parents name = [] := by rw [parents, info_eq_default hname]; rfl
  rw [ancestors]
  cases h.classes.size with
  | zero => rfl
  | succ fuel =>
    rw [ancestorLayers, List.flatMap_cons, hparents]
    rfl

/-- Only known classes have visible methods. -/
theorem mem_classNames_of_visible {m : Method} (hm : m ∈ h.visibleMethods name) :
    name ∈ h.classNames := by
  by_contra hname
  have hdeclared : h.declaredMethods name = [] := by rw [declaredMethods, info_eq_default hname]
  rw [visibleMethods, ancestors_eq_nil hname, unhidden, hdeclared] at hm
  exact absurd hm List.not_mem_nil

end Hierarchy

/-! ## Pairs -/

theorem mem_of_mem_pairsUp {α : Type} {l : List α} {x : α × α} (h : x ∈ pairsUp l) :
    x.1 ∈ l ∧ x.2 ∈ l := by
  induction l with
  | nil => cases h
  | cons a rest ih =>
    rcases List.mem_append.1 h with hhead | hrest
    · obtain ⟨b, hb, rfl⟩ := List.mem_map.1 hhead
      exact ⟨List.mem_cons_self, hb⟩
    · obtain ⟨h₁, h₂⟩ := ih hrest
      exact ⟨List.mem_cons_of_mem a h₁, List.mem_cons_of_mem a h₂⟩

/-- Any two elements are paired up in one of the two orders. -/
theorem mem_pairsUp {α : Type} {l : List α} {a b : α} (ha : a ∈ l) (hb : b ∈ l) :
    (a, b) ∈ pairsUp l ∨ (b, a) ∈ pairsUp l := by
  induction l with
  | nil => cases ha
  | cons c rest ih =>
    simp only [pairsUp, List.mem_append]
    rcases List.mem_cons.1 ha with rfl | harest
    · exact .inl (.inl (List.mem_map.2 ⟨b, hb, rfl⟩))
    · rcases List.mem_cons.1 hb with rfl | hbrest
      · exact .inr (.inl (List.mem_map.2 ⟨a, ha, rfl⟩))
      · exact (ih harest hbrest).imp .inr .inr

theorem ThreadContext.mayRunInParallel_comm (strict : Bool) (s t : ThreadContext) :
    s.mayRunInParallel strict t = t.mayRunInParallel strict s := by
  cases s <;> cases t <;> rfl

theorem SortedSet.isDisjoint_comm {α : Type} [Ord α] [DecidableEq α] (s t : SortedSet α) :
    s.isDisjoint t = t.isDisjoint s := by
  rw [Bool.eq_iff_iff, isDisjoint_iff, isDisjoint_iff]
  exact ⟨fun h a ht hs => h a hs ht, fun h a hs ht => h a ht hs⟩

/-- Conflicts do not depend on which access comes first. -/
theorem AccessEvent.conflictsWith_comm (strict : Bool) (a b : AccessEvent) :
    a.conflictsWith strict b = b.conflictsWith strict a := by
  rw [conflictsWith, conflictsWith, Bool.or_comm, ThreadContext.mayRunInParallel_comm,
    SortedSet.isDisjoint_comm]

/-! ## Keys -/

/-- Keys do not depend on the order of methods. -/
theorem RaceKey.of_comm (path : AccessPath) (a b : MethodId) : of path a b = of path b a := by
  by_cases heq : compare a b = .eq
  · rw [Std.LawfulEqOrd.eq_of_compare heq]
  · rw [of, of, Std.OrientedOrd.eq_swap (a := b) (b := a)]
    cases hcompare : compare a b with
    | lt => rfl
    | eq => exact absurd hcompare heq
    | gt => rfl

theorem RaceKey.of_cases (path : AccessPath) (a b : MethodId) :
    of path a b = ⟨path, a, b⟩ ∨ of path a b = ⟨path, b, a⟩ := by
  rw [of]
  split
  · exact .inl rfl
  · exact .inr rfl

/-- A key tells the path and the two methods, up to their order. -/
theorem RaceKey.of_eq_of {path path' : AccessPath} {a b a' b' : MethodId}
    (h : of path a b = of path' a' b') :
    path = path' ∧ (a = a' ∧ b = b' ∨ a = b' ∧ b = a') := by
  rcases of_cases path a b with h₁ | h₁ <;> rcases of_cases path' a' b' with h₂ | h₂ <;>
    · rw [h₁, h₂] at h
      obtain ⟨rfl, rfl, rfl⟩ := RaceKey.mk.inj h
      simp

/-- Every confidence is at least low. -/
theorem Confidence.low_le (confidence : Confidence) : (compare low confidence).isLE = true := by
  cases confidence <;> rfl

namespace Candidate

/-- The key that a candidate is kept under. -/
def key (c : Candidate) : RaceKey := .of c.first.path c.first.owner c.second.owner

/-- Which access comes first in a candidate makes no difference to its key. -/
theorem key_of {a b : AccessEvent} (hpath : a.path = b.path) (className : String)
    (ancestors : Nat) : (of className ancestors a b).key = .of a.path a.owner b.owner := by
  rw [of]
  split
  · rfl
  · rw [key, RaceKey.of_comm, hpath]

end Candidate

namespace Collection

variable {c : Collection}

/-! ## Candidates -/

/-- The accesses that a class exposes, method by method. -/
theorem mem_exposed {className : String} {e : AccessEvent} : e ∈ c.exposed className ↔
    ∃ m ∈ c.hierarchy.visibleMethods className, m.isReportingRoot = true ∧
      ∃ s, c.summaryOf m.id = some s ∧ e ∈ s.accesses := by
  simp only [exposed, List.mem_flatMap, List.mem_filterMap, List.mem_filter]
  constructor
  · rintro ⟨s, ⟨m, ⟨hm, hroot⟩, hs⟩, he⟩
    exact ⟨m, hm, hroot, s, hs, he⟩
  · rintro ⟨m, hm, hroot, s, hs, he⟩
    exact ⟨s, ⟨m, ⟨hm, hroot⟩, hs⟩, he⟩

/-- The candidates are the conflicts between accesses that one class exposes. -/
theorem mem_candidates {entry : RaceKey × Candidate} : entry ∈ c.candidates ↔
    ∃ className ∈ c.hierarchy.classNames, ∃ path, ∃ a b,
      (a, b) ∈ pairsUp ((c.exposed className).filter (·.path = path)) ∧
        a.conflictsWith c.strict b = true ∧
        (RaceKey.of a.path a.owner b.owner,
          Candidate.of className (c.hierarchy.ancestors className).length a b) = entry := by
  simp only [candidates, candidatesIn, candidatesOn, List.mem_flatMap, List.mem_filterMap]
  constructor
  · rintro ⟨className, hclass, path, -, ⟨a, b⟩, hpair, hentry⟩
    split at hentry
    · next hconflict =>
      exact ⟨className, hclass, path, a, b, hpair, hconflict, Option.some_inj.1 hentry⟩
    · cases hentry
  · rintro ⟨className, hclass, path, a, b, hpair, hconflict, hentry⟩
    obtain ⟨hexposed, hpath⟩ := List.mem_filter.1 (mem_of_mem_pairsUp hpair).1
    refine ⟨className, hclass, path, ?_, (a, b), hpair, ?_⟩
    · rw [← SortedSet.mem_def, SortedSet.mem_ofList, ← of_decide_eq_true hpath]
      exact List.mem_map.2 ⟨a, hexposed, rfl⟩
    · rw [if_pos hconflict, hentry]

/-- Candidates are listed under their own keys. -/
theorem key_of_mem_candidates {key : RaceKey} {candidate : Candidate}
    (h : (key, candidate) ∈ c.candidates) : candidate.key = key := by
  obtain ⟨className, -, path, a, b, hpair, -, hentry⟩ := mem_candidates.1 h
  obtain ⟨rfl, rfl⟩ := Prod.mk.inj hentry
  obtain ⟨ha, hb⟩ := mem_of_mem_pairsUp hpair
  have ha' : a.path = path := of_decide_eq_true (List.mem_filter.1 ha).2
  have hb' : b.path = path := of_decide_eq_true (List.mem_filter.1 hb).2
  exact Candidate.key_of (ha'.trans hb'.symm) _ _

/-- A conflict between two accesses that a class exposes gives rise to a candidate of the two, in
one of the two orders. -/
theorem mem_candidates_of_conflict {className : String}
    (hclass : className ∈ c.hierarchy.classNames) {a b : AccessEvent}
    (ha : a ∈ c.exposed className) (hb : b ∈ c.exposed className) (hpath : a.path = b.path)
    (hconflict : a.conflictsWith c.strict b = true) :
    (RaceKey.of a.path a.owner b.owner,
        Candidate.of className (c.hierarchy.ancestors className).length a b) ∈ c.candidates ∨
      (RaceKey.of a.path a.owner b.owner,
        Candidate.of className (c.hierarchy.ancestors className).length b a) ∈ c.candidates := by
  have ha' : a ∈ (c.exposed className).filter (·.path = a.path) :=
    List.mem_filter.2 ⟨ha, decide_eq_true rfl⟩
  have hb' : b ∈ (c.exposed className).filter (·.path = a.path) :=
    List.mem_filter.2 ⟨hb, decide_eq_true hpath.symm⟩
  -- the pairing decides which comes first; the key is the same either way
  rcases mem_pairsUp ha' hb' with hpair | hpair
  · exact .inl (mem_candidates.2 ⟨className, hclass, a.path, a, b, hpair, hconflict, rfl⟩)
  · rw [AccessEvent.conflictsWith_comm] at hconflict
    have hkey : RaceKey.of b.path b.owner a.owner = RaceKey.of a.path a.owner b.owner := by
      rw [hpath, RaceKey.of_comm]
    exact .inr (mem_candidates.2
      ⟨className, hclass, a.path, b, a, hpair, hconflict, Prod.ext hkey rfl⟩)

/-- In either order, the candidate has the key of the two. -/
theorem exists_candidate {className : String} (hclass : className ∈ c.hierarchy.classNames)
    {a b : AccessEvent} (ha : a ∈ c.exposed className) (hb : b ∈ c.exposed className)
    (hpath : a.path = b.path) (hconflict : a.conflictsWith c.strict b = true) :
    ∃ candidate, (RaceKey.of a.path a.owner b.owner, candidate) ∈ c.candidates := by
  rcases mem_candidates_of_conflict hclass ha hb hpath hconflict with h | h
  · exact ⟨_, h⟩
  · exact ⟨_, h⟩

/-! ## What is kept -/

/-- One more entry changes nothing for a key, or it is kept for its own key. In the first case
something was kept before if the key is its own. -/
theorem get?_keep (best : SortedMap RaceKey Candidate) (entry : RaceKey × Candidate) (k : RaceKey) :
    (keep best entry).get? k = best.get? k ∧ (k = entry.1 → (best.get? k).isSome) ∨
      k = entry.1 ∧ (keep best entry).get? k = some entry.2 := by
  rw [keep, SortedMap.get?_alter]
  by_cases hk : k = entry.1
  · rw [if_pos hk, hk]
    cases hbest : best.get? entry.1 with
    | none => exact .inr ⟨rfl, rfl⟩
    | some kept =>
      dsimp only
      split
      · exact .inr ⟨rfl, rfl⟩
      · exact .inl ⟨rfl, fun _ => rfl⟩
  · rw [if_neg hk]
    exact .inl ⟨rfl, fun h => absurd h hk⟩

/-- After several entries, what is kept for a key is what was kept before, or one of the entries for
the key; the latter if there are entries for it and nothing was kept before. -/
theorem get?_foldl_keep (entries : List (RaceKey × Candidate)) (best : SortedMap RaceKey Candidate)
    (k : RaceKey) :
    (entries.foldl keep best).get? k = best.get? k ∧
        (k ∈ entries.map (·.1) → (best.get? k).isSome) ∨
      ∃ candidate, (k, candidate) ∈ entries ∧
        (entries.foldl keep best).get? k = some candidate := by
  induction entries generalizing best with
  | nil => exact .inl ⟨rfl, fun h => absurd h List.not_mem_nil⟩
  | cons entry entries ih =>
    rcases ih (keep best entry) with ⟨hsame, hsome⟩ | ⟨candidate, hmem, hget⟩
    · -- the later entries changed nothing, so it is the first one that counts
      rcases get?_keep best entry k with ⟨hkeep, hfirst⟩ | ⟨hk, hkeep⟩
      · refine .inl ⟨hsame.trans hkeep, fun h => ?_⟩
        rcases List.mem_cons.1 h with hk | hrest
        · exact hfirst hk
        · exact hkeep ▸ hsome hrest
      · exact .inr ⟨entry.2, hk ▸ List.mem_cons_self, hsame.trans hkeep⟩
    · exact .inr ⟨candidate, List.mem_cons_of_mem entry hmem, hget⟩

/-- For each key that has candidates, one of them is kept. -/
theorem get?_best {k : RaceKey} {candidate : Candidate} (h : (k, candidate) ∈ c.candidates) :
    ∃ kept, (k, kept) ∈ c.candidates ∧ c.best.get? k = some kept := by
  rcases get?_foldl_keep c.candidates ∅ k with ⟨-, hsome⟩ | hkept
  · exact absurd (hsome (List.mem_map.2 ⟨_, h, rfl⟩)) Bool.false_ne_true
  · exact hkept

/-! ## Findings -/

theorem mem_findings {minConfidence : Confidence} {finding : Finding} :
    finding ∈ c.findings minConfidence ↔ ∃ k kept, c.best.get? k = some kept ∧
      (compare minConfidence kept.confidence).isLE = true ∧
        Finding.ofCandidate c.nameOf kept = finding := by
  simp only [findings, List.mem_mergeSort, List.mem_map, List.mem_filter, SortedMap.mem_values_iff]
  constructor
  · rintro ⟨kept, ⟨⟨k, hk⟩, hconfidence⟩, hfinding⟩
    exact ⟨k, kept, hk, hconfidence, hfinding⟩
  · rintro ⟨k, kept, hk, hconfidence, hfinding⟩
    exact ⟨kept, ⟨⟨k, hk⟩, hconfidence⟩, hfinding⟩

/-- **Conflicts are reported**: if every confidence will do, a conflict between two accesses that a
class exposes is reported, by a finding on their path and methods. -/
theorem exists_finding {className : String} (hclass : className ∈ c.hierarchy.classNames)
    {a b : AccessEvent} (ha : a ∈ c.exposed className) (hb : b ∈ c.exposed className)
    (hpath : a.path = b.path) (hconflict : a.conflictsWith c.strict b = true) :
    ∃ finding ∈ c.findings .low, finding.path = a.path ∧
      (finding.methodA = a.owner ∧ finding.methodB = b.owner ∨
        finding.methodA = b.owner ∧ finding.methodB = a.owner) := by
  obtain ⟨candidate, hcandidate⟩ := exists_candidate hclass ha hb hpath hconflict
  obtain ⟨kept, hkept, hbest⟩ := get?_best hcandidate
  have hkey : kept.key = .of a.path a.owner b.owner := key_of_mem_candidates hkept
  exact ⟨_, mem_findings.2 ⟨_, kept, hbest, Confidence.low_le _, rfl⟩, RaceKey.of_eq_of hkey⟩

end Collection

end Interlock
