import Interlock.Proofs.RacePairs

/-!
# Which candidate is reported

Of the candidates for a key, the one that is kept is the smallest by rank and then by
class. The candidates are met class by class in the order of their names, and one that
ranks the same as what is kept does not replace it.

- `Candidate.preference`: by rank, then by class.
- `Candidate.Twin`: what candidates have in common that neither goes before.
- `Collection.exists_best_le`: what is kept goes before all candidates for its key.
- `Collection.exists_best_le_of_conflict`, `Collection.best_le_of_reports`: it goes before all
  conflicts on its key, and so before all conflicts of its methods, in every class.
-/

namespace Interlock

namespace Candidate

instance : Std.TransCmp order :=
  inferInstanceAs (Std.TransCmp (compareLex _ (compareLex _ (compareLex _ (compareLex _ _)))))

/-- The confidence in a candidate is a matter of the two contexts. -/
theorem confidence_of (className : String) (ancestors : Nat) (a b : AccessEvent) :
    (of className ancestors a b).confidence
      = if a.thread = .background ∧ b.thread = .background then .high else .low := by
  rcases of_cases className ancestors a b with h | h
  · rw [h]
    rfl
  · rw [h, confidence]
    exact if_congr and_comm rfl rfl

/-- A candidate that ranks before another is at least as sure. -/
theorem confidence_le_of_order {c d : Candidate} (h : (c.order d).isLE = true) :
    (compare d.confidence c.confidence).isLE = true := by
  have hfirst : (compare (decide (c.confidence = .low)) (decide (d.confidence = .low))).isLE
      = true := by
    simp only [order, compareLex, compareOn] at h
    exact Ordering.isLE_left_of_isLE_then h
  cases hc : c.confidence <;> cases hd : d.confidence <;> rw [hc, hd] at hfirst <;>
    revert hfirst <;> decide

/-- Candidates by rank, then by class. -/
def preference : Candidate → Candidate → Ordering := compareLex order (compareOn className)

instance : Std.TransCmp preference := inferInstanceAs (Std.TransCmp (compareLex _ _))

theorem order_le_of_preference {c d : Candidate} (h : (c.preference d).isLE = true) :
    (c.order d).isLE = true :=
  Ordering.isLE_left_of_isLE_then h

/-- `c.Twin d`: the same class, locations and confidence, and both or neither of two writes. -/
structure Twin (c d : Candidate) : Prop where
  className : c.className = d.className
  confidence : c.confidence = d.confidence
  isWriteWrite : c.isWriteWrite = d.isWriteWrite
  first : c.first.location = d.first.location
  second : c.second.location = d.second.location
  ancestors : c.ancestors = d.ancestors

/-- Neither goes before the other exactly if they are twins. -/
theorem twin_iff {c d : Candidate} : c.preference d = .eq ↔ c.Twin d := by
  constructor
  · intro h
    obtain ⟨h, hclass⟩ := compareLex_eq_eq.1 h
    obtain ⟨hlow, h⟩ := compareLex_eq_eq.1 h
    obtain ⟨hwrite, h⟩ := compareLex_eq_eq.1 h
    obtain ⟨hfirst, h⟩ := compareLex_eq_eq.1 h
    obtain ⟨hsecond, hancestors⟩ := compareLex_eq_eq.1 h
    have hlow : decide (c.confidence = .low) = decide (d.confidence = .low) :=
      Std.LawfulEqOrd.eq_of_compare hlow
    have hwrite : (!c.isWriteWrite) = !d.isWriteWrite := Std.LawfulEqOrd.eq_of_compare hwrite
    refine ⟨Std.LawfulEqOrd.eq_of_compare hclass, ?_, Bool.not_inj hwrite,
      Std.LawfulEqOrd.eq_of_compare hfirst, Std.LawfulEqOrd.eq_of_compare hsecond,
      Std.LawfulEqOrd.eq_of_compare hancestors⟩
    revert hlow
    cases c.confidence <;> cases d.confidence <;> decide
  · intro h
    simp [preference, order, compareLex, compareOn, h.className, h.confidence, h.isWriteWrite,
      h.first, h.second, h.ancestors]

/-- Two accesses give candidates with the same locations in either order. -/
theorem twin_of_comm (className : String) (ancestors : Nat) (a b : AccessEvent) :
    (of className ancestors a b).Twin (of className ancestors b a) := by
  have hswap : b.order a = (a.order b).swap := Std.OrientedCmp.eq_swap
  cases horder : a.order b with
  | lt =>
    have heq : of className ancestors b a = of className ancestors a b := by
      simp [of, hswap, horder]
    rw [heq]
    exact ⟨rfl, rfl, rfl, rfl, rfl, rfl⟩
  | eq =>
    -- accesses at one location keep the order in which they are given
    have hlocation : a.location = b.location :=
      Std.LawfulEqOrd.eq_of_compare (compareLex_eq_eq.1 horder).1
    have hab : of className ancestors a b = ⟨className, ancestors, a, b⟩ := by
      simp [of, horder]
    have hba : of className ancestors b a = ⟨className, ancestors, b, a⟩ := by
      simp [of, hswap, horder]
    rw [hab, hba]
    exact ⟨rfl, if_congr and_comm rfl rfl, Bool.and_comm .., hlocation, hlocation.symm, rfl⟩
  | gt =>
    have heq : of className ancestors b a = of className ancestors a b := by
      simp [of, hswap, horder]
    rw [heq]
    exact ⟨rfl, rfl, rfl, rfl, rfl, rfl⟩

end Candidate

namespace Collection

/-! ## What is kept goes first -/

/-- `KeepsLE best k candidate`: what is kept for the key goes before the candidate, or the same. -/
def KeepsLE (best : SortedMap RaceKey Candidate) (k : RaceKey) (candidate : Candidate) : Prop :=
  ∃ kept, best.get? k = some kept ∧ (kept.preference candidate).isLE = true

/-- Keeping one more entry, of a class that does not come before, loses nothing for any key, and
what is kept for its own key goes before the entry. -/
theorem keepsLE_keep {best : SortedMap RaceKey Candidate} {entry : RaceKey × Candidate}
    (hclass : ∀ old, best.get? entry.1 = some old →
      (compare old.className entry.2.className).isLE = true)
    {k : RaceKey} {candidate : Candidate} (h : KeepsLE best k candidate ∨ entry = (k, candidate)) :
    KeepsLE (keep best entry) k candidate := by
  obtain ⟨key, new⟩ := entry
  rw [KeepsLE, keep, SortedMap.get?_alter]
  by_cases hk : k = key
  · subst hk
    rw [if_pos rfl]
    refine ⟨_, rfl, ?_⟩
    cases hold : best.get? k with
    | none =>
      rcases h with ⟨kept, hkept, -⟩ | heq
      · rw [hold] at hkept
        cases hkept
      · obtain ⟨-, rfl⟩ := Prod.mk.inj heq
        exact Std.ReflCmp.isLE_rfl
    | some old =>
      dsimp only
      split
      · next hlt =>
        rcases h with ⟨kept, hkept, hle⟩ | heq
        · obtain rfl := Option.some_inj.1 (hold.symm.trans hkept)
          have hnew : new.preference old = .lt := by
            rw [Candidate.preference, compareLex, hlt]
            rfl
          exact Std.TransCmp.isLE_trans (by rw [hnew]; rfl) hle
        · obtain ⟨-, rfl⟩ := Prod.mk.inj heq
          exact Std.ReflCmp.isLE_rfl
      · next hnot =>
        rcases h with ⟨kept, hkept, hle⟩ | heq
        · obtain rfl := Option.some_inj.1 (hold.symm.trans hkept)
          exact hle
        · -- the ranks are the same at worst, and then the class decides
          obtain ⟨-, rfl⟩ := Prod.mk.inj heq
          have hswap : old.order new = (new.order old).swap := Std.OrientedCmp.eq_swap
          rw [Candidate.preference, compareLex, hswap]
          cases horder : new.order old with
          | lt => exact absurd horder hnot
          | eq => exact hclass old hold
          | gt => rfl
  · rw [if_neg hk]
    rcases h with hkept | heq
    · exact hkept
    · exact absurd (Prod.mk.inj heq).1.symm hk

/-- After several entries in the order of their classes, what is kept goes before what was kept and
before the entries. -/
theorem keepsLE_foldl_keep {entries : List (RaceKey × Candidate)}
    (hsorted : entries.Pairwise fun e e' => (compare e.2.className e'.2.className).isLE = true)
    {best : SortedMap RaceKey Candidate}
    (hbest : ∀ k old, best.get? k = some old →
      ∀ e ∈ entries, (compare old.className e.2.className).isLE = true)
    {k : RaceKey} {candidate : Candidate}
    (h : KeepsLE best k candidate ∨ (k, candidate) ∈ entries) :
    KeepsLE (entries.foldl keep best) k candidate := by
  induction entries generalizing best with
  | nil => exact h.resolve_right List.not_mem_nil
  | cons entry entries ih =>
    obtain ⟨hfirst, hrest⟩ := List.pairwise_cons.1 hsorted
    have hclass : ∀ old, best.get? entry.1 = some old →
        (compare old.className entry.2.className).isLE = true :=
      fun old hold => hbest _ old hold entry List.mem_cons_self
    refine ih hrest (fun k' old hold e he => ?_) ?_
    · rcases get?_keep best entry k' with ⟨hsame, -⟩ | ⟨-, hnew⟩
      · exact hbest k' old (hsame ▸ hold) e (List.mem_cons_of_mem _ he)
      · obtain rfl := Option.some_inj.1 (hold.symm.trans hnew)
        exact hfirst e he
    · rcases h with hkept | hmem
      · exact .inl (keepsLE_keep hclass (.inl hkept))
      · rcases List.mem_cons.1 hmem with heq | hrest
        · exact .inl (keepsLE_keep hclass (.inr heq.symm))
        · exact .inr hrest

variable {c : Collection}

theorem className_of_mem_candidatesIn {className : String} {entry : RaceKey × Candidate}
    (h : entry ∈ c.candidatesIn className) : entry.2.className = className := by
  simp only [candidatesIn, candidatesOn, List.mem_flatMap, List.mem_filterMap] at h
  obtain ⟨path, -, ⟨a, b⟩, -, hentry⟩ := h
  split at hentry
  · obtain rfl := Option.some_inj.1 hentry
    rcases Candidate.of_cases className (c.hierarchy.ancestors className).length a b with hof | hof
      <;> rw [hof]
  · cases hentry

/-- Candidates are listed in the order of their classes. -/
theorem pairwise_candidates : c.candidates.Pairwise fun e e' =>
    (compare e.2.className e'.2.className).isLE = true := by
  rw [candidates, List.pairwise_flatMap]
  constructor
  · intro className _
    refine List.pairwise_of_forall_mem_list fun e he e' he' => ?_
    rw [className_of_mem_candidatesIn he, className_of_mem_candidatesIn he']
    exact Std.ReflCmp.isLE_rfl
  · have hnames : c.hierarchy.classNames.Pairwise (compare · · = .lt) :=
      List.pairwise_map.2 c.hierarchy.classes.increasing
    refine hnames.imp fun {n n'} hlt e he e' he' => ?_
    rw [className_of_mem_candidatesIn he, className_of_mem_candidatesIn he', hlt]
    rfl

/-- **What is kept goes first**: for a key, what is kept goes before each of its candidates. -/
theorem exists_best_le {k : RaceKey} {candidate : Candidate} (h : (k, candidate) ∈ c.candidates) :
    ∃ kept, c.best.get? k = some kept ∧ (kept.preference candidate).isLE = true := by
  refine keepsLE_foldl_keep pairwise_candidates (fun k old hold => ?_) (.inr h)
  rw [SortedMap.get?_empty] at hold
  cases hold

/-- What is kept for a path and two methods goes before each conflict of theirs, seen from any class
that exposes it. -/
theorem exists_best_le_of_conflict {className : String} {a b : AccessEvent}
    (ha : a ∈ c.exposed className) (hb : b ∈ c.exposed className) (hpath : a.path = b.path)
    (hconflict : a.conflictsWith c.strict b = true) :
    ∃ kept, c.best.get? (.of a.path a.owner b.owner) = some kept ∧
      (kept.preference (.of className (c.hierarchy.ancestors className).length a b)).isLE
        = true := by
  obtain ⟨x, hx, -⟩ := mem_exposed.1 ha
  rcases mem_candidates_of_conflict (Hierarchy.mem_classNames_of_visible hx) ha hb hpath hconflict
    with hmem | hmem
  · exact exists_best_le hmem
  · obtain ⟨kept, hkept, hle⟩ := exists_best_le hmem
    -- met in the other order, the candidate is a twin
    have htwin := Candidate.twin_iff.2 (Candidate.twin_of_comm className
      (c.hierarchy.ancestors className).length b a)
    exact ⟨kept, hkept, Std.TransCmp.isLE_trans hle (by rw [htwin]; rfl)⟩

/-- What is kept goes before each conflict of its two methods, in every class that reports both. -/
theorem best_le_of_reports (hattributed : c.Attributed) {a b : AccessEvent} {m m' : MethodId}
    {kept : Candidate} (h : c.best.get? (.of a.path m m') = some kept) {className : String}
    {s s' : Summary} (hm : c.Reports className m s) (hm' : c.Reports className m' s')
    (ha : a ∈ s.accesses) (hb : b ∈ s'.accesses) (hpath : a.path = b.path)
    (hconflict : a.conflictsWith c.strict b = true) :
    (kept.preference (.of className (c.hierarchy.ancestors className).length a b)).isLE = true := by
  obtain ⟨best, hbest, hle⟩ :=
    exists_best_le_of_conflict (hm.mem_exposed ha) (hm'.mem_exposed hb) hpath hconflict
  rw [hattributed m s hm.2 a ha, hattributed m' s' hm'.2 b hb] at hbest
  obtain rfl := Option.some_inj.1 (h.symm.trans hbest)
  exact hle

end Collection

end Interlock
