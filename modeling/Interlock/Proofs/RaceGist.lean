import Interlock.Proofs.Interfaces
import Interlock.Proofs.Representatives

/-!
# What findings say without locations

Of the candidates for a key, the one that is kept depends on locations, but what it says
besides does not: the confidence and whether both accesses write are the best that any
conflict on the key has, and the class is the most general one that exposes both methods.
So the findings say the same of collections whose summaries have the same accesses up to
where these stand.

- `Candidate.profile`: candidates by confidence and kinds.
- `Hierarchy.generality`, `Collection.best_class_le`: the class of what is kept.
- `AccessEvent.nature`, `Collection.Echoes`: the same accesses up to locations.
- `Collection.Echoes.exists_best`: what is kept there is no worse.
- `Finding.gist`, `Collection.gist_findings`: what findings say.
-/

namespace Interlock

/-! ## Confidence and kinds -/

namespace Candidate

/-- High confidence before low, then two writes before others. -/
def profile : Candidate → Candidate → Ordering :=
  compareLex (compareOn fun c : Candidate => decide (c.confidence = .low))
    (compareOn fun c => !c.isWriteWrite)

instance : Std.TransCmp profile := inferInstanceAs (Std.TransCmp (compareLex _ _))

/-- What goes before another has a profile that is no worse. -/
theorem profile_le_of_preference {c d : Candidate} (h : (c.preference d).isLE = true) :
    (c.profile d).isLE = true := by
  have horder := order_le_of_preference h
  simp only [order, compareLex, ← Ordering.then_assoc] at horder
  exact Ordering.isLE_left_of_isLE_then (Ordering.isLE_left_of_isLE_then
    (Ordering.isLE_left_of_isLE_then horder))

/-- A profile tells the confidence and whether both accesses write. -/
theorem profile_eq {c d : Candidate} (h : c.profile d = .eq) :
    c.confidence = d.confidence ∧ c.isWriteWrite = d.isWriteWrite := by
  obtain ⟨hlow, hwrite⟩ := compareLex_eq_eq.1 h
  have hlow : decide (c.confidence = .low) = decide (d.confidence = .low) :=
    Std.LawfulEqOrd.eq_of_compare hlow
  refine ⟨?_, Bool.not_inj (Std.LawfulEqOrd.eq_of_compare hwrite)⟩
  revert hlow
  cases c.confidence <;> cases d.confidence <;> decide

theorem isWriteWrite_of (className : String) (ancestors : Nat) (a b : AccessEvent) :
    (of className ancestors a b).isWriteWrite = (a.kind.isWrite && b.kind.isWrite) := by
  rcases of_cases className ancestors a b with h | h
  · rw [h]
    rfl
  · rw [h]
    exact Bool.and_comm ..

/-- Of one pair of accesses in several classes, the class decides. -/
theorem preference_of (className className' : String) (ancestors ancestors' : Nat)
    (a b : AccessEvent) : (of className ancestors a b).preference (of className' ancestors' a b)
      = (compare ancestors ancestors').then (compare className className') := by
  have hconfidence : (of className ancestors a b).confidence
      = (of className' ancestors' a b).confidence := by
    rw [confidence_of, confidence_of]
  have hwrite : (of className ancestors a b).isWriteWrite
      = (of className' ancestors' a b).isWriteWrite := by
    rw [isWriteWrite_of, isWriteWrite_of]
  simp only [preference, order, compareLex, compareOn, hconfidence, hwrite]
  unfold of
  split <;> simp

end Candidate

/-! ## Classes -/

/-- Classes with fewer ancestors first, then by name. -/
def Hierarchy.generality (h : Hierarchy) : String → String → Ordering :=
  compareLex (compareOn fun className => (h.ancestors className).length) compare

/-- Classes are told apart by their names, whatever their ancestors. -/
theorem Hierarchy.eq_of_generality {h : Hierarchy} {className className' : String}
    (hle : (h.generality className className').isLE = true)
    (hge : (h.generality className' className).isLE = true) : className = className' := by
  have : Std.TransCmp h.generality := inferInstanceAs (Std.TransCmp (compareLex _ _))
  exact Std.LawfulEqOrd.eq_of_compare
    (compareLex_eq_eq.1 (Std.OrientedCmp.isLE_antisymm hle hge)).2

namespace Collection

variable {c c' : Collection}

/-- A candidate against its accesses in another class. -/
theorem Arises.preference_of {candidate : Candidate} (h : c.Arises candidate) (className : String) :
    candidate.preference (.of className (c.hierarchy.ancestors className).length candidate.first
      candidate.second) = c.hierarchy.generality candidate.className className := by
  have hpreference := Candidate.preference_of candidate.className className
    (c.hierarchy.ancestors candidate.className).length (c.hierarchy.ancestors className).length
    candidate.first candidate.second
  rw [← h.eq_of] at hpreference
  exact hpreference

/-- The class of what is kept for a path and two methods is the most general one that exposes
both. -/
theorem best_class_le (hattributed : c.Attributed) {path : AccessPath} {m m' : MethodId}
    {kept : Candidate} (h : c.best.get? (.of path m m') = some kept) {className : String}
    {s s' : Summary} (hm : c.Reports className m s) (hm' : c.Reports className m' s') :
    (c.hierarchy.generality kept.className className).isLE = true := by
  have hcandidate := mem_candidates_of_get?_best h
  have harises := arises_of_mem_candidates hcandidate
  obtain ⟨sa, hsa, ha⟩ := hattributed.reports harises.first
  obtain ⟨sb, hsb, hb⟩ := hattributed.reports harises.second
  -- the class exposes both accesses, for it exposes all that their methods have
  have hle : ∀ {s s'}, c.Reports className kept.first.owner s →
      c.Reports className kept.second.owner s' →
      (c.hierarchy.generality kept.className className).isLE = true := by
    intro s s' hs hs'
    obtain rfl := Option.some_inj.1 (hsa.2.symm.trans hs.2)
    obtain rfl := Option.some_inj.1 (hsb.2.symm.trans hs'.2)
    rw [← key_of_mem_candidates hcandidate] at h
    rw [← harises.preference_of]
    exact best_le_of_reports hattributed h hs hs' ha hb harises.path harises.conflict
  obtain ⟨-, ⟨hfirst, hsecond⟩ | ⟨hfirst, hsecond⟩⟩ :=
    RaceKey.of_eq_of (key_of_mem_candidates hcandidate)
  · exact hle (hfirst ▸ hm) (hsecond ▸ hm')
  · exact hle (hfirst ▸ hm') (hsecond ▸ hm)

/-! ## The same accesses up to locations -/

end Collection

/-- What an event says, but for where it stands. -/
def AccessEvent.nature (e : AccessEvent) : AccessPath × AccessKind × LockSet × ThreadContext :=
  (e.path, e.kind, e.locks, e.thread)

namespace AccessEvent

variable {a a' b b' : AccessEvent}

theorem nature_eq (h : a'.nature = a.nature) :
    a'.path = a.path ∧ a'.kind = a.kind ∧ a'.locks = a.locks ∧ a'.thread = a.thread := by
  simpa only [nature, Prod.mk.injEq] using h

/-- Locations do not matter to conflicts. -/
theorem conflictsWith_of_nature (ha : a'.nature = a.nature) (hb : b'.nature = b.nature)
    (strict : Bool) : a'.conflictsWith strict b' = a.conflictsWith strict b := by
  obtain ⟨-, hkind, hlocks, hthread⟩ := nature_eq ha
  obtain ⟨-, hkind', hlocks', hthread'⟩ := nature_eq hb
  rw [conflictsWith, conflictsWith, hkind, hlocks, hthread, hkind', hlocks', hthread']

end AccessEvent

namespace Collection

/-- `c.Echoes c'`: the second collection has the summaries and accesses of the first, maybe at other
locations. -/
structure Echoes (c c' : Collection) : Prop where
  hierarchy : c.hierarchy.Alike c'.hierarchy
  strict : c.strict = c'.strict
  summaryOf : ∀ m s, c.summaryOf m = some s → ∃ s', c'.summaryOf m = some s' ∧
    ∀ e ∈ s.accesses, ∃ e' ∈ s'.accesses, e'.nature = e.nature

variable {c c' : Collection}

namespace Echoes

variable (h : c.Echoes c')

include h

/-- A method that a class reports is reported with the same accesses, somewhere. -/
theorem reports {className : String} {m : MethodId} {s : Summary} (hm : c.Reports className m s) :
    ∃ s', c'.Reports className m s' ∧ ∀ e ∈ s.accesses, ∃ e' ∈ s'.accesses,
      e'.nature = e.nature := by
  obtain ⟨⟨x, hx, hid, hroot⟩, hs⟩ := hm
  obtain ⟨x', hx', hinterface⟩ := h.hierarchy.exists_visible hx
  obtain ⟨s', hs', hevents⟩ := h.summaryOf m s hs
  have hid' : x'.id = x.id := (congrArg Method.id hinterface :)
  have hroot' : x'.isReportingRoot = x.isReportingRoot :=
    (congrArg Method.isReportingRoot hinterface :)
  exact ⟨s', ⟨⟨x', hx', hid'.trans hid, hroot'.trans hroot⟩, hs'⟩, hevents⟩

/-- Exposed accesses are exposed in the other collection too, somewhere. -/
theorem exists_exposed (howned : c.Owned) (howned' : c'.Owned) {className : String}
    {e : AccessEvent} (he : e ∈ c.exposed className) :
    ∃ e' ∈ c'.exposed className, e'.nature = e.nature ∧ e'.owner = e.owner := by
  obtain ⟨-, s, hs, he⟩ := howned.reports he
  obtain ⟨s', hs', hevents⟩ := h.reports hs
  obtain ⟨e', he', hnature⟩ := hevents e he
  exact ⟨e', hs'.mem_exposed he', hnature, (howned' _ s' hs'.2 e' he').1⟩

/-- What is kept for a key has a counterpart that is no worse, and its class is exposed there. -/
theorem exists_best (howned : c.Owned) (howned' : c'.Owned) {k : RaceKey} {kept : Candidate}
    (hkept : c.best.get? k = some kept) : ∃ kept', c'.best.get? k = some kept' ∧
      (kept'.profile kept).isLE = true ∧
      (c'.hierarchy.generality kept'.className kept.className).isLE = true := by
  have hcandidate := mem_candidates_of_get?_best hkept
  have harises := arises_of_mem_candidates hcandidate
  have hkey : kept.key = k := key_of_mem_candidates hcandidate
  obtain ⟨a', ha', hnature, howner⟩ := h.exists_exposed howned howned' harises.first
  obtain ⟨b', hb', hnature', howner'⟩ := h.exists_exposed howned howned' harises.second
  obtain ⟨hpathA, hkindA, -, hthreadA⟩ := AccessEvent.nature_eq hnature
  obtain ⟨hpathB, hkindB, -, hthreadB⟩ := AccessEvent.nature_eq hnature'
  have hconflict' : a'.conflictsWith c'.strict b' = true := by
    rw [AccessEvent.conflictsWith_of_nature hnature hnature', ← h.strict]
    exact harises.conflict
  obtain ⟨kept', hkept', hle⟩ := exists_best_le_of_conflict ha' hb'
    (hpathA.trans (harises.path.trans hpathB.symm)) hconflict'
  rw [hpathA, howner, howner'] at hkept'
  rw [← hkey]
  refine ⟨kept', hkept', ?_, ?_⟩
  · -- confidence and kinds are those of the two accesses
    have hprofile : (Candidate.of kept.className (c'.hierarchy.ancestors kept.className).length
        a' b').profile kept = .eq := by
      rw [Candidate.profile, compareLex_eq_eq]
      simp only [compareOn, Candidate.confidence_of, Candidate.isWriteWrite_of, hkindA, hkindB,
        hthreadA, hthreadB]
      exact ⟨Std.ReflCmp.compare_self, Std.ReflCmp.compare_self⟩
    exact Std.TransCmp.isLE_trans (Candidate.profile_le_of_preference hle) (by rw [hprofile]; rfl)
  · obtain ⟨-, s, hs, -⟩ := howned'.reports ha'
    obtain ⟨-, s', hs', -⟩ := howned'.reports hb'
    rw [howner] at hs
    rw [howner'] at hs'
    exact best_class_le howned'.attributed hkept' hs hs'

end Echoes

end Collection

/-! ## Findings -/

/-- What a finding says without locations: the class, the path and the two methods in either order,
the confidence, and whether both accesses write. -/
def Finding.gist (f : Finding) : String × RaceKey × Confidence × Bool :=
  (f.className, f.key, f.confidence, f.kindA.isWrite && f.kindB.isWrite)

namespace Collection

variable {c c' : Collection} (howned : c.Owned) (howned' : c'.Owned) (h : c.Echoes c')
  (h' : c'.Echoes c) {minConfidence : Confidence}

include howned howned' h h'

/-- What is kept for a key says the same in both collections. -/
theorem exists_same_best {k : RaceKey} {kept : Candidate} (hkept : c.best.get? k = some kept) :
    ∃ kept', c'.best.get? k = some kept' ∧ kept'.className = kept.className ∧
      kept'.confidence = kept.confidence ∧ kept'.isWriteWrite = kept.isWriteWrite := by
  obtain ⟨kept', hkept', hprofile, hclass⟩ := h.exists_best howned howned' hkept
  -- there and back leads to what was kept, so neither of the two is worse
  obtain ⟨again, hagain, hprofile', hclass'⟩ := h'.exists_best howned' howned hkept'
  obtain rfl := Option.some_inj.1 (hkept.symm.trans hagain)
  have hgenerality : c'.hierarchy.generality = c.hierarchy.generality := by
    funext className className'
    simp only [Hierarchy.generality, h.hierarchy.sameClasses.ancestors]
  rw [hgenerality] at hclass
  obtain ⟨hconfidence, hwrite⟩ :=
    Candidate.profile_eq (Std.OrientedCmp.isLE_antisymm hprofile hprofile')
  exact ⟨kept', hkept', Hierarchy.eq_of_generality hclass hclass', hconfidence, hwrite⟩

/-- Each finding has one that says the same. -/
theorem exists_gist {f : Finding} (hf : f ∈ c.findings minConfidence) :
    ∃ f' ∈ c'.findings minConfidence, f'.gist = f.gist := by
  obtain ⟨k, kept, hkept, hmin, rfl⟩ := mem_findings.1 hf
  obtain ⟨kept', hkept', hclass, hconfidence, hwrite⟩ :=
    exists_same_best howned howned' h h' hkept
  refine ⟨_, mem_findings.2 ⟨k, kept', hkept', hconfidence ▸ hmin, rfl⟩, ?_⟩
  have hkey : kept'.key = kept.key := by
    rw [key_of_mem_candidates (mem_candidates_of_get?_best hkept'),
      key_of_mem_candidates (mem_candidates_of_get?_best hkept)]
  show (kept'.className, kept'.key, kept'.confidence, kept'.isWriteWrite)
    = (kept.className, kept.key, kept.confidence, kept.isWriteWrite)
  rw [hclass, hkey, hconfidence, hwrite]

/-- **Findings without locations**: the findings of both collections say the same. -/
theorem gist_findings : ((c.findings minConfidence).map Finding.gist).Perm
    ((c'.findings minConfidence).map Finding.gist) := by
  -- the key is part of what a finding says, and no key comes twice
  have hnodup : ∀ c : Collection, ((c.findings minConfidence).map Finding.gist).Nodup := by
    intro c
    refine List.Nodup.of_map (fun gist => gist.2.1) ?_
    rw [List.map_map]
    exact nodup_keys_findings
  refine (List.perm_ext_iff_of_nodup (hnodup c) (hnodup c')).2 fun gist => ?_
  rw [List.mem_map, List.mem_map]
  constructor
  · rintro ⟨f, hf, rfl⟩
    exact exists_gist howned howned' h h' hf
  · rintro ⟨f', hf', rfl⟩
    exact exists_gist howned' howned h' h hf'

end Collection

end Interlock
