import Interlock.Proofs.Overriding
import Interlock.Proofs.RaceGist
import Interlock.Proofs.RecordOrder

/-!
# The pair and the class of a finding

The candidates for a key are compared by the rank of their accesses and the class that they
are seen from, all at once and class by class. Every class that shows both methods exposes
all conflicts between them, so the two choices do not get in each other's way: a finding
names a pair of the smallest rank among all conflicts of its methods on its path, and the
most general class that shows both methods.

- `RaceRank`, `AccessEvent.rankWith`: the rank of two accesses, in either order.
- `Collection.Arises.rank_le`: what is kept has the smallest rank.
- `Collection.Reports.of_visible`: a class that shows a method reports it if any class does.
- `Builder.collection`, `Builder.attributed_collection`: summaries as a builder has them at any
  time.
- `findings_optimal`: the pair and the class of a finding.
-/

namespace Interlock

/-! ## Ranks -/

/-- Two locations, the smaller one first. -/
def Location.sorted (a b : Location) : Location × Location :=
  if (compare a b).isLE then (a, b) else (b, a)

/-- Two locations are sorted alike in either order. -/
theorem Location.sorted_comm (a b : Location) : sorted a b = sorted b a := by
  have hswap : compare b a = (compare a b).swap := Std.OrientedOrd.eq_swap
  rw [sorted, sorted, hswap]
  cases hcompare : compare a b with
  | lt => rfl
  | eq =>
    obtain rfl := Std.LawfulEqOrd.eq_of_compare hcompare
    rfl
  | gt => rfl

/-- How well two accesses stand for the conflicts between their methods, the smallest first. -/
structure RaceRank where
  /-- Not both are known to run in the background. -/
  unsure : Bool
  /-- Not both are writes. -/
  mixed : Bool
  first : Location
  second : Location

/-- Ranks in order: sure before unsure, two writes before others, then by the locations. -/
def RaceRank.order : RaceRank → RaceRank → Ordering :=
  compareLex (compareOn unsure) <| compareLex (compareOn mixed) <|
    compareLex (compareOn first) (compareOn second)

/-- The rank of two accesses. -/
def AccessEvent.rankWith (a b : AccessEvent) : RaceRank where
  unsure := ¬ (a.thread = .background ∧ b.thread = .background)
  mixed := !(a.kind.isWrite && b.kind.isWrite)
  first := (Location.sorted a.location b.location).1
  second := (Location.sorted a.location b.location).2

/-- So the rank does not depend on which access comes first. -/
theorem AccessEvent.rankWith_comm (a b : AccessEvent) : a.rankWith b = b.rankWith a := by
  simp only [rankWith, Location.sorted_comm a.location, and_comm, Bool.and_comm]

namespace Candidate

/-- The rank of the accesses of a candidate. -/
def rank (c : Candidate) : RaceRank := c.first.rankWith c.second

theorem rank_of (className : String) (ancestors : Nat) (a b : AccessEvent) :
    (of className ancestors a b).rank = a.rankWith b := by
  rcases of_cases className ancestors a b with h | h
  · rw [h]
    rfl
  · rw [h]
    exact AccessEvent.rankWith_comm b a

theorem confidence_eq_high {c : Candidate} :
    c.confidence = .high ↔ c.first.thread = .background ∧ c.second.thread = .background := by
  rw [confidence]
  split
  · next h => exact iff_of_true rfl h
  · next h => exact iff_of_false (by decide) h

/-- Unsure is what gets a low confidence. -/
theorem unsure_rank (c : Candidate) : c.rank.unsure = decide (c.confidence = .low) := by
  refine decide_eq_decide.2 ((not_congr confidence_eq_high.symm).trans ?_)
  cases c.confidence <;> decide

/-- Candidates whose accesses are in order are compared by rank, then by the number of ancestors. -/
theorem order_eq {c d : Candidate} (hc : (c.first.order c.second).isLE = true)
    (hd : (d.first.order d.second).isLE = true) :
    c.order d = (c.rank.order d.rank).then (compare c.ancestors d.ancestors) := by
  -- accesses in order have their locations in order
  have hsorted : ∀ {a b : AccessEvent}, (a.order b).isLE = true →
      Location.sorted a.location b.location = (a.location, b.location) :=
    fun h => if_pos (Ordering.isLE_left_of_isLE_then h)
  simp only [order, RaceRank.order, compareLex, compareOn, unsure_rank, Ordering.then_assoc]
  simp only [rank, AccessEvent.rankWith, hsorted hc, hsorted hd]
  rfl

end Candidate

/-! ## The pair -/

namespace Collection

variable {c : Collection}

/-- `c.ConflictsAt path m m' a b`: the two accesses, of these methods and to this path, conflict. -/
structure ConflictsAt (c : Collection) (path : AccessPath) (m m' : MethodId) (a b : AccessEvent) :
    Prop where
  first : ∃ s, c.summaryOf m = some s ∧ a ∈ s.accesses
  second : ∃ s, c.summaryOf m' = some s ∧ b ∈ s.accesses
  pathA : a.path = path
  pathB : b.path = path
  conflict : a.conflictsWith c.strict b = true

/-- What is kept has the smallest rank of all conflicts between its methods on its path. -/
theorem Arises.rank_le {kept : Candidate} (harises : c.Arises kept) (hattributed : c.Attributed)
    (h : c.best.get? kept.key = some kept) {a b : AccessEvent}
    (hab : c.ConflictsAt kept.first.path kept.first.owner kept.second.owner a b) :
    (kept.rank.order (a.rankWith b)).isLE = true := by
  obtain ⟨s, hs, -⟩ := hattributed.reports harises.first
  obtain ⟨s', hs', -⟩ := hattributed.reports harises.second
  obtain ⟨sa, hsa, ha⟩ := hab.first
  obtain ⟨sb, hsb, hb⟩ := hab.second
  obtain rfl := Option.some_inj.1 (hs.2.symm.trans hsa)
  obtain rfl := Option.some_inj.1 (hs'.2.symm.trans hsb)
  rw [Candidate.key, ← hab.pathA] at h
  -- whatever the class is, the rank is compared first
  have hle := Candidate.order_le_of_preference (best_le_of_reports hattributed h hs hs' ha hb
    (hab.pathA.trans hab.pathB.symm) hab.conflict)
  rw [Candidate.order_eq harises.ordered (Candidate.order_of ..), Candidate.rank_of] at hle
  exact Ordering.isLE_left_of_isLE_then hle

/-! ## The class -/

/-- If the numbers of methods are distinct, a class that shows a method reports it if any class
does. -/
theorem Reports.of_visible {decls : List ClassDecl} {methods : List Method}
    (hhierarchy : c.hierarchy = .of decls methods) (hids : (methods.map (·.id)).Nodup)
    {className className' : String} {m : MethodId} {s : Summary} (h : c.Reports className m s)
    (hvisible : ∃ x ∈ c.hierarchy.visibleMethods className', x.id = m) :
    c.Reports className' m s := by
  obtain ⟨⟨x, hx, hid, hroot⟩, hs⟩ := h
  obtain ⟨x', hx', hid'⟩ := hvisible
  refine ⟨⟨x', hx', hid', ?_⟩, hs⟩
  rw [hhierarchy] at hx hx'
  -- methods of one number are one method, so it is the same one that both classes show
  have heq : x' = x := List.inj_on_of_nodup_map hids (Hierarchy.mem_visibleMethods_of.1 hx').1
    (Hierarchy.mem_visibleMethods_of.1 hx).1 (hid'.trans hid.symm)
  rw [heq]
  exact hroot

end Collection

/-! ## Summaries of a builder -/

namespace Builder

/-- The summaries that a builder has finished, with the classes and methods of some records. -/
def collection (b : Builder) (store : Store) (decls : List ClassDecl) (methods : List Method)
    (strict : Bool) : Collection :=
  ⟨.of decls methods, b.finished? store, strict⟩

variable {b : Builder} (hk : b.facts.Keyed) (hg : b.graph = .of b.facts) {store : Store}
  (hstore : b.Sound store)

include hk hg hstore

/-- Summaries that are finished at any time are those that are there in the end. -/
theorem finished?_buildAll_of_sound {m : MethodId} {s : Summary}
    (h : b.finished? store m = some s) : b.finished? (b.buildAll {}) m = some s := by
  rw [finished?_eq] at h
  obtain ⟨c, hc, h⟩ := Option.bind_eq_some_iff.1 h
  obtain ⟨outcome, houtcome, hs⟩ := Option.bind_eq_some_iff.1 h
  rw [finished?_buildAll hk hg, summaryOf, hc, Option.bind_some, ← hstore.outcome houtcome]
  exact hs

/-- The accesses in a summary are those of its method. -/
theorem attributed_collection (decls : List ClassDecl) (methods : List Method) (strict : Bool) :
    (b.collection store decls methods strict).Attributed := by
  intro m s hs e he
  obtain ⟨f, hf, rfl⟩ := eq_summarize hk hg (fun _ => get?_buildAll hk hg)
    (finished?_buildAll_of_sound hk hg hstore hs)
  rw [(Summary.summarize_isOf f _).owner e he]
  exact hk m f hf

end Builder

/-! ## Findings -/

/-- The finding is on these two accesses. -/
structure Finding.IsAbout (f : Finding) (a b : AccessEvent) : Prop where
  locationA : f.locationA = a.location
  locationB : f.locationB = b.location
  kindA : f.kindA = a.kind
  kindB : f.kindB = b.kind
  confidence : f.confidence = .high ↔ a.thread = .background ∧ b.thread = .background

/-- The class shows both methods. -/
def Hierarchy.ShowsBoth (h : Hierarchy) (className : String) (m m' : MethodId) : Prop :=
  (∃ x ∈ h.visibleMethods className, x.id = m) ∧ ∃ x ∈ h.visibleMethods className, x.id = m'

instance (h : Hierarchy) (className : String) (m m' : MethodId) :
    Decidable (h.ShowsBoth className m m') :=
  inferInstanceAs (Decidable (_ ∧ _))

/-- **Best pair, most general class**: for summaries as a builder has them at any time, a finding is
on accesses of its two methods that conflict, with the smallest rank of all conflicts between these
methods on its path; and its class is the most general one that shows both methods. -/
theorem findings_optimal {decls : List ClassDecl} {methods : List Method}
    (hids : (methods.map (·.id)).Nodup) {b : Builder} (hk : b.facts.Keyed)
    (hg : b.graph = .of b.facts) {store : Store} (hstore : b.Sound store) {strict : Bool}
    {minConfidence : Confidence} {f : Finding}
    (hf : f ∈ (b.collection store decls methods strict).findings minConfidence) :
    (∃ x y, (b.collection store decls methods strict).ConflictsAt f.path f.methodA f.methodB x y ∧
      f.IsAbout x y ∧
      ∀ x' y', (b.collection store decls methods strict).ConflictsAt f.path f.methodA f.methodB
        x' y' → ((x.rankWith y).order (x'.rankWith y')).isLE = true) ∧
    (Hierarchy.of decls methods).ShowsBoth f.className f.methodA f.methodB ∧
    ∀ className, (Hierarchy.of decls methods).ShowsBoth className f.methodA f.methodB →
      ((Hierarchy.of decls methods).generality f.className className).isLE = true := by
  have hattributed := Builder.attributed_collection hk hg hstore decls methods strict
  obtain ⟨k, kept, hkept, -, rfl⟩ := Collection.mem_findings.1 hf
  have hcandidate := Collection.mem_candidates_of_get?_best hkept
  have harises := Collection.arises_of_mem_candidates hcandidate
  obtain rfl := Collection.key_of_mem_candidates hcandidate
  obtain ⟨s, hs, hfirst⟩ := hattributed.reports harises.first
  obtain ⟨s', hs', hsecond⟩ := hattributed.reports harises.second
  refine ⟨⟨kept.first, kept.second, ?_, ?_, ?_⟩, ?_, ?_⟩
  · exact ⟨⟨s, hs.2, hfirst⟩, ⟨s', hs'.2, hsecond⟩, rfl, harises.path.symm, harises.conflict⟩
  · exact ⟨rfl, rfl, rfl, rfl, Candidate.confidence_eq_high⟩
  · exact fun x' y' hconflict => harises.rank_le hattributed hkept hconflict
  · obtain ⟨x, hx, hid, -⟩ := hs.1
    obtain ⟨x', hx', hid', -⟩ := hs'.1
    exact ⟨⟨x, hx, hid⟩, ⟨x', hx', hid'⟩⟩
  · rintro className ⟨hvisible, hvisible'⟩
    exact Collection.best_class_le hattributed hkept (hs.of_visible rfl hids hvisible)
      (hs'.of_visible rfl hids hvisible')

/-- The summaries of the meter, with its classes and methods. -/
def Collection.meter : Collection :=
  (Session.of .meter {}).builder.collection (Session.of .meter {}).store Program.meter.classes
    Program.meter.methods false

/-- The methods of the meter have a read and a write each at one location, and are seen from the
gauge first. -/
theorem findings_optimal_meter :
    (Program.meter.methods.map (·.id)).Nodup ∧ (Session.of .meter {}).builder.facts.Keyed ∧
    (Session.of .meter {}).builder.Sound (Session.of .meter {}).store ∧
    ∃ f ∈ Collection.meter.findings .low, f.IsOn (.field "Meter" "ticks") ⟨0⟩ ⟨1⟩ ∧
      (∃ x y, f.IsAbout x y ∧
        ∀ x' y', Collection.meter.ConflictsAt f.path f.methodA f.methodB x' y' →
          ((x.rankWith y).order (x'.rankWith y')).isLE = true) ∧
      Collection.meter.hierarchy.ShowsBoth "Gauge" f.methodA f.methodB ∧
      (Collection.meter.hierarchy.generality f.className "Gauge").isLE = true := by
  have hids : (Program.meter.methods.map (·.id)).Nodup := by decide
  have hk : (Session.of .meter {}).builder.facts.Keyed := Session.keyed_facts .meter {}
  have hsound : (Session.of .meter {}).builder.Sound (Session.of .meter {}).store :=
    (Builder.buildAll_finishes hk rfl (Builder.sound_empty _)).1
  -- findings are sorted, which cannot be computed here; what is kept can be
  have hkey : RaceKey.of (.field "Meter" "ticks") ⟨0⟩ ⟨1⟩ ∈ Collection.meter.best.keys := by
    decide +kernel
  obtain ⟨f, hf, hon⟩ := List.mem_map.1 (Collection.keys_findings.mem_iff.2 hkey)
  have hgauge : Collection.meter.hierarchy.ShowsBoth "Gauge" f.methodA f.methodB := by
    obtain ⟨-, ⟨hA, hB⟩ | ⟨hA, hB⟩⟩ := Finding.key_eq_iff.1 hon <;>
    · rw [hA, hB]
      decide +kernel
  obtain ⟨⟨x, y, -, habout, hrank⟩, -, hclass⟩ := findings_optimal hids hk rfl hsound hf
  exact ⟨hids, hk, hsound, f, hf, Finding.key_eq_iff.1 hon, ⟨x, y, habout, hrank⟩, hgauge,
    hclass "Gauge" hgauge⟩

end Interlock
