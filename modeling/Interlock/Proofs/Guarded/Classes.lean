import Interlock.Proofs.Ancestors
import Interlock.Proofs.Guarded.Search
import Interlock.Proofs.RaceReports

/-!
# Classes and their races with every look-up guarded

Looking up a class that is not known fails, and so does looking for a summary that is not
there yet and taking the rest of a list from a place behind its end.

- `Hierarchy.capabilityTable?`: the capabilities of all classes.
- `pairsUp?`: the pairs of a list, by slices of it.
- `Collection.candidates?`: the candidates, with summaries that may be missing.
- `Hierarchy.capabilityTable?_eq_some`, `Collection.candidates?_eq_some`: no look-up fails.
-/

namespace Interlock

/-! ## Classes -/

namespace Hierarchy

variable (h : Hierarchy)

/-- The annotations of a class, if it is known. -/
def annotations? (name : String) : Option ClassAnnotations :=
  (h.classes.get? name).map (·.annotations)

/-- The capabilities of a class: its own and those of its ancestors. -/
def capabilities? (name : String) : Option Capabilities := do
  let annotations ← (name :: h.ancestors name).mapM h.annotations?
  return ⟨annotations.any (·.threadSafe), annotations.any (·.threadConfined)⟩

/-- The capabilities of every class. -/
def capabilityTable? : Option (List (String × Capabilities)) :=
  h.classNames.mapM fun name => (h.capabilities? name).map fun capabilities => (name, capabilities)

variable {h}

/-- The ancestors of a class are known. -/
theorem mem_classNames_of_ancestor {name ancestor : String}
    (hancestor : ancestor ∈ h.ancestors name) : ancestor ∈ h.classNames := by
  -- a class that is not known has no ancestors at all
  by_cases hname : name ∈ h.classNames
  · obtain ⟨hne, n, -, hchain⟩ := (mem_ancestors hname).1 hancestor
    cases hchain with
    | self => exact absurd rfl hne
    | step _ hparent => exact mem_classNames_of_parent hparent
  · rw [ancestors_eq_nil hname] at hancestor
    cases hancestor

/-- The annotations of a class that is known are found. -/
theorem annotations?_eq_some {name : String} (hname : name ∈ h.classNames) :
    h.annotations? name = some (h.info name).annotations := by
  obtain ⟨info, hinfo⟩ := SortedMap.mem_keys_iff.1 hname
  rw [annotations?, Hierarchy.info, hinfo]
  rfl

/-- Its capabilities are found as well, since its ancestors are known too. -/
theorem capabilities?_eq_some {name : String} (hname : name ∈ h.classNames) :
    h.capabilities? name = some (h.capabilities name) := by
  have hannotations : (name :: h.ancestors name).mapM h.annotations?
      = some ((name :: h.ancestors name).map fun c => (h.info c).annotations) := by
    refine mapM_eq_some fun c hc => annotations?_eq_some ?_
    rcases List.mem_cons.1 hc with rfl | hancestor
    · exact hname
    · exact mem_classNames_of_ancestor hancestor
  rw [capabilities?, hannotations]
  rfl

/-- **Classes**: no look-up fails when the capabilities of all classes are found. -/
theorem capabilityTable?_eq_some (h : Hierarchy) :
    h.capabilityTable? = some (h.classNames.map fun name => (name, h.capabilities name)) :=
  mapM_eq_some fun name hname => by rw [capabilities?_eq_some hname, Option.map_some]

end Hierarchy

/-! ## Races -/

/-- The rest of a list from place `i` on, if the list is that long. -/
def slice? {α : Type} (l : List α) (i : Nat) : Option (List α) :=
  if i ≤ l.length then some (l.drop i) else none

/-- Every element of a list paired with itself and with those after it. -/
def pairsUp? {α : Type} (l : List α) : Option (List (α × α)) :=
  let pairs := l.zipIdx.mapM fun e => (slice? l e.2).map fun rest => rest.map fun b => (e.1, b)
  pairs.map List.flatten

/-- No slice starts behind the end of its list. -/
theorem pairsUp?_eq_some {α : Type} (l : List α) : pairsUp? l = some (pairsUp l) := by
  have hslices : l.zipIdx.mapM (fun e => (slice? l e.2).map fun rest => rest.map fun b => (e.1, b))
      = some (l.zipIdx.map fun e => (l.drop e.2).map fun b => (e.1, b)) := by
    refine mapM_eq_some fun e he => ?_
    have hlt := (List.getElem?_eq_some_iff.1 (List.mem_zipIdx_iff_getElem?.1 he)).1
    rw [slice?, if_pos hlt.le, Option.map_some]
  -- the slice at each place is the rest of the list there, so slices follow the recursion
  have hpairs : ∀ (start : Nat) (rest : List α), l.drop start = rest →
      ((rest.zipIdx start).map fun e => (l.drop e.2).map fun b => (e.1, b)).flatten
        = pairsUp rest := by
    intro start rest
    induction rest generalizing start with
    | nil => exact fun _ => rfl
    | cons a rest ih =>
      intro hrest
      have hnext : l.drop (start + 1) = rest := by rw [← List.tail_drop, hrest, List.tail_cons]
      rw [List.zipIdx_cons, List.map_cons, List.flatten_cons, hrest, ih (start + 1) hnext]
      rfl
  rw [pairsUp?, hslices, Option.map_some, hpairs 0 l rfl]

namespace Collection

variable (c : Collection) (look? : MethodId → Option (Option Summary))

/-- The accesses that a class exposes. -/
def exposed? (className : String) : Option (List AccessEvent) := do
  let roots := (c.hierarchy.visibleMethods className).filter (·.isReportingRoot)
  let summaries ← roots.mapM fun m => look? m.id
  return (summaries.filterMap id).flatMap (·.accesses)

/-- The candidates among accesses to one path. -/
def candidatesOn? (className : String) (ancestors : Nat) (events : List AccessEvent) :
    Option (List (RaceKey × Candidate)) := do
  let pairs ← pairsUp? events
  return pairs.filterMap fun (a, b) =>
    if a.conflictsWith c.strict b then
      some (.of a.path a.owner b.owner, .of className ancestors a b)
    else none

/-- The candidates of a class, path by path. -/
def candidatesIn? (className : String) : Option (List (RaceKey × Candidate)) := do
  let events ← c.exposed? look? className
  let ancestors := (c.hierarchy.ancestors className).length
  let found ← (SortedSet.ofList (events.map (·.path))).toList.mapM fun path =>
    c.candidatesOn? className ancestors (events.filter (·.path = path))
  return found.flatten

/-- All candidates. -/
def candidates? : Option (List (RaceKey × Candidate)) :=
  (c.hierarchy.classNames.mapM (c.candidatesIn? look?)).map List.flatten

/-- The findings that come of some candidates, of at least the given confidence, in order. -/
def report (candidates : List (RaceKey × Candidate)) (minConfidence : Confidence) : List Finding :=
  let best := candidates.foldl keep ∅
  let kept := best.values.filter fun candidate => (compare minConfidence candidate.confidence).isLE
  (kept.map (Finding.ofCandidate c.nameOf)).mergeSort fun a b => (a.order b).isLE

theorem report_candidates (minConfidence : Confidence) :
    c.report c.candidates minConfidence = c.findings minConfidence := rfl

variable {c look?}

theorem candidatesOn?_eq_some (className : String) (ancestors : Nat) (events : List AccessEvent) :
    c.candidatesOn? className ancestors events
      = some (c.candidatesOn className ancestors events) := by
  rw [candidatesOn?, pairsUp?_eq_some]
  rfl

variable (h : ∀ m, look? m = some (c.summaryOf m))

include h

/-- The summaries of the visible methods are found. -/
theorem exposed?_eq_some (className : String) :
    c.exposed? look? className = some (c.exposed className) := by
  have hsummaries : ∀ roots : List Method, roots.mapM (fun m => look? m.id)
      = some (roots.map fun m => c.summaryOf m.id) :=
    fun roots => mapM_eq_some fun m _ => h m.id
  rw [exposed?, hsummaries, exposed]
  show some (((List.map _ _).filterMap id).flatMap _) = _
  rw [List.filterMap_map]
  rfl

theorem candidatesIn?_eq_some (className : String) :
    c.candidatesIn? look? className = some (c.candidatesIn className) := by
  have hpaths : ∀ events : List AccessEvent, ∀ paths : List AccessPath,
      paths.mapM (fun path => c.candidatesOn? className (c.hierarchy.ancestors className).length
        (events.filter (·.path = path)))
      = some (paths.map fun path =>
        c.candidatesOn className (c.hierarchy.ancestors className).length
          (events.filter (·.path = path))) :=
    fun events paths => mapM_eq_some fun path _ => candidatesOn?_eq_some className _ _
  rw [candidatesIn?, exposed?_eq_some h, candidatesIn, List.flatMap_def]
  show Option.bind (List.mapM _ _) _ = _
  rw [hpaths]
  rfl

/-- **Races**: if every summary that is looked for is there, no look-up fails when they are
collected. -/
theorem candidates?_eq_some : c.candidates? look? = some c.candidates := by
  rw [candidates?, mapM_eq_some fun className _ => candidatesIn?_eq_some h className,
    Option.map_some, candidates, List.flatMap_def]

end Collection

end Interlock
