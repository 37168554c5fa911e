import Interlock.Proofs.CallGraph
import Interlock.Proofs.Guarded.Condensation

/-!
# Call graphs in tables, with every look-up guarded

The call graph as tables, and the order of methods by a search on their places. Looking up
the place of a method, the method of a place and the entries of the tables may fail.

- `CallTables.of?`: the tables of a table of facts.
- `CallTables.componentOf?`, `CallTables.members?`, `CallTables.isCyclic?`, `CallTables.draw?`:
  look-ups.
- `calleeFirst?`: the order of methods that puts callees first.
- `CallTables.exists_of?`, `calleeFirst?_eq_some`: no look-up fails.
-/

namespace Interlock

/-! ## Searching under other names -/

namespace Search

variable {α β : Type}

/-- A search with every node replaced by its image. -/
def map (f : α → β) (s : Search α) : Search β := ⟨s.entered.map f, s.left.map f⟩

/-- If a search commutes with taking images, so do several in turn. -/
theorem foldl_map {f : α → β} {nodes : List α} {search : α → Search α → Search α}
    {search' : β → Search β → Search β}
    (hsearch : ∀ v ∈ nodes, ∀ s : Search α, (∀ u ∈ s.entered, u ∈ nodes) →
      search' (f v) (s.map f) = (search v s).map f ∧ ∀ u ∈ (search v s).entered, u ∈ nodes)
    {vs : List α} (hvs : ∀ v ∈ vs, v ∈ nodes) {s : Search α} (hs : ∀ u ∈ s.entered, u ∈ nodes) :
    (vs.map f).foldl (fun s v => search' v s) (s.map f)
        = (vs.foldl (fun s v => search v s) s).map f ∧
      ∀ u ∈ (vs.foldl (fun s v => search v s) s).entered, u ∈ nodes := by
  induction vs generalizing s with
  | nil => exact ⟨rfl, hs⟩
  | cons v vs ih =>
    obtain ⟨heq, hkept⟩ := hsearch v (hvs v List.mem_cons_self) s hs
    rw [List.map_cons, List.foldl_cons, List.foldl_cons, heq]
    exact ih (fun w hw => hvs w (List.mem_cons_of_mem _ hw)) hkept

variable [DecidableEq α] [DecidableEq β] {f : α → β} {nodes : List α} {next : α → List α}
  {next' : β → List β} (hinj : ∀ u ∈ nodes, ∀ v ∈ nodes, f u = f v → u = v)
  (hnext : ∀ v ∈ nodes, next' (f v) = (next v).map f)
  (hclosed : ∀ v ∈ nodes, ∀ w ∈ next v, w ∈ nodes)

include hinj hnext hclosed

/-- Searching from an image is taking the images of a search, and no search leaves the graph. -/
theorem visit_map (depth : Nat) (v : α) (hv : v ∈ nodes) (s : Search α)
    (hs : ∀ u ∈ s.entered, u ∈ nodes) :
    (s.map f).visit next' depth (f v) = (s.visit next depth v).map f ∧
      ∀ u ∈ (s.visit next depth v).entered, u ∈ nodes := by
  induction depth generalizing v s with
  | zero => exact ⟨rfl, hs⟩
  | succ depth ih =>
    have hmem : f v ∈ (s.map f).entered ↔ v ∈ s.entered := by
      constructor
      · intro h
        obtain ⟨u, hu, heq⟩ := List.mem_map.1 h
        rwa [← hinj u (hs u hu) v hv heq]
      · exact List.mem_map_of_mem
    by_cases hentered : v ∈ s.entered
    · rw [visit, if_pos (hmem.2 hentered), visit, if_pos hentered]
      exact ⟨rfl, hs⟩
    · have henter : ∀ u ∈ v :: s.entered, u ∈ nodes := by
        intro u hu
        rcases List.mem_cons.1 hu with rfl | hu
        · exact hv
        · exact hs u hu
      obtain ⟨hbelow, hkept⟩ := foldl_map ih (hclosed v hv)
        (s := { s with entered := v :: s.entered }) henter
      rw [visit, if_neg fun h => hentered (hmem.1 h), visit, if_neg hentered, hnext v hv]
      exact ⟨congrArg (fun t : Search β => { t with left := f v :: t.left }) hbelow, hkept⟩

/-- The order found among the images is that of the images. -/
theorem reversePostOrder_map (size : Nat) {roots : List α} (hroots : ∀ v ∈ roots, v ∈ nodes) :
    reversePostOrder next' size (roots.map f) = (reversePostOrder next size roots).map f :=
  congrArg Search.left (foldl_map (visit_map hinj hnext hclosed size) hroots (s := {})
    fun _ hu => nomatch hu).1

end Search

/-! ## Callees first -/

/-- The place of a method in a list, if it is there. -/
def placeOf? (methods : List MethodId) (m : MethodId) : Option Nat :=
  if m ∈ methods then some (methods.idxOf m) else none

/-- For each method of a list the places of its callees among them. -/
def calleePlaces (fs : List MethodFacts) : List (List Nat) :=
  fs.map fun f => f.callees.filterMap (placeOf? (fs.map (·.method)))

/-- The callee to search next from place `v`, after `i` of them. -/
def peekCallee? (fs : List MethodFacts) (v i : Nat) : Option (Option Nat) :=
  ((calleePlaces fs)[v]?).map (·[i]?)

/-- Methods ordered so that callees come before callers wherever no recursion forbids it, by their
places. -/
def calleeFirst? (fs : List MethodFacts) : Option (List MethodFacts) := do
  let order ← searchOrder? (peekCallee? fs) fs.length (List.range fs.length)
  order.reverse.mapM (fs[·]?)

section CalleeFirst

variable {fs : List MethodFacts}

/-- The places of those methods that are there. -/
theorem filterMap_placeOf? (methods ms : List MethodId) :
    ms.filterMap (placeOf? methods) = (ms.filter (· ∈ methods)).map methods.idxOf := by
  induction ms with
  | nil => rfl
  | cons m ms ih =>
    by_cases hm : m ∈ methods
    · have hplace : placeOf? methods m = some (methods.idxOf m) := if_pos hm
      rw [List.filterMap_cons_some hplace, List.filter_cons_of_pos (by simpa using hm), ih,
        List.map_cons]
    · have hplace : placeOf? methods m = none := if_neg hm
      rw [List.filterMap_cons_none hplace, List.filter_cons_of_neg (by simpa using hm), ih]

variable (hfs : (fs.map (·.method)).Nodup)

include hfs

/-- The facts at the place of a method. -/
theorem getElem?_idxOf_method {f : MethodFacts} (hf : f ∈ fs) :
    fs[(fs.map (·.method)).idxOf f.method]? = some f := by
  obtain ⟨i, hi⟩ := List.getElem?_of_mem hf
  obtain ⟨hlt, rfl⟩ := List.getElem?_eq_some_iff.1 hi
  have hidx := hfs.idxOf_getElem i (by rwa [List.length_map])
  rw [List.getElem_map] at hidx
  rw [hidx, hi]

/-- The callees of a method, as places. -/
theorem calleePlaces_getElem? {f : MethodFacts} (hf : f ∈ fs) :
    (calleePlaces fs)[(fs.map (·.method)).idxOf f.method]?
      = some ((calleesAmong fs f.method).map (fs.map (·.method)).idxOf) := by
  rw [calleePlaces, List.getElem?_map, getElem?_idxOf_method hfs hf, Option.map_some,
    filterMap_placeOf?, calleesAmong, find?_method hfs hf]
  refine congrArg some (congrArg _ (List.filter_congr fun callee _ => ?_))
  rw [Bool.eq_iff_iff, decide_eq_true_eq, List.any_eq_true, List.mem_map]
  simp only [decide_eq_true_eq]

/-- **Order in a component**: no look-up fails when methods with distinct numbers are ordered. -/
theorem calleeFirst?_eq_some : calleeFirst? fs = some (calleeFirst fs) := by
  have hlength : (fs.map (·.method)).length = fs.length := List.length_map _
  -- every place is that of some method, so what is known of methods is known of places
  have hplaces : ∀ v < fs.length, ∃ f ∈ fs, (fs.map (·.method)).idxOf f.method = v := by
    intro v hv
    have hidx := hfs.idxOf_getElem v (hlength ▸ hv)
    rw [List.getElem_map] at hidx
    exact ⟨fs[v], List.getElem_mem hv, hidx⟩
  have hpeek : ∀ v < fs.length, ∀ i,
      peekCallee? fs v i = some (((calleePlaces fs)[v]?.getD [])[i]?) := by
    intro v hv i
    obtain ⟨f, hf, rfl⟩ := hplaces v hv
    rw [peekCallee?, calleePlaces_getElem? hfs hf, Option.map_some, Option.getD_some]
  have hlt : ∀ v < fs.length, ∀ w ∈ (calleePlaces fs)[v]?.getD [], w < fs.length := by
    intro v hv w hw
    obtain ⟨f, hf, rfl⟩ := hplaces v hv
    rw [calleePlaces_getElem? hfs hf, Option.getD_some] at hw
    obtain ⟨callee, hcallee, rfl⟩ := List.mem_map.1 hw
    rw [← hlength]
    exact List.idxOf_lt_length_of_mem (mem_of_mem_calleesAmong hcallee)
  have horder := searchOrder?_eq_some hpeek hlt fun v hv => List.mem_range.1 hv
  -- the search among places is the one among methods under other names
  have hroots : List.range fs.length = (fs.map (·.method)).map (fs.map (·.method)).idxOf := by
    refine List.ext_getElem (by simp) fun i hi hi' => ?_
    rw [List.getElem_range, List.getElem_map, hfs.idxOf_getElem]
  have hclosed : ∀ m ∈ fs.map (·.method), ∀ callee ∈ calleesAmong fs m,
      callee ∈ fs.map (·.method) := fun _ _ _ => mem_of_mem_calleesAmong
  have hmap : reversePostOrder (fun v => (calleePlaces fs)[v]?.getD []) fs.length
        (List.range fs.length)
      = (reversePostOrder (calleesAmong fs) fs.length (fs.map (·.method))).map
        (fs.map (·.method)).idxOf := by
    rw [hroots]
    refine Search.reversePostOrder_map ?_ ?_ hclosed fs.length
      fun m hm => hm
    · exact fun u hu v _ heq => (List.idxOf_inj hu).1 heq
    · intro m hm
      obtain ⟨f, hf, rfl⟩ := List.mem_map.1 hm
      rw [calleePlaces_getElem? hfs hf, Option.getD_some]
  -- the facts at the place of a method are the ones found by its number
  have hfind : ∀ m ∈ postOrder (calleesAmong fs) fs.length (fs.map (·.method)),
      fs[(fs.map (·.method)).idxOf m]? = fs.find? (·.method = m) ∧
        ∃ f, fs.find? (·.method = m) = some f := by
    intro m hm
    obtain ⟨f, hf, rfl⟩ := List.mem_map.1 ((mem_postOrder hclosed hlength.le).1 hm)
    rw [getElem?_idxOf_method hfs hf, find?_method hfs hf]
    exact ⟨rfl, f, rfl⟩
  rw [calleeFirst?, horder, hmap]
  show List.mapM (fs[·]?) (List.map _ _).reverse = _
  rw [← List.map_reverse, mapM_eq_filterMap, List.filterMap_map]
  · exact congrArg some (List.filterMap_congr fun m hm => (hfind m hm).1)
  · intro i hi
    obtain ⟨m, hm, rfl⟩ := List.mem_map.1 hi
    obtain ⟨heq, f, hf⟩ := hfind m hm
    exact ⟨f, heq.trans hf⟩

end CalleeFirst

/-! ## Call graphs -/

/-- A call graph in tables. -/
structure CallTables where
  /-- The methods in ascending order; a method's place is its node. -/
  methods : List MethodId
  condensation : CondensationTables

namespace CallTables

/-- The calls of a method, as edges from its place. -/
def callEdges? (methods : List MethodId) (f : MethodFacts) : Option (List (Nat × Nat)) := do
  let source ← placeOf? methods f.method
  return (f.callees.filterMap (placeOf? methods)).map fun target => (source, target)

/-- The call graph of a table of facts. -/
def of? (facts : FactTable) : Option CallTables := do
  let methods := facts.keys
  let edges ← facts.values.mapM (callEdges? methods)
  let condensation ← CondensationTables.of? methods.length edges.flatten
  return ⟨methods, condensation⟩

variable (t : CallTables)

/-- The number of the component of a method; none for a method that is not in the graph. -/
def componentOf? (m : MethodId) : Option (Option Nat) :=
  match placeOf? t.methods m with
  | none => some none
  | some node => (t.condensation.componentOf[node]?).map some

/-- The methods of a component in ascending order. -/
def members? (component : Nat) : Option (List MethodId) := do
  let nodes ← t.condensation.components[component]?
  nodes.mapM (t.methods[·]?)

/-- Whether the methods of a component are recursive. -/
def isCyclic? (component : Nat) : Option Bool := t.condensation.cyclic[component]?

/-- The lines of the label of a component. -/
def label? (name : MethodId → String) (nodes : List Nat) : Option (List String) :=
  nodes.mapM fun node => (t.methods[node]?).map name

/-- The condensed graph as text for drawing; `name` labels the methods. -/
def draw? (name : MethodId → String) : Option String := do
  let labels ← t.condensation.components.toList.mapM (t.label? name)
  let edges := t.condensation.successors.toList.mapIdx fun i targets => targets.map fun j => (i, j)
  return Drawing.render ⟨"Condensation", "Scc_", labels, edges.flatten⟩

/-- `t.Describes g`: the tables say the same as a call graph. -/
structure Describes (t : CallTables) (g : CallGraph) : Prop where
  methods_eq : t.methods = g.methods
  condensation : t.condensation.Describes g.condensation

variable {t} {facts : FactTable} (hk : facts.Keyed)

include hk

/-- No look-up fails when the call graph of a table of facts is built. -/
theorem exists_of? : ∃ t, of? facts = some t ∧ t.Describes (.of facts) := by
  have hedges : facts.values.mapM (callEdges? facts.keys)
      = some (facts.values.map fun f => (f.callees.filter (· ∈ facts.keys)).map fun callee =>
        (facts.keys.idxOf f.method, facts.keys.idxOf callee)) := by
    refine mapM_eq_some fun f hf => ?_
    obtain ⟨m, hm⟩ := SortedMap.mem_values_iff.1 hf
    have hmethod : f.method ∈ facts.keys := by
      rw [hk m f hm]
      exact SortedMap.mem_keys_iff.2 ⟨f, hm⟩
    have hplace : placeOf? facts.keys f.method = some (facts.keys.idxOf f.method) := if_pos hmethod
    rw [callEdges?, hplace, filterMap_placeOf?]
    show some (List.map _ (List.map _ _)) = _
    rw [List.map_map]
    rfl
  obtain ⟨condensation, hof, hdescribes⟩ :=
    CondensationTables.exists_of? (CallGraph.wellFormed_callEdges hk)
  refine ⟨⟨facts.keys, condensation⟩, ?_, rfl, hdescribes⟩
  rw [of?, hedges]
  show (CondensationTables.of? _ (List.map _ _).flatten).bind _ = _
  -- edges are listed method by method, here as a list of lists
  rw [← List.flatMap_def]
  show (CondensationTables.of? facts.keys.length (CallGraph.callEdges facts facts.keys)).bind _ = _
  rw [hof]
  rfl

omit hk in
/-- The component of a method, if it is in the graph. -/
theorem Describes.componentOf? (h : t.Describes (.of facts)) (m : MethodId) :
    t.componentOf? m = some ((CallGraph.of facts).componentOf? m) := by
  rw [CallTables.componentOf?, h.methods_eq, CallGraph.componentOf?, placeOf?]
  by_cases hm : m ∈ (CallGraph.of facts).methods
  · have hcell := h.condensation.componentOf_eq ((CallGraph.of facts).methods.idxOf m)
      (List.idxOf_lt_length_of_mem hm)
    rw [if_pos hm, if_pos hm]
    show Option.map some (t.condensation.componentOf[_]?) = _
    rw [hcell, Option.map_some]
  · rw [if_neg hm, if_neg hm]

omit hk in
theorem Describes.isCyclic? (h : t.Describes (.of facts)) {c : Nat}
    (hc : c < (CallGraph.of facts).size) :
    t.isCyclic? c = some ((CallGraph.of facts).isCyclic c) :=
  h.condensation.cyclic_eq c hc

/-- Every node of a component has a method. -/
theorem Describes.exists_method (h : t.Describes (.of facts)) {nodes : List Nat}
    (hnodes : nodes ∈ (CallGraph.of facts).condensation.components) {v : Nat} (hv : v ∈ nodes) :
    ∃ m, t.methods[v]? = some m := by
  obtain ⟨c, hc⟩ := List.getElem?_of_mem hnodes
  have hmembers : (CallGraph.of facts).condensation.members c = nodes := by
    rw [Condensation.members, hc, Option.getD_some]
  have hlt := CallGraph.lt_length_of_mem_members hk (hmembers ▸ hv)
  rw [h.methods_eq]
  exact ⟨_, List.getElem?_eq_getElem hlt⟩

theorem Describes.members? (h : t.Describes (.of facts)) {c : Nat}
    (hc : c < (CallGraph.of facts).size) :
    t.members? c = some ((CallGraph.of facts).members c) := by
  have hnodes : (CallGraph.of facts).condensation.components[c]?
      = some ((CallGraph.of facts).condensation.members c) := Condensation.members_of_lt hc
  have hcell : t.condensation.components[c]?
      = some ((CallGraph.of facts).condensation.members c) := by
    rw [← Array.getElem?_toList, h.condensation.components_eq, hnodes]
  rw [CallTables.members?, hcell]
  show List.mapM (t.methods[·]?) _ = _
  rw [mapM_eq_filterMap fun v hv => h.exists_method hk (List.mem_of_getElem? hnodes) hv,
    h.methods_eq]
  rfl

/-- **Drawing**: no look-up fails when the call graph is drawn. -/
theorem Describes.draw? (h : t.Describes (.of facts)) (name : MethodId → String) :
    t.draw? name = some ((CallGraph.of facts).draw name) := by
  have hlabels : t.condensation.components.toList.mapM (t.label? name)
      = some ((CallGraph.of facts).condensation.components.map (·.map fun node =>
        (((CallGraph.of facts).methods[node]?).map name).getD "")) := by
    rw [h.condensation.components_eq]
    refine mapM_eq_some fun nodes hnodes => mapM_eq_some fun v hv => ?_
    obtain ⟨m, hm⟩ := h.exists_method hk hnodes hv
    rw [hm, ← h.methods_eq, hm]
    rfl
  have hedges :
      (t.condensation.successors.toList.mapIdx fun i targets => targets.map fun j => (i, j))
      = (List.range (CallGraph.of facts).size).map fun i =>
        ((CallGraph.of facts).condensation.successors i).map fun j => (i, j) := by
    rw [h.condensation.successors_eq]
    refine List.ext_getElem (by simp; rfl) fun i hi hi' => ?_
    simp only [List.getElem_mapIdx, List.getElem_map, List.getElem_range]
  rw [CallTables.draw?, hlabels, hedges]
  rfl

end CallTables

end Interlock
