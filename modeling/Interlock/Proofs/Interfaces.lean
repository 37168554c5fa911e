import Interlock.Proofs.Sorted
import Interlock.Race.Collection

/-!
# What a class hierarchy sees of methods

A class hierarchy looks at the number, the name, the class and some annotations of a
method. Neither its body nor the locks that its annotations name make a difference to
ancestors, visible methods, thread contexts or names.

- `Method.interface`: the method without its body and locks.
- `Hierarchy.SameClasses`: two hierarchies that differ in methods only; they have the same
  ancestors and capabilities.
- `Hierarchy.Alike`: two hierarchies that differ in bodies and locks only.
- `Hierarchy.Alike.visibleMethods`, `Hierarchy.Alike.classify`: they answer alike.
- `Collection.nameOf_of_alike`: methods have the same names.
-/

namespace Interlock

/-- The method as a class hierarchy sees it, without its body and the locks of its annotations. -/
def Method.interface (m : Method) : Method :=
  { m with
    body := {}
    annotations := { m.annotations with guardedBy := none, synchronized := false } }

/-- The class as it is seen if its methods are. -/
def ClassInfo.interface (info : ClassInfo) : ClassInfo :=
  { info with methods := info.methods.map Method.interface }

namespace Hierarchy

/-! ## Classes -/

/-- `h.SameClasses h'`: the same classes are known, with the same superclasses and annotations. -/
structure SameClasses (h h' : Hierarchy) : Prop where
  contains : ∀ name, h.classes.contains name = h'.classes.contains name
  superclasses : ∀ name, (h.info name).superclasses = (h'.info name).superclasses
  annotations : ∀ name, (h.info name).annotations = (h'.info name).annotations

namespace SameClasses

variable {h h' : Hierarchy} (hs : h.SameClasses h')

include hs

/-- The names are listed in ascending order, so it is enough that the same ones are known. -/
theorem classNames : h.classNames = h'.classNames := by
  refine eq_of_increasing_keys id (List.pairwise_map.2 h.classes.increasing)
    (List.pairwise_map.2 h'.classes.increasing) fun name => ?_
  have hsome : (h.classes.get? name).isSome = (h'.classes.get? name).isSome := hs.contains name
  rw [Hierarchy.classNames, Hierarchy.classNames, SortedMap.mem_keys_iff, SortedMap.mem_keys_iff,
    ← Option.isSome_iff_exists, ← Option.isSome_iff_exists, hsome]

theorem size : h.classes.size = h'.classes.size := by
  have hlength := congrArg List.length hs.classNames
  rw [Hierarchy.classNames, Hierarchy.classNames, SortedMap.keys, SortedMap.keys, List.length_map,
    List.length_map] at hlength
  exact hlength

/-- Superclasses that are not known are left out, in both alike. -/
theorem parents (name : String) : h.parents name = h'.parents name := by
  rw [Hierarchy.parents, Hierarchy.parents, hs.superclasses]
  exact List.filter_congr fun super _ => hs.contains super

/-- So every layer of ancestors is the same. -/
theorem ancestors (name : String) : h.ancestors name = h'.ancestors name := by
  have hlayers : ∀ fuel seen layer,
      h.ancestorLayers fuel seen layer = h'.ancestorLayers fuel seen layer := by
    intro fuel
    induction fuel with
    | zero => exact fun _ _ => rfl
    | succ fuel ih =>
      intro seen layer
      rw [ancestorLayers, ancestorLayers, funext hs.parents]
      split
      · rfl
      · rw [ih]
  rw [Hierarchy.ancestors, Hierarchy.ancestors, hs.size, hlayers]

theorem capabilities (name : String) : h.capabilities name = h'.capabilities name := by
  simp only [Hierarchy.capabilities, hs.ancestors, hs.annotations]

end SameClasses

/-! ## Methods up to bodies and locks -/

/-- `h.Alike h'`: the classes are the same, up to bodies and locks of their methods. -/
def Alike (h h' : Hierarchy) : Prop :=
  ∀ name, (h.classes.get? name).map ClassInfo.interface
    = (h'.classes.get? name).map ClassInfo.interface

/-- One more method changes two hierarchies alike if only its interface is the same. -/
theorem alike_add {h h' : Hierarchy} (hs : h.Alike h') {m m' : Method}
    (hm : m.interface = m'.interface) :
    Alike ⟨h.classes.alter m.declaringClass fun info =>
        { info.getD {} with methods := (info.getD {}).methods ++ [m] }⟩
      ⟨h'.classes.alter m'.declaringClass fun info =>
        { info.getD {} with methods := (info.getD {}).methods ++ [m'] }⟩ := by
  intro name
  have hclass : m.declaringClass = m'.declaringClass := (congrArg Method.declaringClass hm :)
  have hinfo := hs m'.declaringClass
  show (SortedMap.get? (SortedMap.alter _ _ _) name).map _
    = (SortedMap.get? (SortedMap.alter _ _ _) name).map _
  rw [SortedMap.get?_alter, SortedMap.get?_alter, hclass]
  by_cases hname : name = m'.declaringClass
  · rw [if_pos hname, if_pos hname]
    generalize h.classes.get? m'.declaringClass = old at hinfo ⊢
    generalize h'.classes.get? m'.declaringClass = old' at hinfo ⊢
    cases old <;> cases old' <;> simp_all [ClassInfo.interface]
  · rw [if_neg hname, if_neg hname]
    exact hs name

/-- The same classes and methods with the same interfaces give hierarchies that are alike. -/
theorem alike_of (decls : List ClassDecl) {methods methods' : List Method}
    (h : methods.map Method.interface = methods'.map Method.interface) :
    (Hierarchy.of decls methods).Alike (Hierarchy.of decls methods') := by
  -- methods are added in pairs, to hierarchies that are alike already
  suffices hfold : ∀ (methods methods' : List Method) (start start' : Hierarchy),
      methods.map Method.interface = methods'.map Method.interface → start.Alike start' →
      Alike ⟨methods.foldl (fun classes m => classes.alter m.declaringClass fun info =>
          { info.getD {} with methods := (info.getD {}).methods ++ [m] }) start.classes⟩
        ⟨methods'.foldl (fun classes m => classes.alter m.declaringClass fun info =>
          { info.getD {} with methods := (info.getD {}).methods ++ [m] }) start'.classes⟩ by
    exact hfold methods methods' ⟨_⟩ ⟨_⟩ h fun _ => rfl
  intro methods
  induction methods with
  | nil =>
    intro methods' start start' hmethods hstart
    obtain rfl := List.map_eq_nil_iff.1 hmethods.symm
    exact hstart
  | cons m methods ih =>
    intro methods' start start' hmethods hstart
    cases methods' with
    | nil => cases hmethods
    | cons m' methods' =>
      obtain ⟨hm, hrest⟩ := List.cons.inj hmethods
      exact ih methods' ⟨_⟩ ⟨_⟩ hrest (alike_add hstart hm)

namespace Alike

variable {h h' : Hierarchy}

theorem symm (hs : h.Alike h') : h'.Alike h := fun name => (hs name).symm

variable (hs : h.Alike h')

include hs

theorem info (name : String) : (h.info name).interface = (h'.info name).interface := by
  have hinfo := hs name
  unfold Hierarchy.info
  generalize h.classes.get? name = known at hinfo ⊢
  generalize h'.classes.get? name = known' at hinfo ⊢
  cases known <;> cases known' <;> simp_all

/-- Superclasses and annotations of classes are part of the interface. -/
theorem sameClasses : h.SameClasses h' where
  contains name := by
    have hsome := congrArg Option.isSome (hs name)
    rw [Option.isSome_map, Option.isSome_map] at hsome
    exact hsome
  superclasses name := (congrArg ClassInfo.superclasses (hs.info name) :)
  annotations name := (congrArg ClassInfo.annotations (hs.info name) :)

theorem declaredMethods (name : String) :
    (h.declaredMethods name).map Method.interface
      = (h'.declaredMethods name).map Method.interface :=
  (congrArg ClassInfo.methods (hs.info name) :)

/-- The interfaces of visible methods are the same, in the same order. -/
theorem visibleMethods (name : String) :
    (h.visibleMethods name).map Method.interface
      = (h'.visibleMethods name).map Method.interface := by
  have hunhidden : ∀ owners seen, (h.unhidden seen owners).map Method.interface
      = (h'.unhidden seen owners).map Method.interface := by
    intro owners
    induction owners with
    | nil => exact fun _ => rfl
    | cons owner owners ih =>
      intro seen
      -- which methods are hidden is a matter of names
      have hnames : (h.declaredMethods owner).map (·.name)
          = (h'.declaredMethods owner).map (·.name) := by
        have hmap := congrArg (List.map (·.name)) (hs.declaredMethods owner)
        rw [List.map_map, List.map_map] at hmap
        exact hmap
      have hfilter : ∀ l : List Method, (l.filter (·.name ∉ seen)).map Method.interface
          = (l.map Method.interface).filter (·.name ∉ seen) := by
        intro l
        rw [List.filter_map]
        rfl
      rw [unhidden, unhidden, List.map_append, List.map_append, hfilter, hfilter,
        hs.declaredMethods, hnames, ih]
  rw [Hierarchy.visibleMethods, Hierarchy.visibleMethods, hs.sameClasses.ancestors, hunhidden]

/-- A method that is visible in one hierarchy has a counterpart in the other. -/
theorem exists_visible {name : String} {m : Method} (hm : m ∈ h.visibleMethods name) :
    ∃ m' ∈ h'.visibleMethods name, m'.interface = m.interface := by
  have hmem : m.interface ∈ (h.visibleMethods name).map Method.interface :=
    List.mem_map.2 ⟨m, hm, rfl⟩
  rw [hs.visibleMethods] at hmem
  exact List.mem_map.1 hmem

/-- Whether a method overrides a shared one is seen from names and annotations. -/
theorem overridesShared {m m' : Method} (hm : m.interface = m'.interface) :
    h.overridesShared m = h'.overridesShared m' := by
  have hclass : m.declaringClass = m'.declaringClass := (congrArg Method.declaringClass hm :)
  have hname : m.name = m'.name := (congrArg Method.name hm :)
  have hdeclares : ∀ a, (h.declaredMethods a).any (·.name = m'.name)
      = (h'.declaredMethods a).any (·.name = m'.name) := by
    intro a
    have hany := congrArg (List.any · (·.name = m'.name)) (hs.declaredMethods a)
    simp only [List.any_map] at hany
    exact hany
  simp only [Hierarchy.overridesShared, hclass, hname, hs.sameClasses.ancestors,
    hs.sameClasses.capabilities, hdeclares]

/-- **Thread contexts**: the context of a method is a matter of its interface. -/
theorem classify {m m' : Method} (hm : m.interface = m'.interface) :
    h.classify m = h'.classify m' := by
  have hclass : m.declaringClass = m'.declaringClass := (congrArg Method.declaringClass hm :)
  have hsafe : m.annotations.threadSafe = m'.annotations.threadSafe :=
    (congrArg (·.annotations.threadSafe) hm :)
  have hconfined : m.annotations.threadConfined = m'.annotations.threadConfined :=
    (congrArg (·.annotations.threadConfined) hm :)
  simp only [Hierarchy.classify, hclass, hsafe, hconfined, hs.overridesShared hm,
    hs.sameClasses.capabilities]

end Alike

end Hierarchy

/-- Hierarchies that are alike name methods alike. -/
theorem Collection.nameOf_of_alike {c c' : Collection} (hs : c.hierarchy.Alike c'.hierarchy)
    (m : MethodId) : c.nameOf m = c'.nameOf m := by
  have hdeclared : (c.hierarchy.classNames.flatMap c.hierarchy.declaredMethods).map Method.interface
      = (c'.hierarchy.classNames.flatMap c'.hierarchy.declaredMethods).map Method.interface := by
    rw [List.map_flatMap, List.map_flatMap, hs.sameClasses.classNames, funext hs.declaredMethods]
  have hlast : ∀ l : List Method, ((l.filter (·.id = m)).getLast?).map Method.interface
      = ((l.map Method.interface).filter (·.id = m)).getLast? := by
    intro l
    rw [← List.getLast?_map, List.filter_map]
    rfl
  -- the last method of this number gives the name, and its interface is enough for that
  have hmethod : (((c.hierarchy.classNames.flatMap c.hierarchy.declaredMethods).filter
        (·.id = m)).getLast?).map Method.interface
      = (((c'.hierarchy.classNames.flatMap c'.hierarchy.declaredMethods).filter
        (·.id = m)).getLast?).map Method.interface := by
    rw [hlast, hlast, hdeclared]
  simp only [nameOf]
  generalize List.getLast? _ = last at hmethod ⊢
  generalize List.getLast? _ = last' at hmethod ⊢
  cases last with
  | none => cases last' with
    | none => rfl
    | some method' => cases hmethod
  | some method => cases last' with
    | none => cases hmethod
    | some method' => exact (congrArg Method.qualifiedName (Option.some_inj.1 hmethod) :)

end Interlock
