import Interlock.Program.Basic
import Interlock.Sorted.Map
import Interlock.ThreadContext

/-!
# Class hierarchies

The classes of a program with their ancestors and methods. A class is known if it is
declared or if a method is declared in it; superclass names that are not known are
passed over.

- `Hierarchy.of`: the hierarchy of a program.
- `Hierarchy.ancestors`: the ancestors of a class, the nearest first.
- `Hierarchy.visibleMethods`: the methods that can be called on an instance.
- `Hierarchy.classify`: the thread context of a method as far as annotations tell.
-/

namespace Interlock

/-- What is known about a class. -/
structure ClassInfo where
  superclasses : List String := []
  annotations : ClassAnnotations := {}
  /-- The methods declared in the class, in order. -/
  methods : List Method := []

/-- Whether a class or one of its ancestors is shared between threads or confined to one. -/
structure Capabilities where
  threadShared : Bool := false
  threadConfined : Bool := false
  deriving DecidableEq, Repr

/-- The classes of a program. -/
structure Hierarchy where
  classes : SortedMap String ClassInfo

namespace Hierarchy

/-- The hierarchy of the given records. The first record of a class counts; a class that is only
named as the declaring class of a method has no superclasses and no annotations. -/
def of (decls : List ClassDecl) (methods : List Method) : Hierarchy :=
  let declared := decls.foldl
    (fun classes d => classes.insertIfNew d.name ⟨d.superclasses, d.annotations, []⟩) ∅
  let complete := methods.foldl
    (fun classes m => classes.alter m.declaringClass fun info =>
      let info := info.getD {}
      { info with methods := info.methods ++ [m] }) declared
  ⟨complete⟩

variable (h : Hierarchy)

/-- The names of the classes in order. -/
def classNames : List String := h.classes.keys

/-- What is known about a class; of a class that is not known, nothing. -/
def info (name : String) : ClassInfo := (h.classes.get? name).getD {}

/-- The known superclasses of a class, in order. -/
def parents (name : String) : List String := (h.info name).superclasses.filter h.classes.contains

/-- The names of a list that are new, each once, in order. -/
def fresh (seen : List String) : List String → List String
  | [] => []
  | name :: rest => if name ∈ seen then fresh seen rest else name :: fresh (name :: seen) rest

/-- Ancestors layer by layer: the new parents of a layer form the next one. The first argument
bounds the number of layers; the number of classes is enough. -/
def ancestorLayers : Nat → List String → List String → List String
  | 0, _, _ => []
  | fuel + 1, seen, layer =>
    match fresh seen (layer.flatMap h.parents) with
    | [] => []
    | next => next ++ ancestorLayers fuel (next ++ seen) next

/-- The ancestors of a class, each once, the nearest first; a class is not its own ancestor. -/
def ancestors (name : String) : List String := h.ancestorLayers h.classes.size [name] [name]

/-- The capabilities of a class: its own and those of its ancestors. -/
def capabilities (name : String) : Capabilities :=
  let annotations := (name :: h.ancestors name).map fun c => (h.info c).annotations
  ⟨annotations.any (·.threadSafe), annotations.any (·.threadConfined)⟩

/-- The methods declared in a class, in order. -/
def declaredMethods (name : String) : List Method := (h.info name).methods

/-- The methods of the owners whose names are not among `seen` nor declared by an owner before. -/
def unhidden (seen : List String) : List String → List Method
  | [] => []
  | owner :: rest =>
    let declared := h.declaredMethods owner
    declared.filter (·.name ∉ seen) ++ unhidden (seen ++ declared.map (·.name)) rest

/-- The methods that can be called on an instance of a class: its own, and those it inherits and
does not override by name. -/
def visibleMethods (name : String) : List Method := h.unhidden [] (name :: h.ancestors name)

/-- Whether an ancestor that is shared between threads declares a method of the same name. -/
def overridesShared (m : Method) : Bool :=
  (h.ancestors m.declaringClass).any fun a =>
    (h.capabilities a).threadShared && (h.declaredMethods a).any (·.name = m.name)

/-- The thread context of a method before anything is learned from calls. -/
def classify (m : Method) : ThreadContext :=
  let owner := h.capabilities m.declaringClass
  if m.annotations.threadSafe then .background
  else if m.annotations.threadConfined then .main
  else if h.overridesShared m then .background
  else if owner.threadConfined then .main
  else if owner.threadShared then .background
  else .unknown

end Hierarchy

end Interlock
