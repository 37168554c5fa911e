import Interlock.Program.Expr

/-!
# Access paths

The canonical name of a place in memory: the class that declares the first field of
an access, then the fields followed, by name. Accesses through the receiver and
through any other reference to the same declared field have the same path. An
element step stands for every element of a collection and ends the path.

- `AccessPath`, `Segment`: paths and their order.
- `AccessExpr.resolve`: the path of an expression, or why there is none.
-/

namespace Interlock

/-- One step of a path. -/
inductive Segment where
  | field (name : String)
  /-- Every element of the collection that the field before holds. -/
  | element
  deriving DecidableEq, Repr

namespace Segment

/-- Whether the step goes to the elements. -/
def isElement : Segment → Bool
  | field _ => false
  | element => true

/-- The name of the field; the element step has none. -/
def name : Segment → String
  | field name => name
  | element => ""

/-- Fields are ordered by name, and the element step comes after all of them. -/
def order : Segment → Segment → Ordering := compareLex (compareOn isElement) (compareOn name)

instance : Ord Segment := ⟨order⟩

instance : Std.TransOrd Segment := inferInstanceAs (Std.TransCmp (compareLex _ _))

instance : Std.LawfulEqOrd Segment where
  eq_of_compare {a b} h := by
    obtain ⟨h₁, h₂⟩ := compareLex_eq_eq.1 h
    have h₁ : compare a.isElement b.isElement = .eq := h₁
    have h₂ : compare a.name b.name = .eq := h₂
    cases a <;> cases b <;> simp_all [isElement, name]

/-- The step as text. -/
def render : Segment → String
  | field name => "." ++ name
  | element => "[*]"

end Segment

/-- The canonical name of a place in memory. -/
structure AccessPath where
  /-- The class that declares the first field. -/
  root : String
  segments : List Segment
  deriving DecidableEq, Repr

namespace AccessPath

/-- Paths are ordered by class, then step by step. -/
def order : AccessPath → AccessPath → Ordering := compareLex (compareOn root) (compareOn segments)

instance : Ord AccessPath := ⟨order⟩

instance : Std.TransOrd AccessPath := inferInstanceAs (Std.TransCmp (compareLex _ _))

instance : Std.LawfulEqOrd AccessPath where
  eq_of_compare {a b} h := by
    obtain ⟨h₁, h₂⟩ := compareLex_eq_eq.1 h
    have h₁ : compare a.root b.root = .eq := h₁
    have h₂ : compare a.segments b.segments = .eq := h₂
    cases a; cases b
    simp_all

/-- A declared field. -/
def field (className name : String) : AccessPath := ⟨className, [.field name]⟩

/-- One step further. -/
def push (p : AccessPath) (s : Segment) : AccessPath := { p with segments := p.segments ++ [s] }

/-- The path as text. -/
def render (p : AccessPath) : String := p.root ++ String.join (p.segments.map Segment.render)

end AccessPath

/-- Why an expression has no path. -/
inductive Unnamable where
  /-- The access starts from an unknown object. -/
  | unknownReceiver
  /-- The access takes an element of something that is not a declared field. -/
  | unknownContainer
  deriving DecidableEq, Repr

/-- The reason as text. -/
def Unnamable.message : Unnamable → String
  | unknownReceiver => "receiver is not statically known"
  | unknownContainer => "container is not held in a declared field"

/-- What an expression stands for. -/
inductive Resolution where
  | path (path : AccessPath)
  /-- A local variable or a bare object: not a place that threads share. -/
  | notHeap
  | unresolved (reason : Unnamable)
  deriving DecidableEq, Repr

/-- The steps up to and including the first element step. -/
def Segment.ofSelectors : List Selector → List Segment
  | [] => []
  | .field _ name :: rest => .field name :: ofSelectors rest
  | .element :: _ => [.element]

/-- What an expression stands for. -/
def AccessExpr.resolve (e : AccessExpr) : Resolution :=
  match e.base, e.selectors with
  | .unresolved, _ => .unresolved .unknownReceiver
  | _, [] => .notHeap
  | _, .element :: _ => .unresolved .unknownContainer
  | _, .field className name :: rest => .path ⟨className, .field name :: Segment.ofSelectors rest⟩

end Interlock
