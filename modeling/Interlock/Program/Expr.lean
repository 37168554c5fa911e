/-!
# Access and lock expressions

What the operations of a program read, write and lock, as the front-end writes it
down: an object to start from, and a chain of fields and elements to follow.
-/

namespace Interlock

/-- The object that an access starts from. -/
inductive Base where
  /-- The object that the method runs on. -/
  | receiver
  | localVar (name : String)
  | static (className : String)
  /-- An expression that the front-end could not resolve. -/
  | unresolved
  deriving DecidableEq, Repr

/-- One step of an access. -/
inductive Selector where
  /-- A field together with the class that declares it. -/
  | field (className name : String)
  /-- An element of an array or of a keyed collection. -/
  | element
  deriving DecidableEq, Repr

/-- An expression that names a place in memory. -/
structure AccessExpr where
  base : Base
  selectors : List Selector := []
  deriving DecidableEq, Repr

/-- The object that guards a critical section. -/
inductive LockExpr where
  | receiver
  /-- A lock object stored in a field. -/
  | field (target : AccessExpr)
  /-- The lock that all instances of a class share. -/
  | ofClass (name : String)
  deriving DecidableEq, Repr

/-- The base as text. -/
def Base.render : Base → String
  | receiver => "this"
  | localVar name => name
  | static className => className
  | unresolved => "<unresolved>"

/-- The step as text; the class that declares a field is not shown. -/
def Selector.render : Selector → String
  | field _ name => "." ++ name
  | element => "[*]"

namespace AccessExpr

/-- A field of the receiver. -/
def thisField (className name : String) : AccessExpr := ⟨.receiver, [.field className name]⟩

/-- A field of the object in a local variable. -/
def localField (name className field : String) : AccessExpr :=
  ⟨.localVar name, [.field className field]⟩

/-- One step further. -/
def select (e : AccessExpr) (s : Selector) : AccessExpr := { e with selectors := e.selectors ++ [s] }

/-- The expression as text. -/
def render (e : AccessExpr) : String := e.base.render ++ String.join (e.selectors.map Selector.render)

end AccessExpr

/-- The expression as text. -/
def LockExpr.render : LockExpr → String
  | receiver => "this"
  | field target => target.render
  | ofClass name => name ++ ".class"

end Interlock
