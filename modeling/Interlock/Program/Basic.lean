import Interlock.Flow.Graph
import Interlock.Program.Expr

/-!
# Programs

What a front-end hands over for one analysis: classes, and methods with their
control-flow graphs.

- `MethodId`: the number of a method.
- `Operation`: one operation of a block.
- `Method`, `ClassDecl`, `Program`: the records.
-/

namespace Interlock

/-- The number of a method, assigned by the front-end. -/
structure MethodId where
  val : UInt32
  deriving DecidableEq, Repr

namespace MethodId

instance : Ord MethodId := ⟨compareOn val⟩

instance : Std.TransOrd MethodId := inferInstanceAs (Std.TransCmp (compareOn val))

instance : Std.LawfulEqOrd MethodId where
  eq_of_compare {a b} h := by
    have h : compare a.val b.val = .eq := h
    cases a; cases b
    simpa using h

/-- The number as `#7`. -/
def render (m : MethodId) : String := "#" ++ m.val.toNat.repr

end MethodId

/-- What an operation does. -/
inductive Action where
  | read (target : AccessExpr)
  | write (target : AccessExpr)
  | acquire (lock : LockExpr)
  | release (lock : LockExpr)
  /-- A call, with the locks that the front-end knows to be held throughout. -/
  | call (callee : MethodId) (locksHeld : List LockExpr)
  | nop
  deriving DecidableEq, Repr

/-- One operation of a block. -/
structure Operation where
  /-- The source line, for reports only. -/
  line : UInt32
  action : Action
  deriving DecidableEq, Repr

/-- The operation as text. -/
def Operation.render (op : Operation) : String :=
  match op.action with
  | .read target => "read " ++ target.render ++ ";"
  | .write target => "write " ++ target.render ++ ";"
  | .acquire lock => "acquire " ++ lock.render ++ ";"
  | .release lock => "release " ++ lock.render ++ ";"
  | .call callee [] => "call " ++ callee.render ++ ";"
  | .call callee locks =>
    "call " ++ callee.render ++ " holding " ++ ", ".intercalate (locks.map LockExpr.render) ++ ";"
  | .nop => "nop;"

/-- What is declared about a method. -/
structure MethodAnnotations where
  threadSafe : Bool := false
  threadConfined : Bool := false
  /-- A lock that every caller holds. -/
  guardedBy : Option LockExpr := none
  /-- The whole body runs holding the lock of the receiver. -/
  synchronized : Bool := false
  isPrivate : Bool := false
  isConstructor : Bool := false
  deriving DecidableEq, Repr

/-- A method with its body. -/
structure Method where
  id : MethodId
  name : String
  declaringClass : String
  body : FlowGraph Operation
  annotations : MethodAnnotations := {}
  deriving DecidableEq, Repr

namespace Method

/-- The name with the declaring class in front. -/
def qualifiedName (m : Method) : String := m.declaringClass ++ "." ++ m.name

/-- Whether the accesses of the method are reported under its own name. Those of private methods
and constructors show up only through their callers. -/
def isReportingRoot (m : Method) : Bool := !m.annotations.isPrivate && !m.annotations.isConstructor

/-- The control-flow graph as text for drawing. -/
def drawBody (m : Method) : String :=
  (m.body.drawing ("\"" ++ m.qualifiedName ++ "\"") Operation.render).render

end Method

/-- What is declared about a class. -/
structure ClassAnnotations where
  threadSafe : Bool := false
  threadConfined : Bool := false
  deriving DecidableEq, Repr

/-- A class with the names of the classes that it extends. -/
structure ClassDecl where
  name : String
  superclasses : List String := []
  annotations : ClassAnnotations := {}
  deriving DecidableEq, Repr

/-- Everything that a front-end hands over for one analysis. -/
structure Program where
  classes : List ClassDecl := []
  methods : List Method := []
  deriving DecidableEq, Repr

end Interlock
