import Interlock.Access.Location
import Interlock.Access.Path

/-!
# Accesses and calls of a method

The operations of a method that matter to other methods: its accesses to named
places and its calls, in block order, dead blocks included. Accesses to places that
cannot be named are skipped and listed apart.

- `Method.itemAt?`, `Method.skippedAt?`: what one operation amounts to.
- `Method.extract`: the same for the whole body.
-/

namespace Interlock

/-- An access to a named place. -/
structure Access where
  path : AccessPath
  kind : AccessKind
  location : Location
  deriving DecidableEq, Repr

/-- A call. -/
structure CallSite where
  callee : MethodId
  location : Location
  deriving DecidableEq, Repr

/-- An access or a call. -/
inductive Item where
  | access (access : Access)
  | call (call : CallSite)
  deriving DecidableEq, Repr

/-- An access to a place that cannot be named. -/
structure SkippedAccess where
  location : Location
  /-- The expression as text. -/
  expr : String
  reason : String
  deriving DecidableEq, Repr

/-- The accesses and calls of a method in block order. -/
structure Extraction where
  items : List Item
  skipped : List SkippedAccess
  deriving DecidableEq, Repr

/-- The place that an action reads or writes. -/
def Action.target? : Action → Option (AccessExpr × AccessKind)
  | read target => some (target, .read)
  | write target => some (target, .write)
  | _ => none

namespace Method

/-- Where an operation of the method stands. -/
def locationOf (m : Method) (pos : OpPos) (op : Operation) : Location :=
  ⟨m.id, op.line, pos.block, pos.op⟩

/-- The access or call that an operation performs. -/
def itemAt? (m : Method) (pos : OpPos) (op : Operation) : Option Item :=
  match op.action with
  | .call callee _ => some (.call ⟨callee, m.locationOf pos op⟩)
  | action =>
    match action.target? with
    | some (target, kind) =>
      match target.resolve with
      | .path path => some (.access ⟨path, kind, m.locationOf pos op⟩)
      | _ => none
    | none => none

/-- The access that is skipped at an operation. -/
def skippedAt? (m : Method) (pos : OpPos) (op : Operation) : Option SkippedAccess :=
  match op.action.target? with
  | some (target, _) =>
    match target.resolve with
    | .unresolved reason => some ⟨m.locationOf pos op, target.render, reason.message⟩
    | _ => none
  | none => none

/-- The accesses and calls of the method. -/
def extract (m : Method) : Extraction where
  items := m.body.positions.filterMap fun (pos, op) => m.itemAt? pos op
  skipped := m.body.positions.filterMap fun (pos, op) => m.skippedAt? pos op

end Method

end Interlock
