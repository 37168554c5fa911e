import Interlock.Json.Decoder
import Interlock.Json.Text
import Interlock.Program.Basic

/-!
# Programs as text

The JSON form of programs. Each record is written with all of its fields in order;
the reader also takes the shorter and looser forms that `Decoder` allows.

- `Program.parse?`: the program of a text.
- `Program.render`: the text of a program.
-/

namespace Interlock

/-- A tag with further members. -/
def Json.tagged (key tag : String) (members : List (String × Json)) : Json :=
  .ofMembers ((key, .ofString tag) :: members)

/-- A list of values. -/
def Json.ofList {α : Type} (item : α → Json) (items : List α) : Json := .arr (items.map item)

/-! ## Expressions -/

namespace Base

/-- The JSON form. -/
def toJson : Base → Json
  | receiver => .tagged "kind" "this" []
  | localVar name => .tagged "kind" "local" [("name", .ofString name)]
  | static className => .tagged "kind" "static" [("class", .ofString className)]
  | unresolved => .tagged "kind" "unresolved" []

/-- The reader of the JSON form. -/
def decoder : Decoder Base := .union "kind" [
  ⟨"this", [], fun _ _ => some .receiver⟩,
  ⟨"local", ["name"], fun p fields =>
    match fields with
    | [name] => do return .localVar (← Decoder.required .string p name)
    | _ => none⟩,
  ⟨"static", ["class"], fun p fields =>
    match fields with
    | [className] => do return .static (← Decoder.required .string p className)
    | _ => none⟩,
  ⟨"unresolved", [], fun _ _ => some .unresolved⟩]

end Base

namespace Selector

/-- The JSON form. -/
def toJson : Selector → Json
  | field className name =>
    .tagged "kind" "field" [("class", .ofString className), ("name", .ofString name)]
  | element => .tagged "kind" "element" []

/-- The reader of the JSON form. -/
def decoder : Decoder Selector := .union "kind" [
  ⟨"field", ["class", "name"], fun p fields =>
    match fields with
    | [className, name] => do
      return .field (← Decoder.required .string p className) (← Decoder.required .string p name)
    | _ => none⟩,
  ⟨"element", [], fun _ _ => some .element⟩]

end Selector

namespace AccessExpr

/-- The JSON form. -/
def toJson (e : AccessExpr) : Json :=
  .ofMembers [("base", e.base.toJson), ("selectors", .ofList Selector.toJson e.selectors)]

/-- The reader of the JSON form. -/
def decoder : Decoder AccessExpr := .record ["base", "selectors"] fun p fields =>
  match fields with
  | [base, selectors] => do
    return {
      base := ← Decoder.required Base.decoder p base
      selectors := ← Decoder.withDefault (.list Selector.decoder) [] p selectors }
  | _ => none

end AccessExpr

namespace LockExpr

/-- The JSON form. -/
def toJson : LockExpr → Json
  | receiver => .tagged "kind" "this" []
  | field target => .tagged "kind" "field" [("target", target.toJson)]
  | ofClass name => .tagged "kind" "class" [("name", .ofString name)]

/-- The reader of the JSON form. -/
def decoder : Decoder LockExpr := .union "kind" [
  ⟨"this", [], fun _ _ => some .receiver⟩,
  ⟨"field", ["target"], fun p fields =>
    match fields with
    | [target] => do return .field (← Decoder.required AccessExpr.decoder p target)
    | _ => none⟩,
  ⟨"class", ["name"], fun p fields =>
    match fields with
    | [name] => do return .ofClass (← Decoder.required .string p name)
    | _ => none⟩]

end LockExpr

/-! ## Operations and control-flow graphs -/

namespace MethodId

/-- The JSON form. -/
def toJson (m : MethodId) : Json := .ofNat m.val.toNat

/-- The reader of the JSON form. -/
def decoder : Decoder MethodId := fun p v => (Decoder.uint32 p v).map MethodId.mk

end MethodId

namespace Action

/-- The tag and the members of the JSON form. -/
def members : Action → List (String × Json)
  | read target => [("op", .ofString "read"), ("target", target.toJson)]
  | write target => [("op", .ofString "write"), ("target", target.toJson)]
  | acquire lock => [("op", .ofString "acquire"), ("lock", lock.toJson)]
  | release lock => [("op", .ofString "release"), ("lock", lock.toJson)]
  | call callee locksHeld =>
    [("op", .ofString "call"), ("callee", callee.toJson),
      ("locksHeld", .ofList LockExpr.toJson locksHeld)]
  | nop => [("op", .ofString "nop")]

/-- The case of the union with a single field. -/
def caseOf {α : Type} (tag name : String) (value : Decoder α) (build : α → Action) :
    Decoder.Case Action :=
  ⟨tag, [name], fun p fields =>
    match fields with
    | [field] => (Decoder.required value p field).map build
    | _ => none⟩

/-- The reader of the JSON form. -/
def decoder : Decoder Action := .union "op" [
  caseOf "read" "target" AccessExpr.decoder .read,
  caseOf "write" "target" AccessExpr.decoder .write,
  caseOf "acquire" "lock" LockExpr.decoder .acquire,
  caseOf "release" "lock" LockExpr.decoder .release,
  ⟨"call", ["callee", "locksHeld"], fun p fields =>
    match fields with
    | [callee, locksHeld] => do
      return .call (← Decoder.required MethodId.decoder p callee)
        (← Decoder.withDefault (.list LockExpr.decoder) [] p locksHeld)
    | _ => none⟩,
  ⟨"nop", [], fun _ _ => some .nop⟩]

end Action

namespace Operation

/-- The JSON form: the line and the members of the action in one object. -/
def toJson (op : Operation) : Json :=
  .ofMembers (("line", .ofNat op.line.toNat) :: op.action.members)

/-- The reader of the JSON form. An operation is always an object; its line is read at once, all
other members are kept until the action is known. -/
def decoder : Decoder Operation
  | p, .obj members => do
    let q ← p.enter?
    guard (Decoder.keysAreText members)
    let line ← Decoder.withDefault .uint32 0 q (← Decoder.single? members "line")
    let rest := Decoder.others members "line"
    guard (rest.all fun m => q.canKeep m.2)
    return { line, action := ← Action.decoder p.keep (.obj rest) }
  | _, _ => none

end Operation

namespace Block

/-- The JSON form; predecessors are not written. -/
def toJson (b : Block Operation) : Json :=
  .ofMembers [
    ("operations", .ofList Operation.toJson b.operations),
    ("successors", .ofList Json.ofNat b.successors)]

/-- The reader of the JSON form: operations and successors. -/
def decoder : Decoder (List Operation × List Nat) :=
  .record ["operations", "successors"] fun p fields =>
    match fields with
    | [operations, successors] => do
      let operations ← Decoder.withDefault (.list Operation.decoder) [] p operations
      let successors ← Decoder.withDefault (.list .uint64) [] p successors
      return (operations, successors.map UInt64.toNat)
    | _ => none

end Block

namespace FlowGraph

/-- The JSON form. -/
def toJson (g : FlowGraph Operation) : Json :=
  .ofMembers [("blocks", .ofList Block.toJson g.blocks.toList)]

/-- The reader of the JSON form. -/
def decoder : Decoder (FlowGraph Operation) := .record ["blocks"] fun p fields =>
  match fields with
  | [blocks] => (Decoder.required (.list Block.decoder) p blocks).map FlowGraph.ofBlocks
  | _ => none

end FlowGraph

/-! ## Methods, classes, programs -/

namespace MethodAnnotations

/-- The JSON form. -/
def toJson (a : MethodAnnotations) : Json :=
  .ofMembers [
    ("threadSafe", .bool a.threadSafe),
    ("threadConfined", .bool a.threadConfined),
    ("guardedBy", (a.guardedBy.map LockExpr.toJson).getD .null),
    ("synchronized", .bool a.synchronized),
    ("private", .bool a.isPrivate),
    ("constructor", .bool a.isConstructor)]

/-- The reader of the JSON form. -/
def decoder : Decoder MethodAnnotations :=
  .record ["threadSafe", "threadConfined", "guardedBy", "synchronized", "private", "constructor"]
    fun p fields =>
      match fields with
      | [safe, confined, guard, sync, priv, cons] => do
        return {
          threadSafe := ← Decoder.withDefault .bool false p safe
          threadConfined := ← Decoder.withDefault .bool false p confined
          guardedBy := ← Decoder.withDefault (.optional LockExpr.decoder) none p guard
          synchronized := ← Decoder.withDefault .bool false p sync
          isPrivate := ← Decoder.withDefault .bool false p priv
          isConstructor := ← Decoder.withDefault .bool false p cons }
      | _ => none

end MethodAnnotations

namespace Method

/-- The JSON form. -/
def toJson (m : Method) : Json :=
  .ofMembers [
    ("id", m.id.toJson),
    ("name", .ofString m.name),
    ("declaringClass", .ofString m.declaringClass),
    ("cfg", m.body.toJson),
    ("annotations", m.annotations.toJson)]

/-- The reader of the JSON form. -/
def decoder : Decoder Method :=
  .record ["id", "name", "declaringClass", "cfg", "annotations"] fun p fields =>
    match fields with
    | [id, name, declaringClass, body, annotations] => do
      return {
        id := ← Decoder.required MethodId.decoder p id
        name := ← Decoder.required .string p name
        declaringClass := ← Decoder.required .string p declaringClass
        body := ← Decoder.required FlowGraph.decoder p body
        annotations := ← Decoder.withDefault MethodAnnotations.decoder {} p annotations }
    | _ => none

end Method

namespace ClassAnnotations

/-- The JSON form. -/
def toJson (a : ClassAnnotations) : Json :=
  .ofMembers [("threadSafe", .bool a.threadSafe), ("threadConfined", .bool a.threadConfined)]

/-- The reader of the JSON form. -/
def decoder : Decoder ClassAnnotations :=
  .record ["threadSafe", "threadConfined"] fun p fields =>
    match fields with
    | [safe, confined] => do
      return {
        threadSafe := ← Decoder.withDefault .bool false p safe
        threadConfined := ← Decoder.withDefault .bool false p confined }
    | _ => none

end ClassAnnotations

namespace ClassDecl

/-- The JSON form. -/
def toJson (c : ClassDecl) : Json :=
  .ofMembers [
    ("name", .ofString c.name),
    ("superclasses", .ofList Json.ofString c.superclasses),
    ("annotations", c.annotations.toJson)]

/-- The reader of the JSON form. -/
def decoder : Decoder ClassDecl :=
  .record ["name", "superclasses", "annotations"] fun p fields =>
    match fields with
    | [name, superclasses, annotations] => do
      return {
        name := ← Decoder.required .string p name
        superclasses := ← Decoder.withDefault (.list .string) [] p superclasses
        annotations := ← Decoder.withDefault ClassAnnotations.decoder {} p annotations }
    | _ => none

end ClassDecl

namespace Program

/-- The JSON form. -/
def toJson (p : Program) : Json :=
  .ofMembers [
    ("classes", .ofList ClassDecl.toJson p.classes),
    ("methods", .ofList Method.toJson p.methods)]

/-- The reader of the JSON form. -/
def decoder : Decoder Program :=
  .record ["classes", "methods"] fun p fields =>
    match fields with
    | [classes, methods] => do
      return {
        classes := ← Decoder.withDefault (.list ClassDecl.decoder) [] p classes
        methods := ← Decoder.withDefault (.list Method.decoder) [] p methods }
    | _ => none

/-- The program of a text. -/
def parse? (text : String) : Option Program := (Json.parse? text).bind (decoder .top)

/-- The text of a program. -/
def render (p : Program) : String := p.toJson.compact

end Program

end Interlock
