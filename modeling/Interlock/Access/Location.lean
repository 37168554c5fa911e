import Interlock.Program.Basic

/-!
# Locations and kinds of accesses
-/

namespace Interlock

/-- Whether an access reads or writes. -/
inductive AccessKind where
  | read
  | write
  deriving DecidableEq, Repr, Ord

namespace AccessKind

instance : Std.TransOrd AccessKind where
  eq_swap {a b} := by cases a <;> cases b <;> rfl
  isLE_trans {a b c} := by cases a <;> cases b <;> cases c <;> decide

instance : Std.LawfulEqOrd AccessKind where
  eq_of_compare {a b} := by cases a <;> cases b <;> decide
  compare_self {a} := by cases a <;> rfl

/-- Whether the access writes. -/
def isWrite : AccessKind → Bool
  | read => false
  | write => true

/-- The kind as text. -/
def render : AccessKind → String
  | read => "read"
  | write => "write"

end AccessKind

/-- Where an operation stands. Block and place identify it inside its method; the line is what
users see. -/
structure Location where
  method : MethodId
  line : UInt32
  block : Nat
  op : Nat
  deriving DecidableEq, Repr

namespace Location

/-- Locations are ordered by method, line, block and place. -/
def order : Location → Location → Ordering :=
  compareLex (compareOn method) <| compareLex (compareOn line) <|
    compareLex (compareOn block) (compareOn op)

instance : Ord Location := ⟨order⟩

instance : Std.TransOrd Location :=
  inferInstanceAs (Std.TransCmp (compareLex _ (compareLex _ (compareLex _ _))))

instance : Std.LawfulEqOrd Location where
  eq_of_compare {a b} h := by
    obtain ⟨h₁, h⟩ := compareLex_eq_eq.1 h
    obtain ⟨h₂, h⟩ := compareLex_eq_eq.1 h
    obtain ⟨h₃, h₄⟩ := compareLex_eq_eq.1 h
    have h₁ : compare a.method b.method = .eq := h₁
    have h₂ : compare a.line b.line = .eq := h₂
    have h₃ : compare a.block b.block = .eq := h₃
    have h₄ : compare a.op b.op = .eq := h₄
    cases a; cases b
    simp_all

end Location

end Interlock
