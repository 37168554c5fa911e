import Interlock.Access.Path
import Interlock.Sorted.Set

/-!
# Locks and sets of locks

Locks are named like places in memory. The lock of the receiver is one name for all
methods: paths are not tied to a receiver either, so an inherited method and an
override of it lock the same object.

- `LockId`: the canonical name of a lock.
- `LockExpr.resolve?`: the lock that an expression names, if it names one. A lock
  without a name never protects anything.
- `LockSet`: locks known to be held.
-/

namespace Interlock

/-- The canonical name of a lock. -/
inductive LockId where
  /-- The lock of the receiver. -/
  | receiver
  /-- The lock object stored in a field. -/
  | field (path : AccessPath)
  /-- The lock that all instances of a class share. -/
  | ofClass (name : String)
  deriving DecidableEq, Repr

namespace LockId

/-- The kinds of locks in order. -/
def rank : LockId → Nat
  | receiver => 0
  | field _ => 1
  | ofClass _ => 2

/-- The path of a field lock; other locks have an empty one. -/
def path : LockId → AccessPath
  | field path => path
  | _ => ⟨"", []⟩

/-- The class of a class lock; other locks have none. -/
def className : LockId → String
  | ofClass name => name
  | _ => ""

/-- Locks are ordered by kind, then by path or class. -/
def order : LockId → LockId → Ordering :=
  compareLex (compareOn rank) (compareLex (compareOn path) (compareOn className))

instance : Ord LockId := ⟨order⟩

instance : Std.TransOrd LockId := inferInstanceAs (Std.TransCmp (compareLex _ (compareLex _ _)))

instance : Std.LawfulEqOrd LockId where
  eq_of_compare {a b} h := by
    obtain ⟨h₁, h⟩ := compareLex_eq_eq.1 h
    obtain ⟨h₂, h₃⟩ := compareLex_eq_eq.1 h
    have h₁ : compare a.rank b.rank = .eq := h₁
    have h₂ : compare a.path b.path = .eq := h₂
    have h₃ : compare a.className b.className = .eq := h₃
    cases a <;> cases b <;> simp_all [rank, path, className]

/-- The lock as text. -/
def render : LockId → String
  | receiver => "this"
  | field path => path.render
  | ofClass name => name ++ ".class"

end LockId

/-- The lock that an expression names. -/
def LockExpr.resolve? : LockExpr → Option LockId
  | receiver => some .receiver
  | ofClass name => some (.ofClass name)
  | field target =>
    match target.resolve with
    | .path path => some (.field path)
    | _ => none

/-- Locks known to be held. -/
abbrev LockSet := SortedSet LockId

/-- The set as `{this, A.lock}`. -/
def LockSet.render (s : LockSet) : String :=
  "\x7b" ++ ", ".intercalate (s.toList.map LockId.render) ++ "\x7d"

end Interlock
