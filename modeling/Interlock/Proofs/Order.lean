import Interlock.Lock.Tracking
import Interlock.Proofs.Sorted
import Interlock.ThreadContext
import Mathlib.Order.Defs.PartialOrder

/-!
# The order of analysis states

A state is below another if joining the two gives the other. The solvers of the
library only ever join, so their results are compared by this order.

- `LawfulJoin`: the laws of a join semilattice, which make this a partial order.
- `LawfulHeight`: a strictly rising chain of states is no longer than the height.
- `ThreadContext.le_join_iff`, `HeldLocks.le_iff`: the order of the two lattices of the
  analysis. Contexts form a chain; of two sets of locks the larger one is below.
-/

namespace Interlock

/-- The laws of a join semilattice. -/
class LawfulJoin (α : Type) [JoinSemilattice α] : Prop where
  join_assoc : ∀ a b c : α, join (join a b) c = join a (join b c)
  join_comm : ∀ a b : α, join a b = join b a
  join_self : ∀ a : α, join a a = a
  bottom_join : ∀ a : α, join bottom a = a

namespace LawfulJoin

variable {α : Type} [JoinSemilattice α] [LawfulJoin α]

/-- A state is below another if joining the two gives the other. -/
instance (priority := low) order : PartialOrder α where
  le a b := join a b = b
  le_refl := join_self
  le_trans a b c hab hbc := by
    show join a c = c
    calc join a c = join a (join b c) := by rw [hbc]
      _ = join (join a b) c := (join_assoc a b c).symm
      _ = c := by rw [hab, hbc]
  le_antisymm a b hab hba := by
    calc a = join b a := hba.symm
      _ = join a b := join_comm b a
      _ = b := hab

theorem le_def {a b : α} : a ≤ b ↔ join a b = b := Iff.rfl

theorem bottom_le (a : α) : bottom ≤ a := bottom_join a

/-- The join of two states is above both of them. -/
theorem le_join_left (a b : α) : a ≤ join a b := by
  rw [le_def, ← join_assoc, join_self]

theorem le_join_right (a b : α) : b ≤ join a b := by
  rw [join_comm]
  exact le_join_left b a

/-- It is below every state that is above both. -/
theorem join_le {a b c : α} (ha : a ≤ c) (hb : b ≤ c) : join a b ≤ c := by
  rw [le_def, join_assoc, le_def.1 hb, le_def.1 ha]

theorem join_le_iff {a b c : α} : join a b ≤ c ↔ a ≤ c ∧ b ≤ c :=
  ⟨fun h => ⟨le_trans (le_join_left a b) h, le_trans (le_join_right a b) h⟩,
    fun h => join_le h.1 h.2⟩

end LawfulJoin

/-- The height bounds the length of strictly rising chains: each rise adds to a rank that never
exceeds the height. -/
class LawfulHeight (α : Type) [JoinSemilattice α] [LawfulJoin α] [Height α] : Prop where
  exists_rank : ∃ rank : α → Nat,
    (∀ a, rank a ≤ Height.height α) ∧ ∀ a b : α, a < b → rank a < rank b

/-! ## Thread contexts -/

namespace ThreadContext

instance : LawfulJoin ThreadContext where
  join_assoc a b c := by cases a <;> cases b <;> cases c <;> rfl
  join_comm a b := by cases a <;> cases b <;> rfl
  join_self a := by cases a <;> rfl
  bottom_join a := by cases a <;> rfl

instance (a b : ThreadContext) : Decidable (a ≤ b) := inferInstanceAs (Decidable (join a b = b))

/-- Contexts form a chain, so what is below a join is below one of its parts. -/
theorem le_join_iff {a b c : ThreadContext} : a ≤ join b c ↔ a ≤ b ∨ a ≤ c := by
  cases a <;> cases b <;> cases c <;> decide

/-- All contexts. -/
def all : List ThreadContext := [main, unknown, background]

theorem mem_all (t : ThreadContext) : t ∈ all := by cases t <;> decide

end ThreadContext

/-! ## Sets of held locks -/

namespace HeldLocks

variable {named : LockSet}

/-- States are told apart by their locks. -/
theorem ext_locks {a b : HeldLocks named} (h : ∀ l, l ∈ a.locks ↔ l ∈ b.locks) : a = b := by
  obtain ⟨s, hs⟩ := a
  obtain ⟨t, ht⟩ := b
  obtain rfl : s = t := SortedSet.ext_mem h
  rfl

/-- Where paths merge, the locks held on all of them remain. -/
@[simp] theorem mem_join {a b : HeldLocks named} {l : LockId} :
    l ∈ (join a b).locks ↔ l ∈ a.locks ∧ l ∈ b.locks :=
  SortedSet.mem_inter

/-- In code not reached, all named locks count as held. -/
@[simp] theorem mem_bottom {l : LockId} : l ∈ (bottom : HeldLocks named).locks ↔ l ∈ named :=
  Iff.rfl

@[simp] theorem mem_of {s : LockSet} {l : LockId} :
    l ∈ (of s : HeldLocks named).locks ↔ l ∈ s ∧ l ∈ named :=
  SortedSet.mem_inter

instance : LawfulJoin (HeldLocks named) where
  join_assoc a b c := ext_locks fun l => by simp only [mem_join, and_assoc]
  join_comm a b := ext_locks fun l => by simp only [mem_join, and_comm]
  join_self a := ext_locks fun l => by simp only [mem_join, and_self]
  bottom_join a := ext_locks fun l => by
    simp only [mem_join, mem_bottom, and_iff_right_iff_imp]
    exact a.mem_named l

/-- **Order of held locks**: the fewer locks are held, the safer the approximation. -/
theorem le_iff {a b : HeldLocks named} : a ≤ b ↔ ∀ l ∈ b.locks, l ∈ a.locks := by
  rw [LawfulJoin.le_def]
  constructor
  · intro h l hl
    rw [← h] at hl
    exact (mem_join.1 hl).1
  · intro h
    refine ext_locks fun l => ?_
    rw [mem_join, and_iff_right_iff_imp]
    exact h l

/-- The rank of a set is the number of named locks that it lacks. -/
instance : LawfulHeight (HeldLocks named) where
  exists_rank := by
    refine ⟨fun a => named.size - a.locks.size, fun a => Nat.sub_le _ _, fun a b hab => ?_⟩
    have hsub : ∀ l ∈ b.locks, l ∈ a.locks := le_iff.1 (le_of_lt hab)
    have hle : b.locks.size ≤ a.locks.size := SortedSet.size_le_of_subset hsub
    have hna : a.locks.size ≤ named.size := SortedSet.size_le_of_subset a.mem_named
    -- a strict rise loses a lock: of two sets, one inside the other, only equal ones are of the
    -- same size
    have hne : b.locks.size ≠ a.locks.size := by
      intro heq
      have hlocks : b.locks = a.locks :=
        SortedSet.eq_of_subset_of_size_le hsub (Nat.le_of_eq heq.symm)
      exact ne_of_lt hab (ext_locks fun l => by rw [hlocks])
    show named.size - a.locks.size < named.size - b.locks.size
    omega

end HeldLocks

end Interlock
