import Interlock.Lattice

/-!
# Thread contexts

Where code may run. The contexts form a chain, and later ones are the more
cautious assumptions.
-/

namespace Interlock

/-- Where code may run. -/
inductive ThreadContext where
  /-- On the main thread only. -/
  | main
  /-- On a thread that is not known. -/
  | unknown
  /-- Also on a background thread. -/
  | background
  deriving DecidableEq, Repr, Ord

namespace ThreadContext

instance : Std.TransOrd ThreadContext where
  eq_swap {a b} := by cases a <;> cases b <;> rfl
  isLE_trans {a b c} := by cases a <;> cases b <;> cases c <;> decide

instance : Std.LawfulEqOrd ThreadContext where
  eq_of_compare {a b} := by cases a <;> cases b <;> decide
  compare_self {a} := by cases a <;> rfl

instance : JoinSemilattice ThreadContext where
  bottom := main
  join a b := if (compare a b).isLE then b else a

instance : Height ThreadContext := ⟨2⟩

/-- Whether code in this context may run at the same time as other code. In strict mode an unknown
thread is not taken for a concurrent one. -/
def isConcurrent (strict : Bool) : ThreadContext → Bool
  | main => false
  | unknown => !strict
  | background => true

/-- Whether code in the two contexts may overlap: when either runs in the background, or when
neither is known and strict mode is off. Code on the main thread is ordered with everything but the
background. -/
def mayRunInParallel (strict : Bool) : ThreadContext → ThreadContext → Bool
  | background, _ => true
  | _, background => true
  | unknown, unknown => !strict
  | _, _ => false

/-- The context as text. -/
def render : ThreadContext → String
  | main => "main thread"
  | unknown => "unknown thread"
  | background => "background thread"

end ThreadContext

end Interlock
