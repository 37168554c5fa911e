import Interlock.Lock.Tracking
import Interlock.Sorted.Map
import Interlock.ThreadContext

/-!
# Facts about methods

Everything known about a method before its callers and callees are looked at.
-/

namespace Interlock

/-- What is known about one method by itself. -/
structure MethodFacts where
  method : MethodId
  /-- The thread context as far as annotations tell. -/
  thread : ThreadContext
  tagged : Tagged
  /-- Whether lock tracking gave up on the method. -/
  degraded : Bool
  deriving DecidableEq

/-- The facts of all methods under analysis. -/
abbrev FactTable := SortedMap MethodId MethodFacts

/-- The methods that a method calls, in call order. -/
def MethodFacts.callees (f : MethodFacts) : List MethodId := f.tagged.calls.map (·.call.callee)

end Interlock
