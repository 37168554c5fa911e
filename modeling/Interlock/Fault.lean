import Interlock.Program.Basic

/-!
# Faults

Why a method gets no summary, or only a degraded one.
-/

namespace Interlock

/-- Why the analysis of a method fails or degrades. -/
inductive Fault where
  /-- The method has no blocks. -/
  | emptyBody (method : MethodId)
  /-- A block names a successor that does not exist. -/
  | missingBlock (method : MethodId) (block target : Nat)
  /-- A call names a method that the program does not have. -/
  | unknownCallee (method callee : MethodId) (line : UInt32)
  /-- The number of the method is taken by an earlier record. -/
  | duplicateId (method : MethodId)
  /-- The summaries of mutually recursive methods still changed after the last round allowed. -/
  | unstable (members : List MethodId) (rounds : Nat)
  /-- Lock tracking used up its budget of block visits. -/
  | budgetExceeded (method : MethodId) (limit : Nat)
  deriving DecidableEq, Repr

namespace Fault

/-- The methods concerned. -/
def methods : Fault → List MethodId
  | emptyBody method => [method]
  | missingBlock method _ _ => [method]
  | unknownCallee method _ _ => [method]
  | duplicateId method => [method]
  | unstable members _ => members
  | budgetExceeded method _ => [method]

/-- The message for users. -/
def message : Fault → String
  | emptyBody method => "method " ++ method.render ++ " has no basic blocks"
  | missingBlock method block target =>
    "block " ++ block.repr ++ " of method " ++ method.render ++ " jumps to missing block "
      ++ target.repr
  | unknownCallee method callee line =>
    "method " ++ method.render ++ " calls unknown method " ++ callee.render ++ " on line "
      ++ line.toNat.repr
  | duplicateId method => "method id " ++ method.render ++ " is declared more than once"
  | unstable members rounds =>
    "summaries of " ++ ", ".intercalate (members.map MethodId.render)
      ++ " did not stabilize within " ++ rounds.repr ++ " rounds"
  | budgetExceeded method limit =>
    "lock tracking of method " ++ method.render ++ " exceeded " ++ limit.repr ++ " block visits"

end Fault

end Interlock
