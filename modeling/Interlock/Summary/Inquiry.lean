import Interlock.Summary.Component

/-!
# Summarizing by asking

Computing the summaries of a component needs summaries of other methods, and asks for
them when it comes to a call. A member of a recursive component is never asked for: its
summary of the current round is at hand.

- `Inquiry`: a computation that asks for summaries as it goes along.
- `Inquiry.run`: an inquiry whose questions are answered one by one.
- `MethodFacts.inquire`, `inquireRound`, `inquireRounds`, `inquireCap`: the steps of a
  component.
- `inquireComponent`: the outcome of a component.
-/

namespace Interlock

/-- A computation that asks for the summaries of methods as it goes along. -/
inductive Inquiry (α : Type) where
  | done (result : α)
  /-- Ask for the summary of a method and go on with the answer. -/
  | ask (m : MethodId) (next : Option Summary → Inquiry α)

namespace Inquiry

variable {α β σ : Type}

/-- One inquiry after another. -/
protected def bind : Inquiry α → (α → Inquiry β) → Inquiry β
  | done result, rest => rest result
  | ask m next, rest => ask m fun summary => (next summary).bind rest

instance : Monad Inquiry where
  pure := done
  bind := Inquiry.bind

/-- Go through an inquiry. Answering a question may change the state. -/
def run (respond : MethodId → σ → Option Summary × σ) : Inquiry α → σ → α × σ
  | done result, state => (result, state)
  | ask m next, state =>
    let (summary, state) := respond m state
    (next summary).run respond state

/-- Ask for the summaries of several methods in turn. -/
def askAll : List MethodId → Inquiry (MethodId → Option Summary)
  | [] => pure fun _ => none
  | m :: ms => ask m fun summary => do
    let others ← askAll ms
    return fun m' => if m' = m then summary else others m'

end Inquiry

/-- Summarize a method. The summaries of `current` are at hand, others are asked for. -/
def MethodFacts.inquire (f : MethodFacts) (current : SortedMap MethodId Summary) :
    Inquiry Summary := do
  let answers ← .askAll (f.callees.filter fun callee => !current.contains callee)
  return f.summarize (calleeSummary current answers)

/-- One round of a recursive component. -/
def inquireRound (members : List MethodFacts) (current : SortedMap MethodId Summary) :
    Inquiry (SortedMap MethodId Summary) :=
  members.foldlM (fun current f => do return current.insert f.method (← f.inquire current)) current

/-- At most `left` further rounds, until one changes nothing. -/
def inquireRounds (members : List MethodFacts) (left done : Nat)
    (current : SortedMap MethodId Summary) : Inquiry (Option ComponentSummaries) :=
  match left with
  | 0 => return none
  | left + 1 => do
    let next ← inquireRound members current
    if next = current then return some ⟨next, done + 1⟩
    else inquireRounds members left (done + 1) next

/-- The cap on the rounds of a component: the given one, else the derived one, for which the
methods called outside of the component are asked for. -/
def inquireCap (maxRounds : Option Nat) (members : List MethodFacts) : Inquiry Nat :=
  match maxRounds with
  | some cap => return cap
  | none => do
    let answers ← .askAll (outsideCallees members)
    return roundCap members answers

/-- The outcome of a component with the given members in ascending order. -/
def inquireComponent (cyclic : Bool) (maxRounds : Option Nat) (members : List MethodFacts) :
    Inquiry Outcome := do
  if cyclic then
    let ordered := calleeFirst members
    let cap ← inquireCap maxRounds ordered
    let initial := SortedMap.ofList (ordered.map fun f => (f.method, f.emptySummary))
    match ← inquireRounds ordered cap 0 initial with
    | some summaries => return .ok summaries
    | none => return .error (.unstable (members.map (·.method)) cap)
  else
    let summaries ← members.foldlM
      (fun summaries f => do return summaries.insert f.method (← f.inquire ∅)) ∅
    return .ok ⟨summaries, 1⟩

end Interlock
