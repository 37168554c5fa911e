import Interlock.Proofs.Rounds
import Interlock.Summary.Inquiry

/-!
# What an inquiry gives and what it asks

If each question is answered by one function, an inquiry gives one result and asks for
one list of methods. Both decide what happens when the answers come from a state that
changes as questions are answered, as long as the answers stay the same.

- `Inquiry.answer`, `Inquiry.questions`: the result and the questions under fixed answers.
- `Inquiry.run_eq_answer`: going through an inquiry with a changing state.
- `answer_inquireComponent`: an inquiry about a component gives its outcome.
- `mem_questions_inquireComponent`: it asks only for methods that members call outside of
  the component.
-/

namespace Interlock

namespace Inquiry

variable {α β σ τ : Type} {answers answers' : MethodId → Option Summary}

/-- The result of an inquiry under fixed answers. -/
def answer (answers : MethodId → Option Summary) : Inquiry α → α
  | done result => result
  | ask m next => (next (answers m)).answer answers

/-- The methods that an inquiry asks for under fixed answers, in turn. -/
def questions (answers : MethodId → Option Summary) : Inquiry α → List MethodId
  | done _ => []
  | ask m next => m :: (next (answers m)).questions answers

@[simp] theorem answer_pure (result : α) : (pure result : Inquiry α).answer answers = result := rfl

@[simp] theorem questions_pure (result : α) :
    (pure result : Inquiry α).questions answers = [] := rfl

@[simp] theorem answer_bind (t : Inquiry α) (rest : α → Inquiry β) :
    (t >>= rest).answer answers = (rest (t.answer answers)).answer answers := by
  induction t with
  | done result => rfl
  | ask m next ih => exact ih (answers m)

@[simp] theorem questions_bind (t : Inquiry α) (rest : α → Inquiry β) :
    (t >>= rest).questions answers
      = t.questions answers ++ (rest (t.answer answers)).questions answers := by
  induction t with
  | done result => rfl
  | ask m next ih => exact congrArg (m :: ·) (ih (answers m))

/-- The result depends on the answers to the questions. -/
theorem answer_congr (t : Inquiry α) (h : ∀ m ∈ t.questions answers, answers m = answers' m) :
    t.answer answers = t.answer answers' := by
  induction t with
  | done result => rfl
  | ask m next ih =>
    have hm : answers m = answers' m := h m List.mem_cons_self
    show (next (answers m)).answer answers = (next (answers' m)).answer answers'
    rw [← hm]
    exact ih (answers m) fun m' hm' => h m' (List.mem_cons_of_mem _ hm')

/-- Going through an inquiry with a state gives the result under fixed answers, if these are the
answers that its questions get, and keeps what answering them keeps. -/
theorem run_eq_answer {respond : MethodId → σ → Option Summary × σ} {P : σ → Prop} (t : Inquiry α)
    (h : ∀ m ∈ t.questions answers, ∀ state, P state →
      (respond m state).1 = answers m ∧ P (respond m state).2) {state : σ} (hstate : P state) :
    (t.run respond state).1 = t.answer answers ∧ P (t.run respond state).2 := by
  induction t generalizing state with
  | done result => exact ⟨rfl, hstate⟩
  | ask m next ih =>
    obtain ⟨hanswer, hkept⟩ := h m List.mem_cons_self state hstate
    show ((next (respond m state).1).run respond (respond m state).2).1
        = (next (answers m)).answer answers ∧
      P ((next (respond m state).1).run respond (respond m state).2).2
    rw [hanswer]
    exact ih (answers m) (fun m' hm' => h m' (List.mem_cons_of_mem _ hm')) hkept

/-- Going through an inquiry keeps what answering a question keeps. -/
theorem run_keeps {respond : MethodId → σ → Option Summary × σ} {P : σ → Prop} (t : Inquiry α)
    (h : ∀ m state, P state → P (respond m state).2) {state : σ} (hstate : P state) :
    P (t.run respond state).2 := by
  induction t generalizing state with
  | done result => exact hstate
  | ask m next ih => exact ih (respond m state).1 (h m state hstate)

/-- If answers do not depend on a part of the state, neither does the result. -/
theorem run_map {respond : MethodId → σ → Option Summary × σ}
    {respond' : MethodId → τ → Option Summary × τ} (view : σ → τ) (t : Inquiry α)
    (h : ∀ m state, (respond m state).map id view = respond' m (view state)) (state : σ) :
    (t.run respond state).map id view = t.run respond' (view state) := by
  induction t generalizing state with
  | done result => rfl
  | ask m next ih =>
    show ((next (respond m state).1).run respond (respond m state).2).map id view
      = (next (respond' m (view state)).1).run respond' (respond' m (view state)).2
    rw [← h m state, ih]
    rfl

/-! ## Several steps in turn -/

/-- The results of several steps, each going on from the one before. -/
theorem answer_foldlM (step : β → α → Inquiry β) (l : List α) (start : β) :
    (l.foldlM step start).answer answers
      = l.foldl (fun value a => (step value a).answer answers) start := by
  induction l generalizing start with
  | nil => rfl
  | cons a l ih => rw [List.foldlM_cons, answer_bind, ih, List.foldl_cons]

/-- The questions of several steps, if each step from a value with a property asks only for
certain methods and gives a value with that property. -/
theorem questions_foldlM {step : β → α → Inquiry β} {l : List α} {P : β → Prop}
    {Q : MethodId → Prop}
    (hstep : ∀ a ∈ l, ∀ value, P value → P ((step value a).answer answers) ∧
      ∀ m ∈ (step value a).questions answers, Q m)
    {start : β} (hstart : P start) : ∀ m ∈ (l.foldlM step start).questions answers, Q m := by
  induction l generalizing start with
  | nil => exact fun m hm => absurd hm List.not_mem_nil
  | cons a l ih =>
    obtain ⟨hnext, hfirst⟩ := hstep a List.mem_cons_self start hstart
    intro m hm
    rw [List.foldlM_cons, questions_bind, List.mem_append] at hm
    rcases hm with hm | hm
    · exact hfirst m hm
    · exact ih (fun b hb => hstep b (List.mem_cons_of_mem _ hb)) hnext m hm

@[simp] theorem questions_askAll (ms : List MethodId) : (askAll ms).questions answers = ms := by
  induction ms with
  | nil => rfl
  | cons m ms ih =>
    simp only [askAll, questions, questions_bind, ih, questions_pure, List.append_nil]

/-- The answers for several methods. -/
theorem answer_askAll {ms : List MethodId} {m : MethodId} (hm : m ∈ ms) :
    (askAll ms).answer answers m = answers m := by
  induction ms with
  | nil => cases hm
  | cons m' ms ih =>
    simp only [askAll, answer, answer_bind, answer_pure]
    by_cases heq : m = m'
    · rw [if_pos heq, heq]
    · rw [if_neg heq]
      exact ih ((List.mem_cons.1 hm).resolve_left heq)

end Inquiry

section Component

variable {answers : MethodId → Option Summary} {members : List MethodFacts}
  {current : SortedMap MethodId Summary}

/-! ## What the steps of a component give -/

/-- A summary that is not at hand has to be asked for. -/
theorem contains_eq_false_iff {m : MethodId} :
    current.contains m = false ↔ current.get? m = none := by
  rw [SortedMap.contains, Option.isSome_eq_false_iff, Option.isNone_iff_eq_none]

@[simp] theorem mem_questions_inquire {f : MethodFacts} {m : MethodId} :
    m ∈ (f.inquire current).questions answers ↔ m ∈ f.callees ∧ current.get? m = none := by
  unfold MethodFacts.inquire
  simp [contains_eq_false_iff]

@[simp] theorem answer_inquire (f : MethodFacts) :
    (f.inquire current).answer answers = f.summarize (calleeSummary current answers) := by
  unfold MethodFacts.inquire
  rw [Inquiry.answer_bind, Inquiry.answer_pure]
  refine MethodFacts.summarize_congr fun callee hcallee => ?_
  unfold calleeSummary
  cases hcurrent : current.get? callee with
  | some s => simp
  | none =>
    -- no summary at hand, so this callee is one of those asked for
    have hasked : callee ∈ f.callees.filter fun callee => !current.contains callee := by
      simp [hcallee, contains_eq_false_iff.2 hcurrent]
    rw [Inquiry.answer_askAll hasked]

/-- A round of questions is a round. -/
theorem answer_inquireRound :
    (inquireRound members current).answer answers = runRound answers members current := by
  rw [inquireRound, Inquiry.answer_foldlM, runRound]
  simp

/-- So are several rounds, up to the cap. -/
theorem answer_inquireRounds (left done : Nat) :
    (inquireRounds members left done current).answer answers
      = iterate answers members left done current := by
  induction left generalizing done current with
  | zero => rfl
  | succ left ih =>
    rw [inquireRounds, iterate, Inquiry.answer_bind, answer_inquireRound]
    split
    · rfl
    · exact ih _

/-- The derived cap depends on the methods that the component calls outside of itself. -/
theorem roundCap_congr {answers' : MethodId → Option Summary}
    (h : ∀ m ∈ outsideCallees members, answers m = answers' m) :
    roundCap members answers = roundCap members answers' := by
  have hevents : outsideEvents members answers = outsideEvents members answers' := by
    unfold outsideEvents
    refine List.flatMap_congr fun callee hcallee => ?_
    rw [h callee hcallee]
  unfold roundCap visiblePaths visibleLocks
  rw [hevents]

/-- The cap is the one that is set, or the derived one. -/
theorem answer_inquireCap (maxRounds : Option Nat) :
    (inquireCap maxRounds members).answer answers
      = maxRounds.getD (roundCap members answers) := by
  cases maxRounds with
  | some cap => rfl
  | none =>
    show Inquiry.answer answers (Inquiry.askAll (outsideCallees members) >>= _) = _
    rw [Inquiry.answer_bind, Inquiry.answer_pure, Option.getD_none]
    exact roundCap_congr fun m hm => Inquiry.answer_askAll hm

/-- Without other summaries at hand, a method is summarized from the answers alone. -/
theorem calleeSummary_empty : calleeSummary ∅ answers = answers := by
  funext m
  simp [calleeSummary]

/-- **Outcome of a component**: an inquiry about a component gives its outcome. -/
theorem answer_inquireComponent (cyclic : Bool) (maxRounds : Option Nat) :
    (inquireComponent cyclic maxRounds members).answer answers
      = summarizeComponent cyclic maxRounds answers members := by
  cases cyclic with
  | true =>
    show Inquiry.answer answers (inquireCap maxRounds (calleeFirst members) >>= _) = _
    rw [Inquiry.answer_bind, Inquiry.answer_bind, answer_inquireRounds, answer_inquireCap,
      summarizeComponent_cyclic, initialSummaries]
    cases iterate answers (calleeFirst members)
      (maxRounds.getD (roundCap (calleeFirst members) answers)) 0 _ <;> rfl
  | false =>
    show Inquiry.answer answers (List.foldlM _ _ members >>= _) = _
    rw [Inquiry.answer_bind, Inquiry.answer_pure, Inquiry.answer_foldlM, summarizeComponent_acyclic,
      SortedMap.ofList, List.foldl_map]
    simp [calleeSummary_empty]

/-! ## What the steps of a component ask -/

/-- `IsOutside members m`: a member calls the method, which is not a member. -/
def IsOutside (members : List MethodFacts) (m : MethodId) : Prop :=
  (∃ f ∈ members, m ∈ f.callees) ∧ m ∉ members.map (·.method)

/-- The order of members does not matter. -/
theorem IsOutside.of_perm {members' : List MethodFacts} (hperm : members'.Perm members)
    {m : MethodId} (h : IsOutside members' m) : IsOutside members m := by
  obtain ⟨⟨f, hf, hcall⟩, hout⟩ := h
  exact ⟨⟨f, hperm.mem_iff.1 hf, hcall⟩, fun hmem => hout ((hperm.map _).mem_iff.2 hmem)⟩

/-- Between rounds the summaries of all members are at hand, so only others are asked for. -/
theorem isOutside_of_mem_questions (h : IsState members current) {f : MethodFacts}
    (hf : f ∈ members) {m : MethodId} (hm : m ∈ (f.inquire current).questions answers) :
    IsOutside members m := by
  obtain ⟨hcall, hnone⟩ := mem_questions_inquire.1 hm
  refine ⟨⟨f, hf, hcall⟩, fun hmem => ?_⟩
  obtain ⟨g, hg, rfl⟩ := List.mem_map.1 hmem
  obtain ⟨s, hs, -⟩ := h.isOf g hg
  rw [hnone] at hs
  cases hs

/-- In a round, each member asks for what it calls outside. -/
theorem questions_inquireRound (hnodup : (members.map (·.method)).Nodup)
    (h : IsState members current) :
    ∀ m ∈ (inquireRound members current).questions answers, IsOutside members m := by
  refine Inquiry.questions_foldlM (P := IsState members) (fun f hf current hstate => ?_) h
  refine ⟨?_, fun m hm => ?_⟩
  · rw [Inquiry.answer_bind, Inquiry.answer_pure, answer_inquire]
    exact hstate.insert hnodup hf (Summary.summarize_isOf f _)
  · rw [Inquiry.questions_bind, Inquiry.questions_pure, List.append_nil] at hm
    exact isOutside_of_mem_questions hstate hf hm

/-- Rounds leave all summaries of members at hand, so no round asks for more. -/
theorem questions_inquireRounds (hnodup : (members.map (·.method)).Nodup) (left done : Nat)
    (h : IsState members current) :
    ∀ m ∈ (inquireRounds members left done current).questions answers, IsOutside members m := by
  induction left generalizing done current with
  | zero => exact fun m hm => absurd hm List.not_mem_nil
  | succ left ih =>
    intro m hm
    rw [inquireRounds, Inquiry.questions_bind, List.mem_append, answer_inquireRound] at hm
    rcases hm with hm | hm
    · exact questions_inquireRound hnodup h m hm
    · split at hm
      · cases hm
      · exact ih _ (runRound_isState hnodup h) m hm

/-- The callees that the derived cap looks at are outside. -/
theorem isOutside_of_mem_outsideCallees {m : MethodId} (hm : m ∈ outsideCallees members) :
    IsOutside members m := by
  obtain ⟨f, hf, hm⟩ := List.mem_flatMap.1 hm
  simp only [List.mem_filter, Bool.not_eq_true', List.any_eq_false, decide_eq_true_eq] at hm
  refine ⟨⟨f, hf, hm.1⟩, fun hmem => ?_⟩
  obtain ⟨g, hg, heq⟩ := List.mem_map.1 hmem
  exact hm.2 g hg heq

theorem questions_inquireCap (maxRounds : Option Nat) :
    ∀ m ∈ (inquireCap maxRounds members).questions answers, IsOutside members m := by
  intro m hm
  cases maxRounds with
  | some cap => cases hm
  | none =>
    have hm : m ∈ Inquiry.questions answers (Inquiry.askAll (outsideCallees members) >>= _) := hm
    rw [Inquiry.questions_bind, Inquiry.questions_askAll, Inquiry.questions_pure,
      List.append_nil] at hm
    exact isOutside_of_mem_outsideCallees hm

/-- **Questions about a component**: an inquiry asks only for methods that members call outside of
it. If the component is not cyclic, this rests on its members not calling each other. -/
theorem mem_questions_inquireComponent {cyclic : Bool} (hnodup : (members.map (·.method)).Nodup)
    (hacyclic : cyclic = false → ∀ f ∈ members, ∀ callee ∈ f.callees,
      callee ∉ members.map (·.method)) (maxRounds : Option Nat) :
    ∀ m ∈ (inquireComponent cyclic maxRounds members).questions answers, IsOutside members m := by
  cases cyclic with
  | true =>
    intro m hm
    have hm : m ∈ Inquiry.questions answers
      (inquireCap maxRounds (calleeFirst members) >>= _) := hm
    -- the members are summarized in another order than they are listed in
    have hperm := calleeFirst_perm hnodup
    have hordered : ((calleeFirst members).map (·.method)).Nodup :=
      (hperm.map _).nodup_iff.2 hnodup
    rw [Inquiry.questions_bind, Inquiry.questions_bind, List.mem_append, List.mem_append] at hm
    rcases hm with hm | hm | hm
    · exact (questions_inquireCap maxRounds m hm).of_perm hperm
    · exact (questions_inquireRounds hordered _ _ (initialSummaries_isState hordered) m hm).of_perm
        hperm
    · -- nothing is asked once the rounds are over
      split at hm <;> cases hm
  | false =>
    intro m hm
    have hm : m ∈ Inquiry.questions answers (List.foldlM _ _ members >>= _) := hm
    rw [Inquiry.questions_bind, Inquiry.questions_pure, List.append_nil] at hm
    refine Inquiry.questions_foldlM (P := fun _ => True) (fun f hf _ _ => ?_) trivial m hm
    refine ⟨trivial, fun m hm => ?_⟩
    rw [Inquiry.questions_bind, Inquiry.questions_pure, List.append_nil,
      mem_questions_inquire] at hm
    exact ⟨⟨f, hf, hm.1⟩, hacyclic rfl f hf m hm.1⟩

end Component

end Interlock
