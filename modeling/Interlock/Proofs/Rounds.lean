import Interlock.Proofs.CallGraph
import Interlock.Proofs.Shown
import Interlock.Summary.Component
import Mathlib.Logic.Function.Iterate

/-!
# Rounds of a recursive component

What one round does to the summaries of a component, and what follows for any number of
rounds. A round updates the summaries one after the other, so later ones see those
updated before; all that is used about the order is that no summary is left out.

- `IsState`: between rounds each member has a summary of its form, and nobody else has.
- `Around`: the features that members see, inside the component and outside of it.
- `runRound_sound`: a round shows nothing that a closed set of features lacks.
- `runRound_progress`: after a round, every member shows what follows from what all
  members showed before.
- `eq_summarize_of_runRound_eq`: summaries that a round leaves as they are satisfy the
  equations of all members.
- `iterate_eq_some`, `iterate_of_stable`: how rounds end.
-/

namespace Interlock

section Rounds

variable {finished : MethodId → Option Summary} {members : List MethodFacts}
  {current : SortedMap MethodId Summary}

/-! ## States between rounds -/

/-- Each member has a summary of its form, and no other method has one. -/
structure IsState (members : List MethodFacts) (current : SortedMap MethodId Summary) : Prop where
  isOf : ∀ f ∈ members, ∃ s, current.get? f.method = some s ∧ s.IsOf f
  only : ∀ m, m ∉ members.map (·.method) → current.get? m = none

/-- What each update of a summary preserves, a round preserves. -/
theorem runRound_induction {P : SortedMap MethodId Summary → Prop}
    (hstep : ∀ f ∈ members, ∀ current, P current →
      P (current.insert f.method (f.summarize (calleeSummary current finished))))
    (h : P current) : P (runRound finished members current) := by
  rw [runRound]
  induction members generalizing current with
  | nil => exact h
  | cons f members ih =>
    refine ih (fun g hg => hstep g (List.mem_cons_of_mem _ hg)) ?_
    exact hstep f List.mem_cons_self current h

/-- With another summary of a member, a state is still one. -/
theorem IsState.insert (hnodup : (members.map (·.method)).Nodup) (h : IsState members current)
    {f : MethodFacts} (hf : f ∈ members) {s : Summary} (hs : s.IsOf f) :
    IsState members (current.insert f.method s) where
  isOf g hg := by
    rw [SortedMap.get?_insert]
    split
    · next heq =>
      obtain rfl := List.inj_on_of_nodup_map hnodup hg hf heq
      exact ⟨s, rfl, hs⟩
    · exact h.isOf g hg
  only m hm := by
    have hne : m ≠ f.method := fun heq => hm (heq ▸ List.mem_map.2 ⟨f, hf, rfl⟩)
    rw [SortedMap.get?_insert, if_neg hne]
    exact h.only m hm

/-- After a round, a state is still one. -/
theorem runRound_isState (hnodup : (members.map (·.method)).Nodup) (h : IsState members current) :
    IsState members (runRound finished members current) :=
  runRound_induction
    (fun f hf _ hcurrent => hcurrent.insert hnodup hf (Summary.summarize_isOf f _)) h

/-- The summaries that a component starts from. -/
def initialSummaries (members : List MethodFacts) : SortedMap MethodId Summary :=
  .ofList (members.map fun f => (f.method, f.emptySummary))

/-- Looking up a value that is computed from facts, by the method that they are about. -/
theorem get?_ofList_members {ν : Type} (hnodup : (members.map (·.method)).Nodup)
    (value : MethodFacts → ν) {f : MethodFacts} (hf : f ∈ members) :
    (SortedMap.ofList (members.map fun f => (f.method, value f))).get? f.method
      = some (value f) := by
  have hkeys : ((members.map fun f => (f.method, value f)).map (·.1)).Nodup := by
    rw [List.map_map]
    exact hnodup
  rw [SortedMap.get?_ofList hkeys, ← SortedMap.mem_iff_lookup hkeys]
  exact List.mem_map.2 ⟨f, hf, rfl⟩

/-- Other methods are not found. -/
theorem get?_ofList_members_eq_none {ν : Type} (value : MethodFacts → ν) {m : MethodId}
    (hm : m ∉ members.map (·.method)) :
    (SortedMap.ofList (members.map fun f => (f.method, value f))).get? m = none := by
  rw [Option.eq_none_iff_forall_ne_some]
  intro v hv
  obtain ⟨f, hf, heq⟩ := List.mem_map.1 (SortedMap.mem_of_get?_ofList hv)
  exact hm (List.mem_map.2 ⟨f, hf, (Prod.mk.inj heq).1⟩)

theorem initialSummaries_isState (hnodup : (members.map (·.method)).Nodup) :
    IsState members (initialSummaries members) where
  isOf f hf := ⟨f.emptySummary, get?_ofList_members hnodup MethodFacts.emptySummary hf,
    Summary.emptySummary_isOf f⟩
  only _ hm := get?_ofList_members_eq_none _ hm

/-- Any number of rounds leads from the start to a state. -/
theorem iterate_runRound_isState (hnodup : (members.map (·.method)).Nodup) (n : Nat) :
    IsState members ((runRound finished members)^[n] (initialSummaries members)) := by
  induction n with
  | zero => exact initialSummaries_isState hnodup
  | succ n ih =>
    rw [Function.iterate_succ_apply']
    exact runRound_isState hnodup ih

/-! ## What members see -/

/-- The features that members see: inside the component those of `has`, outside of it those of
the finished summaries. -/
def Around (members : List MethodFacts) (finished : MethodId → Option Summary)
    (has : MethodId → Feature → Prop) (m : MethodId) (φ : Feature) : Prop :=
  m ∈ members.map (·.method) ∧ has m φ ∨ m ∉ members.map (·.method) ∧ ShownBy finished m φ

/-- Members see no less if members show no less. -/
theorem Around.mono {has has' : MethodId → Feature → Prop}
    (h : ∀ f ∈ members, ∀ φ, has f.method φ → has' f.method φ) {m : MethodId} {φ : Feature}
    (hφ : Around members finished has m φ) : Around members finished has' m φ := by
  rcases hφ with ⟨hm, hhas⟩ | houtside
  · obtain ⟨f, hf, rfl⟩ := List.mem_map.1 hm
    exact .inl ⟨hm, h f hf φ hhas⟩
  · exact .inr houtside

/-- What is seen of a callee when a summary is updated. -/
theorem shownBy_calleeSummary (h : IsState members current) {m : MethodId} {φ : Feature} :
    ShownBy (calleeSummary current finished) m φ ↔
      Around members finished (ShownBy current.get?) m φ := by
  by_cases hm : m ∈ members.map (·.method)
  · obtain ⟨f, hf, rfl⟩ := List.mem_map.1 hm
    obtain ⟨s, hs, -⟩ := h.isOf f hf
    have hcallee : calleeSummary current finished f.method = current.get? f.method := by
      rw [calleeSummary, hs, Option.some_or]
    rw [Around, ShownBy, hcallee, and_iff_right hm, or_iff_left fun hout => hout.1 hm]
    rfl
  · have hcallee : calleeSummary current finished m = finished m := by
      rw [calleeSummary, h.only m hm, Option.none_or]
    rw [Around, ShownBy, hcallee, and_iff_right hm, or_iff_right fun hin => hm hin.1]
    rfl

/-- An updated summary shows what follows from what its method sees. -/
theorem shows_update (h : IsState members current) {f : MethodFacts} {φ : Feature} :
    (f.summarize (calleeSummary current finished)).Shows φ ↔
      f.Gains (Around members finished (ShownBy current.get?)) φ := by
  rw [MethodFacts.summarize_shows]
  constructor
  · exact MethodFacts.Gains.mono fun _ _ _ => (shownBy_calleeSummary h).1
  · exact MethodFacts.Gains.mono fun _ _ _ => (shownBy_calleeSummary h).2

/-! ## One round -/

/-- A set of features of the members that has all that follows from it. -/
def ClosedAround (members : List MethodFacts) (finished : MethodId → Option Summary)
    (has : MethodId → Feature → Prop) : Prop :=
  ∀ f ∈ members, ∀ φ, f.Gains (Around members finished has) φ → has f.method φ

/-- A round shows nothing that a closed set of features lacks. -/
theorem runRound_sound (hnodup : (members.map (·.method)).Nodup)
    {has : MethodId → Feature → Prop} (hclosed : ClosedAround members finished has)
    (h : IsState members current) (hhas : ∀ m φ, ShownBy current.get? m φ → has m φ) :
    ∀ m φ, ShownBy (runRound finished members current).get? m φ → has m φ := by
  refine (runRound_induction (P := fun current => IsState members current ∧
    ∀ m φ, ShownBy current.get? m φ → has m φ) ?_ ⟨h, hhas⟩).2
  rintro f hf current ⟨hstate, hhas⟩
  refine ⟨hstate.insert hnodup hf (Summary.summarize_isOf f _), ?_⟩
  rintro m φ ⟨s, hs, hshows⟩
  rw [SortedMap.get?_insert] at hs
  split at hs
  · next heq =>
    obtain rfl := Option.some_inj.1 hs
    rw [heq]
    refine hclosed f hf φ (((shows_update hstate).1 hshows).mono fun _ _ φ => ?_)
    exact Around.mono fun g _ φ => hhas g.method φ
  · exact hhas m φ ⟨s, hs, hshows⟩

/-- After a round, every member shows what follows from what all members showed before. -/
theorem runRound_progress (hnodup : (members.map (·.method)).Nodup)
    {has has' : MethodId → Feature → Prop}
    (hgains : ∀ f ∈ members, ∀ φ, has' f.method φ → f.Gains (Around members finished has) φ)
    (hmono : ∀ f ∈ members, ∀ φ, has f.method φ → has' f.method φ)
    (h : IsState members current)
    (hhas : ∀ f ∈ members, ∀ φ, has f.method φ → ShownBy current.get? f.method φ) :
    ∀ f ∈ members, ∀ φ, has' f.method φ →
      ShownBy (runRound finished members current).get? f.method φ := by
  -- along the round: all show `has`, and those not waiting any more show `has'`
  suffices hfold : ∀ (waiting : List MethodFacts) (current : SortedMap MethodId Summary),
      (∀ f ∈ waiting, f ∈ members) → IsState members current →
      (∀ f ∈ members, ∀ φ, has f.method φ → ShownBy current.get? f.method φ) →
      (∀ f ∈ members, f ∉ waiting → ∀ φ, has' f.method φ → ShownBy current.get? f.method φ) →
      ∀ f ∈ members, ∀ φ, has' f.method φ →
        ShownBy (runRound finished waiting current).get? f.method φ from
    hfold members current (fun _ hf => hf) h hhas fun f hf hnot => absurd hf hnot
  intro waiting
  induction waiting with
  | nil => exact fun current _ _ _ hdone f hf φ => hdone f hf List.not_mem_nil φ
  | cons g waiting ih =>
    intro current hmem hstate hhas hdone
    have hg : g ∈ members := hmem g List.mem_cons_self
    have hnew : ∀ φ, has' g.method φ →
        (g.summarize (calleeSummary current finished)).Shows φ := by
      intro φ hφ
      refine (shows_update hstate).2 ((hgains g hg φ hφ).mono fun _ _ φ => ?_)
      exact Around.mono hhas
    -- an update of `g` changes nothing for the others
    have hupdate : ∀ f ∈ members, ∀ φ, (f ≠ g → ShownBy current.get? f.method φ) →
        (f = g → has' g.method φ) → ShownBy (current.insert g.method
          (g.summarize (calleeSummary current finished))).get? f.method φ := by
      intro f hf φ hother hself
      rw [ShownBy, SortedMap.get?_insert]
      split
      · next heq => exact ⟨_, rfl, hnew φ (hself (List.inj_on_of_nodup_map hnodup hf hg heq))⟩
      · next hne => exact hother fun heq => hne (heq ▸ rfl)
    refine ih _ (fun f hf => hmem f (List.mem_cons_of_mem _ hf))
      (hstate.insert hnodup hg (Summary.summarize_isOf g _)) ?_ ?_
    · intro f hf φ hφ
      refine hupdate f hf φ (fun _ => hhas f hf φ hφ) ?_
      rintro rfl
      exact hmono f hf φ hφ
    · intro f hf hnot φ hφ
      refine hupdate f hf φ (fun hne => hdone f hf ?_ φ hφ) fun heq => heq ▸ hφ
      exact fun hmem => (List.mem_cons.1 hmem).elim hne hnot

/-- A round leaves the summaries of other methods alone. -/
theorem get?_runRound_of_not_mem {m : MethodId} (hm : m ∉ members.map (·.method)) :
    (runRound finished members current).get? m = current.get? m := by
  refine runRound_induction (P := fun next => next.get? m = current.get? m) ?_ rfl
  intro f hf next hnext
  have hne : m ≠ f.method := fun heq => hm (heq ▸ List.mem_map.2 ⟨f, hf, rfl⟩)
  rw [SortedMap.get?_insert, if_neg hne, hnext]

/-- Summaries that a round leaves as they are satisfy the equations of all members. -/
theorem eq_summarize_of_runRound_eq (hnodup : (members.map (·.method)).Nodup)
    (h : runRound finished members current = current) {f : MethodFacts} (hf : f ∈ members) :
    current.get? f.method = some (f.summarize (calleeSummary current finished)) := by
  induction members with
  | nil => cases hf
  | cons g members ih =>
    rw [List.map_cons, List.nodup_cons] at hnodup
    have hround : runRound finished members
        (current.insert g.method (g.summarize (calleeSummary current finished))) = current := h
    -- the rest of the round leaves `g` alone, so its update has changed nothing
    have hg : current.get? g.method = some (g.summarize (calleeSummary current finished)) := by
      have hget : (runRound finished members (current.insert g.method
          (g.summarize (calleeSummary current finished)))).get? g.method
          = (current.insert g.method
            (g.summarize (calleeSummary current finished))).get? g.method :=
        get?_runRound_of_not_mem hnodup.1
      rw [hround, SortedMap.get?_insert, if_pos rfl] at hget
      exact hget
    have hsame : current.insert g.method (g.summarize (calleeSummary current finished))
        = current := by
      refine SortedMap.ext_get? fun m => ?_
      rw [SortedMap.get?_insert]
      split
      · next heq => rw [heq, hg]
      · rfl
    rw [hsame] at hround
    rcases List.mem_cons.1 hf with rfl | hf
    · exact hg
    · exact ih hnodup.2 hround hf

/-! ## Any number of rounds -/

/-- However many rounds are run, they show nothing that a closed set of features lacks. -/
theorem iterate_runRound_sound (hnodup : (members.map (·.method)).Nodup)
    {has : MethodId → Feature → Prop} (hclosed : ClosedAround members finished has) (n : Nat) :
    ∀ m φ, ShownBy ((runRound finished members)^[n] (initialSummaries members)).get? m φ →
      has m φ := by
  induction n with
  | zero =>
    rintro m φ ⟨s, hs, hshows⟩
    -- at the start a summary shows only what its method does by itself
    obtain ⟨f, hf, heq⟩ := List.mem_map.1 (SortedMap.mem_of_get?_ofList hs)
    obtain ⟨rfl, rfl⟩ := Prod.mk.inj heq
    exact hclosed f hf φ (.inl (MethodFacts.own_of_emptySummary_shows hshows))
  | succ n ih =>
    rw [Function.iterate_succ_apply']
    exact runRound_sound hnodup hclosed (iterate_runRound_isState hnodup n) ih

/-- If rounds end, they end in summaries that a further round leaves as they are. -/
theorem iterate_eq_some {left done : Nat} {out : ComponentSummaries}
    (h : iterate finished members left done current = some out) :
    runRound finished members out.summaries = out.summaries ∧
      ∃ n, out.summaries = (runRound finished members)^[n] current := by
  induction left generalizing done current with
  | zero => cases h
  | succ left ih =>
    rw [iterate] at h
    split at h
    · next heq =>
      obtain rfl := Option.some_inj.1 h
      exact ⟨by rw [heq, heq], 0, heq⟩
    · obtain ⟨hstable, n, hn⟩ := ih h
      exact ⟨hstable, n + 1, hn⟩

/-- If some number of rounds leads to summaries that a further round leaves as they are, rounds
end there at the latest. -/
theorem iterate_of_stable {n left : Nat} (hn : n < left) (done : Nat)
    (h : runRound finished members ((runRound finished members)^[n] current)
      = (runRound finished members)^[n] current) :
    ∃ out, iterate finished members left done current = some out ∧ out.rounds ≤ done + n + 1 := by
  induction left generalizing n done current with
  | zero => exact absurd hn (Nat.not_lt_zero n)
  | succ left ih =>
    rw [iterate]
    split
    · exact ⟨_, rfl, by show done + 1 ≤ done + n + 1; omega⟩
    · next hne =>
      cases n with
      | zero => exact absurd h hne
      | succ n =>
        obtain ⟨out, hout, hrounds⟩ := ih (Nat.lt_of_succ_lt_succ hn) (done + 1) h
        exact ⟨out, hout, by omega⟩

/-! ## Outcomes -/

theorem summarizeComponent_cyclic (maxRounds : Option Nat) :
    summarizeComponent true maxRounds finished members =
      match iterate finished (calleeFirst members)
          (maxRounds.getD (roundCap (calleeFirst members) finished)) 0
          (initialSummaries (calleeFirst members)) with
      | some summaries => .ok summaries
      | none => .error (.unstable (members.map (·.method))
          (maxRounds.getD (roundCap (calleeFirst members) finished))) :=
  rfl

theorem summarizeComponent_acyclic (maxRounds : Option Nat) :
    summarizeComponent false maxRounds finished members =
      .ok ⟨.ofList (members.map fun f => (f.method, f.summarize finished)), 1⟩ :=
  rfl

theorem IsState.of_perm {members' : List MethodFacts} (hperm : members'.Perm members)
    (h : IsState members' current) : IsState members current where
  isOf f hf := h.isOf f (hperm.mem_iff.2 hf)
  only m hm := h.only m fun hmem => hm ((hperm.map _).mem_iff.1 hmem)

theorem Around.of_perm {members' : List MethodFacts} (hperm : members'.Perm members)
    {has : MethodId → Feature → Prop} {m : MethodId} {φ : Feature}
    (h : Around members' finished has m φ) : Around members finished has m φ := by
  rw [Around, (hperm.map _).mem_iff] at h
  exact h

/-- What follows from features does not depend on the order of the members. -/
theorem ClosedAround.of_perm {members' : List MethodFacts} (hperm : members'.Perm members)
    {has : MethodId → Feature → Prop} (h : ClosedAround members finished has) :
    ClosedAround members' finished has := fun f hf φ hgains =>
  h f (hperm.mem_iff.1 hf) φ (hgains.mono fun _ _ _ => Around.of_perm hperm)

/-- What an outcome of a component is: it has a summary of each member, these satisfy the equations
of the members, and they show nothing that a closed set of features lacks. -/
structure SolvesComponent (finished : MethodId → Option Summary) (members : List MethodFacts)
    (summaries : SortedMap MethodId Summary) : Prop where
  isState : IsState members summaries
  eq_summarize : ∀ f ∈ members,
    summaries.get? f.method = some (f.summarize (calleeSummary summaries finished))
  sound : ∀ {has}, ClosedAround members finished has →
    ∀ m φ, ShownBy summaries.get? m φ → has m φ

/-- Recursive methods: rounds have ended. -/
theorem solvesComponent_of_iterate (hnodup : (members.map (·.method)).Nodup)
    {left : Nat} {out : ComponentSummaries}
    (h : iterate finished members left 0 (initialSummaries members) = some out) :
    SolvesComponent finished members out.summaries := by
  obtain ⟨hstable, n, hn⟩ := iterate_eq_some h
  refine ⟨?_, fun f hf => eq_summarize_of_runRound_eq hnodup hstable hf, fun hclosed => ?_⟩
  · rw [hn]
    exact iterate_runRound_isState hnodup n
  · rw [hn]
    exact iterate_runRound_sound hnodup hclosed n

/-- Methods that do not call each other: one summary each. -/
theorem solvesComponent_of_acyclic (hnodup : (members.map (·.method)).Nodup)
    (hacyclic : ∀ f ∈ members, ∀ callee ∈ f.callees, callee ∉ members.map (·.method)) :
    SolvesComponent finished members
      (.ofList (members.map fun f => (f.method, f.summarize finished))) where
  isState :=
    ⟨fun f hf => ⟨_, get?_ofList_members hnodup (·.summarize finished) hf,
        Summary.summarize_isOf f finished⟩,
      fun _ hm => get?_ofList_members_eq_none _ hm⟩
  eq_summarize f hf := by
    rw [get?_ofList_members hnodup (·.summarize finished) hf, Option.some_inj]
    -- no member is called, so the summaries of members are not looked at
    refine MethodFacts.summarize_congr fun callee hcallee => ?_
    rw [calleeSummary, get?_ofList_members_eq_none _ (hacyclic f hf callee hcallee),
      Option.none_or]
  sound {has} hclosed m φ := by
    rintro ⟨s, hs, hshows⟩
    obtain ⟨f, hf, heq⟩ := List.mem_map.1 (SortedMap.mem_of_get?_ofList hs)
    obtain ⟨rfl, rfl⟩ := Prod.mk.inj heq
    have hgains := MethodFacts.summarize_shows.1 hshows
    refine hclosed f hf φ (hgains.mono fun callee hcallee φ hφ => ?_)
    exact .inr ⟨hacyclic f hf callee hcallee, hφ⟩

/-- **Outcomes**: without a fault, the summaries of a component satisfy the equations of its members
and show nothing that does not follow from them. -/
theorem solvesComponent_of_ok {cyclic : Bool} (hnodup : (members.map (·.method)).Nodup)
    (hacyclic : cyclic = false → ∀ f ∈ members, ∀ callee ∈ f.callees,
      callee ∉ members.map (·.method)) {maxRounds : Option Nat} {out : ComponentSummaries}
    (h : summarizeComponent cyclic maxRounds finished members = .ok out) :
    SolvesComponent finished members out.summaries := by
  cases cyclic with
  | true =>
    rw [summarizeComponent_cyclic] at h
    split at h
    · next summaries hiterate =>
      obtain rfl := Except.ok.inj h
      -- the rounds go over the members callees first, which is only another order of them
      have hperm := calleeFirst_perm hnodup
      have hsolves := solvesComponent_of_iterate ((hperm.map _).nodup_iff.2 hnodup) hiterate
      exact ⟨hsolves.isState.of_perm hperm,
        fun f hf => hsolves.eq_summarize f (hperm.mem_iff.2 hf),
        fun hclosed => hsolves.sound (hclosed.of_perm hperm)⟩
    · cases h
  | false =>
    rw [summarizeComponent_acyclic] at h
    obtain rfl := Except.ok.inj h
    exact solvesComponent_of_acyclic hnodup (hacyclic rfl)

end Rounds

end Interlock
