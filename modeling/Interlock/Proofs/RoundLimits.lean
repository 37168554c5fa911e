import Interlock.Proofs.CallChains
import Interlock.Proofs.Convergence
import Interlock.Proofs.Schedule

/-!
# Limits on rounds

A limit on the rounds of recursive components concerns no component but those that need
more rounds. A component that fails leaves its methods without summaries, which its
callers then do without. So the outcome of a component is compared with its outcome
without a limit where no component below it fails.

- `iterate_limit`: rounds that come to an end, under another limit.
- `summarizeComponent_limit`: the same for the outcome of a component.
- `Builder.outcomeOf_limit`: the components below must not fail.
- `Session.fails_iff_needs_more_rounds`: all components of a session.
-/

namespace Interlock

section Rounds

variable {finished : MethodId → Option Summary} {members : List MethodFacts}

/-- The rounds run are more than those done before. -/
theorem lt_rounds_of_iterate {left done : Nat} {current : SortedMap MethodId Summary}
    {out : ComponentSummaries} (h : iterate finished members left done current = some out) :
    done < out.rounds := by
  induction left generalizing done current with
  | zero => cases h
  | succ left ih =>
    rw [iterate] at h
    split at h
    · rw [← Option.some_inj.1 h]
      exact Nat.lt_succ_self done
    · exact Nat.lt_of_succ_lt (ih h)

/-- Rounds that come to an end do so in the same way under any limit that allows as many. -/
theorem iterate_limit {left done : Nat} {current : SortedMap MethodId Summary}
    {out : ComponentSummaries} (h : iterate finished members left done current = some out)
    (limit : Nat) : iterate finished members limit done current
      = if out.rounds ≤ done + limit then some out else none := by
  induction left generalizing limit done current with
  | zero => cases h
  | succ left ih =>
    cases limit with
    | zero =>
      have hlt := lt_rounds_of_iterate h
      rw [if_neg (by omega), iterate]
    | succ limit =>
      rw [iterate] at h ⊢
      by_cases hstable : runRound finished members current = current
      · rw [if_pos hstable, Option.some_inj] at h
        rw [if_pos hstable, h, if_pos]
        rw [← h]
        show done + 1 ≤ done + (limit + 1)
        omega
      · rw [if_neg hstable] at h ⊢
        rw [ih h limit, Nat.add_right_comm done 1 limit, Nat.add_assoc done limit 1]

/-- A component that has summaries fails under a limit if it is cyclic and needs more rounds. Else
the limit changes nothing. -/
theorem summarizeComponent_limit {cyclic : Bool} {maxRounds : Option Nat}
    {out : ComponentSummaries}
    (h : summarizeComponent cyclic maxRounds finished members = .ok out) (limit : Nat) :
    summarizeComponent cyclic (some limit) finished members
      = if cyclic = true ∧ limit < out.rounds then .error (.unstable (members.map (·.method)) limit)
        else .ok out := by
  cases cyclic with
  | false =>
    rw [summarizeComponent_acyclic] at h ⊢
    rw [h, if_neg (fun hcyclic => Bool.false_ne_true hcyclic.1)]
  | true =>
    rw [summarizeComponent_cyclic] at h ⊢
    split at h
    · next out' hout =>
      obtain rfl := Except.ok.inj h
      rw [Option.getD_some, iterate_limit hout limit, Nat.zero_add]
      by_cases hle : out'.rounds ≤ limit
      · rw [if_pos hle, if_neg (fun hlt => Nat.not_lt.2 hle hlt.2)]
      · rw [if_neg hle, if_pos ⟨rfl, Nat.lt_of_not_le hle⟩]
    · cases h

end Rounds

/-! ## Components that build on others -/

/-- The members of a component are in ascending order. -/
theorem CallGraph.increasing_members {facts : FactTable} (hk : facts.Keyed) {c : Nat}
    (hc : c < (of facts).size) : ((of facts).members c).Pairwise (compare · · = .lt) := by
  obtain ⟨below, htop⟩ := Condensation.exists_isTop_members (wellFormed_callEdges hk) hc
  refine htop.sorted.filterMap _ fun v w hlt m hm m' hm' => ?_
  obtain ⟨hv, rfl⟩ := List.getElem?_eq_some_iff.1 hm
  obtain ⟨hw, rfl⟩ := List.getElem?_eq_some_iff.1 hm'
  have hkeys : facts.keys.Pairwise (compare · · = .lt) := List.pairwise_map.2 facts.increasing
  exact List.pairwise_iff_getElem.1 hkeys v w hv hw hlt

namespace Builder

/-- The builder under another limit on rounds. -/
def withLimit (b : Builder) (maxRounds : Option Nat) : Builder := { b with maxRounds }

variable {b : Builder} (hk : b.facts.Keyed) (hg : b.graph = .of b.facts)

include hk hg

theorem lt_of_leads {c d : Nat} (h : b.graph.condensation.Leads c d) : d < c := by
  rw [hg] at h
  exact Condensation.lt_of_mem_successors (CallGraph.wellFormed_callEdges hk)
    ((Condensation.leads_iff (CallGraph.wellFormed_callEdges hk)).1 h)

/-- Numbers fall along paths between components. -/
theorem lt_of_transGen_leads {c d : Nat}
    (h : Relation.TransGen b.graph.condensation.Leads c d) : d < c := by
  induction h with
  | single hleads => exact lt_of_leads hk hg hleads
  | tail _ hleads ih => exact (lt_of_leads hk hg hleads).trans ih

/-- Where no component below fails, a limit is felt only by a cyclic component that needs more
rounds. -/
theorem outcomeOf_limit {k : Nat}
    (hfree : ∀ c < b.graph.size, ∃ out, (b.withLimit none).outcomeOf c = .ok out)
    {c : Nat} (hc : c < b.graph.size)
    (h : ∀ d, Relation.TransGen b.graph.condensation.Leads c d →
      ∀ fault, (b.withLimit (some k)).outcomeOf d ≠ .error fault) :
    ∃ out, (b.withLimit none).outcomeOf c = .ok out ∧
      (b.withLimit (some k)).outcomeOf c
        = if b.graph.isCyclic c = true ∧ k < out.rounds then
            .error (.unstable (b.graph.members c) k)
          else .ok out := by
  -- on the number of the component, which is larger than those of the components below
  induction c using Nat.strongRecOn with
  | _ c ih =>
    have hbelow : ∀ d ∈ b.graph.condensation.successors c,
        (b.withLimit (some k)).outcomeOf d = (b.withLimit none).outcomeOf d := by
      intro d hd
      have hlt := lt_of_mem_successors hk hg hd
      have hleads : b.graph.condensation.Leads c d := by
        rw [hg] at hd ⊢
        exact (Condensation.leads_iff (CallGraph.wellFormed_callEdges hk)).2 hd
      obtain ⟨out, hout, hlimited⟩ := ih d hlt (hlt.trans hc) fun e he => h e (he.head hleads)
      rw [hout]
      split at hlimited
      · exact absurd hlimited (h d (.single hleads) _)
      · exact hlimited
    -- the questions are about successors, and there the limit makes no difference
    have hanswers : ∀ m ∈ ((b.withLimit (some k)).inquiry c).questions
          (b.withLimit (some k)).summaryOf,
        (b.withLimit (some k)).summaryOf m = (b.withLimit none).summaryOf m := by
      intro m hm
      show (b.graph.componentOf? m).bind _ = (b.graph.componentOf? m).bind _
      cases hd : b.graph.componentOf? m with
      | none => rfl
      | some d =>
        rw [Option.bind_some, Option.bind_some]
        rw [hbelow d (successor_of_mem_questions (b := b.withLimit (some k)) hk hg hm hd)]
    obtain ⟨out, hout⟩ := hfree c hc
    refine ⟨out, hout, ?_⟩
    rw [outcomeOf_eq (b := b.withLimit none) hk hg, inquiry, answer_inquireComponent] at hout
    rw [outcomeOf_eq (b := b.withLimit (some k)) hk hg, Inquiry.answer_congr _ hanswers, inquiry,
      answer_inquireComponent]
    rw [← map_method_memberFacts hk hg c]
    exact summarizeComponent_limit hout k

end Builder

/-! ## All components of a session -/

/-- The component is finished and has no summaries. -/
def Store.Fails (store : Store) (c : Nat) : Prop := ∃ fault, store.get? c = some (.error fault)

namespace Session

/-- The finished components under the given limit on rounds. -/
def storeWith (s : Session) (maxRounds : Option Nat) : Store :=
  (s.builder.withLimit maxRounds).buildAll {}

theorem get?_storeWith (program : Program) (config : Config) (maxRounds : Option Nat) {c : Nat}
    (hc : c < (Session.of program config).graph.size) :
    ((Session.of program config).storeWith maxRounds).get? c
      = some (((Session.of program config).builder.withLimit maxRounds).outcomeOf c) :=
  (Builder.buildAll_finishes (b := (Session.of program config).builder.withLimit maxRounds)
    (keyed_facts program config) rfl (Builder.sound_empty _)).2 c hc

/-- Without a limit, every component has summaries. -/
theorem exists_outcomeOf_withLimit_none (program : Program) (config : Config) {c : Nat}
    (hc : c < (Session.of program config).graph.size) :
    ∃ out, ((Session.of program config).builder.withLimit none).outcomeOf c = .ok out := by
  have hk : ((Session.of program config).builder.withLimit none).facts.Keyed :=
    keyed_facts program config
  obtain ⟨out, hout, -, -⟩ := Builder.compute_converges hk rfl
    (fun m f hf => placed_of_get?_facts hf) rfl hc ((Session.of program config).storeWith none)
  have hstore : ((Session.of program config).storeWith none).get? c = some (.ok out) := by
    rw [← hout]
    exact Builder.get?_buildAll hk rfl hc
  rw [get?_storeWith program config none hc, Option.some_inj] at hstore
  exact ⟨out, hstore⟩

/-- A component that is not cyclic has summaries under any limit. -/
theorem exists_ok_of_acyclic (program : Program) (config : Config) (maxRounds : Option Nat)
    {c : Nat} (hc : c < (Session.of program config).graph.size)
    (hcyclic : (Session.of program config).graph.isCyclic c = false) :
    ∃ out, ((Session.of program config).storeWith maxRounds).get? c = some (.ok out) := by
  have hstore : ((Session.of program config).storeWith maxRounds).get? c
      = some (((Session.of program config).builder.withLimit maxRounds).compute _ c) :=
    Builder.get?_buildAll (b := (Session.of program config).builder.withLimit maxRounds)
      (keyed_facts program config) rfl hc
  have hgraph : ((Session.of program config).builder.withLimit maxRounds).graph.isCyclic c
      = false := hcyclic
  rw [Builder.compute, hgraph, summarizeComponent_acyclic] at hstore
  exact ⟨_, hstore⟩

/-- The outcome of a component under a limit, if no component that is reached from it fails. -/
theorem get?_storeWith_limit (program : Program) (config : Config) {k c : Nat}
    (hc : c < (Session.of program config).graph.size)
    (hbelow : ∀ d, Relation.TransGen (Session.of program config).graph.condensation.Leads c d →
      ¬ ((Session.of program config).storeWith (some k)).Fails d) :
    ∃ free, ((Session.of program config).storeWith none).get? c = some (.ok free) ∧
      ((Session.of program config).storeWith (some k)).get? c
        = some (if (Session.of program config).graph.isCyclic c = true ∧ k < free.rounds then
            .error (.unstable ((Session.of program config).graph.members c) k)
          else .ok free) := by
  have hk : (Session.of program config).builder.facts.Keyed := keyed_facts program config
  have hok : ∀ d, Relation.TransGen (Session.of program config).graph.condensation.Leads c d →
      ∀ fault, ((Session.of program config).builder.withLimit (some k)).outcomeOf d
        ≠ .error fault := by
    intro d hd fault hfault
    have hlt : d < c :=
      Builder.lt_of_transGen_leads (b := (Session.of program config).builder) hk rfl hd
    refine hbelow d hd ⟨fault, ?_⟩
    rw [get?_storeWith program config (some k) (hlt.trans hc), hfault]
  obtain ⟨free, hfree, hlimited⟩ :=
    Builder.outcomeOf_limit (b := (Session.of program config).builder) hk rfl
      (fun _ hd => exists_outcomeOf_withLimit_none program config hd) hc hok
  refine ⟨free, ?_, ?_⟩
  · rw [get?_storeWith program config none hc, hfree]
  · rw [get?_storeWith program config (some k) hc, hlimited]
    rfl

/-- **Limits on rounds**: a limit fails only the components that need more. One that is not cyclic
never fails. Where no component fails that is reached from a component, it fails if it is cyclic and
takes more rounds without a limit; the fault names its members, in ascending order, and the limit.
Else it has the outcome that it has without a limit. -/
theorem fails_iff_needs_more_rounds (program : Program) (config : Config) (k c : Nat)
    (hc : c < (Session.of program config).graph.size) :
    ((Session.of program config).graph.isCyclic c = false →
      ∃ out, ((Session.of program config).storeWith (some k)).get? c = some (.ok out)) ∧
    ((∀ d, Relation.TransGen (Session.of program config).graph.condensation.Leads c d →
        ¬ ((Session.of program config).storeWith (some k)).Fails d) →
      ∃ free, ((Session.of program config).storeWith none).get? c = some (.ok free) ∧
        (((Session.of program config).storeWith (some k)).Fails c ↔
          (Session.of program config).graph.isCyclic c = true ∧ k < free.rounds) ∧
        ((Session.of program config).storeWith (some k)).get? c
          = some (if (Session.of program config).graph.isCyclic c = true ∧ k < free.rounds then
              .error (.unstable ((Session.of program config).graph.members c) k)
            else .ok free)) ∧
    ((Session.of program config).graph.members c).Pairwise (compare · · = .lt) ∧
    ∀ m, m ∈ (Session.of program config).graph.members c ↔
      (Session.of program config).graph.componentOf? m = some c := by
  have hk : (Session.of program config).builder.facts.Keyed := keyed_facts program config
  refine ⟨exists_ok_of_acyclic program config (some k) hc, fun hbelow => ?_,
    CallGraph.increasing_members hk hc, fun m => CallGraph.mem_members hk⟩
  obtain ⟨free, hfree, hstore⟩ := get?_storeWith_limit program config hc hbelow
  refine ⟨free, hfree, ?_, hstore⟩
  rw [Store.Fails, hstore]
  by_cases hmore : (Session.of program config).graph.isCyclic c = true ∧ k < free.rounds
  · rw [if_pos hmore]
    exact iff_of_true ⟨_, rfl⟩ hmore
  · rw [if_neg hmore]
    exact iff_of_false (fun hfails => nomatch hfails) hmore

end Session

/-- A method that calls itself, and one that calls itself and the first one, and writes. -/
def Program.ticker : Program where
  methods := [
    { id := ⟨0⟩
      name := "wait"
      declaringClass := "Clock"
      body := .ofBlocks [([⟨1, .call ⟨0⟩ []⟩], [])] },
    { id := ⟨1⟩
      name := "tick"
      declaringClass := "Clock"
      body := .ofBlocks
        [([⟨2, .write (.thisField "Clock" "ticks")⟩, ⟨3, .call ⟨0⟩ []⟩, ⟨4, .call ⟨1⟩ []⟩], [])] }]

/-- Two rounds are enough for the component below and not for the one above, which is cyclic too. -/
theorem Session.fails_iff_needs_more_rounds_ticker :
    (Session.of .ticker {}).graph.isCyclic 0 = true ∧
      ¬ ((Session.of .ticker {}).storeWith (some 2)).Fails 0 ∧
      ((Session.of .ticker {}).storeWith (some 2)).get? 1
        = some (.error (.unstable [⟨1⟩] 2)) := by
  -- outcomes are too long to write down, but what is asked of them can be computed
  have hok : (((Session.of .ticker {}).storeWith (some 2)).get? 0).any
      (fun outcome => outcome.toOption.isSome) = true := by decide +kernel
  have hbelow : ¬ ((Session.of .ticker {}).storeWith (some 2)).Fails 0 := by
    rintro ⟨fault, hfault⟩
    rw [hfault] at hok
    cases hok
  have hrounds : (((Session.of .ticker {}).storeWith none).get? 1).any
      (fun outcome => outcome.toOption.any fun out => 2 < out.rounds) = true := by decide +kernel
  have hmembers : (Session.of .ticker {}).graph.members 1 = [⟨1⟩] := by decide +kernel
  obtain ⟨-, hlimit, -⟩ := fails_iff_needs_more_rounds .ticker {} 2 1 (by decide +kernel)
  obtain ⟨free, hfree, -, hlimited⟩ := hlimit fun d hd => by
    have hlt := Builder.lt_of_transGen_leads (b := (Session.of .ticker {}).builder)
      (keyed_facts .ticker {}) rfl hd
    obtain rfl : d = 0 := by omega
    exact hbelow
  rw [hfree] at hrounds
  have hmore : 2 < free.rounds := by simpa [Except.toOption] using hrounds
  rw [if_pos ⟨by decide +kernel, hmore⟩, hmembers] at hlimited
  exact ⟨by decide +kernel, hbelow, hlimited⟩

end Interlock
