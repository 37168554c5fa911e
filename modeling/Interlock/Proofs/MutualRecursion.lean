import Interlock.Proofs.RoundLimits

/-!
# Two methods that call each other

Round a cycle of calls, an access comes back to a method at another location, but from the
second time on in the same context. So in a component of two members, chains of more than
two calls from one member to the other add nothing. A round is good for two such calls, as
the second member sees what the first one has just got. Calls of a method by itself only
move accesses.

- `Feature.unplaced`, `Somewhere`: accesses whatever their locations.
- `MethodFacts.Lifts.skip`, `MethodFacts.Lifts.unplaced_eq`: what calls make of them.
- `crossing`: the features that chains of calls between different members bring about.
- `crossing_three_of_four`: with two members, chains of two calls suffice.
- `shownBy_of_crossing`: a round is good for two calls.
- `Session.rounds_of_two_members`: a component of two members takes four rounds at most,
  and three if no member calls itself or no path is visible.
-/

namespace Interlock

/-! ## Accesses whatever their locations -/

namespace Feature

/-- A feature, without the location of its access. -/
def unplaced : Feature → (AccessPath × AccessKind × ThreadContext × Option LockId) ⊕ ThreadContext
  | access key lacking => .inl (key.path, key.kind, key.thread, lacking)
  | thread context => .inr context

/-- The context of an access is at least the given one. -/
def InContext (thread : ThreadContext) : Feature → Prop
  | .access key _ => thread ≤ key.thread
  | .thread _ => True

end Feature

namespace MethodFacts

variable {f : MethodFacts}

namespace Lifts

variable {call call' : TaggedCall} {φ ψ χ : Feature}

/-- What a call makes of an access does not depend on where the access is. -/
theorem of_unplaced (h : f.Lifts call ψ φ) (heq : χ.unplaced = ψ.unplaced) : f.Lifts call χ φ := by
  cases h with
  | @access key lacking hlacking =>
    cases χ with
    | access key' lacking' =>
      simp only [Feature.unplaced, Sum.inl.injEq, Prod.mk.injEq] at heq
      obtain ⟨hpath, hkind, hthread, rfl⟩ := heq
      rw [← hpath, ← hkind, ← hthread]
      exact .access hlacking
    | thread context => cases heq
  | thread =>
    cases χ with
    | access key' lacking' => cases heq
    | thread context =>
      obtain rfl := Sum.inr.inj heq
      exact .thread

theorem inContext_caller (h : f.Lifts call ψ φ) : φ.InContext f.thread := by
  cases h with
  | access => exact LawfulJoin.le_join_left _ _
  | thread => trivial

theorem inContext {thread : ThreadContext} (h : f.Lifts call ψ φ) (hψ : ψ.InContext thread) :
    φ.InContext thread := by
  cases h with
  | access => exact le_trans hψ (LawfulJoin.le_join_right _ _)
  | thread => trivial

/-- A call only moves an access whose context is at least that of the caller. -/
theorem unplaced_eq (h : f.Lifts call ψ φ) (hψ : ψ.InContext f.thread) :
    φ.unplaced = ψ.unplaced := by
  cases h with
  | @access key lacking hlacking =>
    have hjoin : join f.thread key.thread = key.thread := hψ
    rw [Feature.unplaced, Feature.unplaced, hjoin]
  | thread => rfl

/-- Of two calls by the same method, the later one alone does the same. -/
theorem skip (h : f.Lifts call ψ χ) (h' : f.Lifts call' χ φ) : f.Lifts call' ψ φ := by
  cases h with
  | @access key lacking hlacking =>
    cases h' with
    | access hlacking' =>
      have hjoin : join f.thread (join f.thread key.thread) = join f.thread key.thread :=
        LawfulJoin.le_join_left _ _
      rw [hjoin]
      exact .access hlacking'
  | thread => exact h'

end Lifts

/-- All accesses of a method are at least in its own context. -/
theorem Gains.inContext {has : MethodId → Feature → Prop} {φ : Feature} (h : f.Gains has φ) :
    φ.InContext f.thread := by
  rcases h with hown | ⟨call, -, ψ, -, hlifts⟩
  · cases φ with
    | access key lacking =>
      obtain ⟨c, hc, rfl, -⟩ := hown
      obtain ⟨a, -, rfl⟩ := List.mem_map.1 hc
      exact le_refl f.thread
    | thread context => trivial
  · exact hlifts.inContext_caller

end MethodFacts

/-- The features that are there if accesses may be at other locations. -/
def Somewhere (has : MethodId → Feature → Prop) (m : MethodId) (φ : Feature) : Prop :=
  ∃ φ', has m φ' ∧ φ'.unplaced = φ.unplaced

/-- A method gains nothing from accesses at other locations. -/
theorem MethodFacts.Gains.of_somewhere {f : MethodFacts} {members : List MethodFacts}
    {finished : MethodId → Option Summary} {has : MethodId → Feature → Prop} {φ : Feature}
    (h : f.Gains (Around members finished (Somewhere has)) φ) :
    f.Gains (Around members finished has) φ := by
  rcases h with hown | ⟨call, hcall, ψ, haround, hlifts⟩
  · exact .inl hown
  · rcases haround with ⟨hmem, ψ', hψ', heq⟩ | houtside
    · exact .inr ⟨call, hcall, ψ', .inl ⟨hmem, hψ'⟩, hlifts.of_unplaced heq⟩
    · exact .inr ⟨call, hcall, ψ, .inr houtside, hlifts⟩

/-! ## Calls between different members -/

section Crossing

variable {finished : MethodId → Option Summary} {members : List MethodFacts}

/-- The features that chains of less than `n` calls bring about, each from one member to another. -/
def crossing (members : List MethodFacts) (finished : MethodId → Option Summary) :
    Nat → MethodId → Feature → Prop
  | 0, _, _ => False
  | n + 1, m, φ => ∃ f ∈ members, f.method = m ∧ f.Gains
    (Around members finished fun callee ψ => callee ≠ m ∧ crossing members finished n callee ψ) φ

theorem crossing_succ {n : Nat} {m : MethodId} {φ : Feature}
    (h : crossing members finished n m φ) : crossing members finished (n + 1) m φ := by
  induction n generalizing m φ with
  | zero => cases h
  | succ n ih =>
    obtain ⟨f, hf, hm, hgains⟩ := h
    refine ⟨f, hf, hm, hgains.mono fun _ _ ψ => Around.mono fun g _ ψ hψ => ?_⟩
    exact ⟨hψ.1, ih hψ.2⟩

theorem crossing_le {n k : Nat} (hle : n ≤ k) {m : MethodId} {φ : Feature}
    (h : crossing members finished n m φ) : crossing members finished k m φ := by
  induction k, hle using Nat.le_induction with
  | base => exact h
  | succ k _ ih => exact crossing_succ ih

/-- One more call, from another member. -/
theorem crossing_of_call {n : Nat} {f : MethodFacts} (hf : f ∈ members) {call : TaggedCall}
    (hcall : call ∈ f.tagged.calls) (hmem : call.call.callee ∈ members.map (·.method))
    (hne : call.call.callee ≠ f.method) {φ ψ : Feature}
    (hψ : crossing members finished n call.call.callee ψ) (hlifts : f.Lifts call ψ φ) :
    crossing members finished (n + 1) f.method φ :=
  ⟨f, hf, rfl, .inr ⟨call, hcall, ψ, .inl ⟨hmem, hne, hψ⟩, hlifts⟩⟩

/-- A method has a feature without any call of another member, or by a call of one. -/
theorem crossing_cases {n : Nat} {m : MethodId} {φ : Feature}
    (h : crossing members finished (n + 1) m φ) :
    ∃ f ∈ members, f.method = m ∧ (crossing members finished 1 m φ ∨
      ∃ call ∈ f.tagged.calls, ∃ ψ, call.call.callee ∈ members.map (·.method) ∧
        call.call.callee ≠ m ∧ crossing members finished n call.call.callee ψ ∧
        f.Lifts call ψ φ) := by
  obtain ⟨f, hf, hm, hgains⟩ := h
  refine ⟨f, hf, hm, ?_⟩
  rcases hgains with hown | ⟨call, hcall, ψ, ⟨hmem, hne, hψ⟩ | houtside, hlifts⟩
  · exact .inl ⟨f, hf, hm, .inl hown⟩
  · exact .inr ⟨call, hcall, ψ, hmem, hne, hψ, hlifts⟩
  · exact .inl ⟨f, hf, hm, .inr ⟨call, hcall, ψ, .inr houtside, hlifts⟩⟩

/-- What a method gains, it gets by a call of another member at most, or by a call of itself. -/
theorem crossing_or_self {n : Nat} {f : MethodFacts} (hf : f ∈ members) {φ : Feature}
    (h : f.Gains (Around members finished (crossing members finished n)) φ) :
    crossing members finished (n + 1) f.method φ ∨ ∃ call ∈ f.tagged.calls, ∃ ψ,
      call.call.callee = f.method ∧ crossing members finished n f.method ψ ∧
        f.Lifts call ψ φ := by
  rcases h with hown | ⟨call, hcall, ψ, ⟨hmem, hψ⟩ | houtside, hlifts⟩
  · exact .inl ⟨f, hf, rfl, .inl hown⟩
  · by_cases hself : call.call.callee = f.method
    · exact .inr ⟨call, hcall, ψ, hself, hself ▸ hψ, hlifts⟩
    · exact .inl (crossing_of_call hf hcall hmem hself hψ hlifts)
  · exact .inl ⟨f, hf, rfl, .inr ⟨call, hcall, ψ, .inr houtside, hlifts⟩⟩

variable (hnodup : (members.map (·.method)).Nodup)

include hnodup

/-- What a member has is at least in its own context. -/
theorem crossing_inContext {n : Nat} {f : MethodFacts} (hf : f ∈ members) {φ : Feature}
    (h : crossing members finished n f.method φ) : φ.InContext f.thread := by
  cases n with
  | zero => cases h
  | succ n =>
    obtain ⟨g, hg, heq, hgains⟩ := h
    rw [← List.inj_on_of_nodup_map hnodup hg hf heq]
    exact hgains.inContext

variable (htwo : members.length = 2)

include htwo

omit hnodup in
/-- There are only two members. -/
theorem eq_of_ne_of_ne {m m' m'' : MethodId} (hm : m ∈ members.map (·.method))
    (hm' : m' ∈ members.map (·.method)) (hm'' : m'' ∈ members.map (·.method)) (hne : m' ≠ m)
    (hne' : m'' ≠ m') : m'' = m := by
  obtain ⟨f, g, rfl⟩ := List.length_eq_two.1 htwo
  simp only [List.map_cons, List.map_nil, List.mem_cons, List.not_mem_nil, or_false] at hm hm' hm''
  grind

/-- A chain of three calls goes twice from the same caller to the same callee, and what comes
before the last of these calls may be left out. -/
theorem crossing_three_of_four {m : MethodId} {φ : Feature}
    (h : crossing members finished 4 m φ) : crossing members finished 3 m φ := by
  obtain ⟨f, hf, rfl, hdirect | ⟨call, hcall, ψ, hmem, hne, hψ, hlifts⟩⟩ := crossing_cases h
  · exact crossing_le (by decide) hdirect
  have hmethod : ∀ {d}, d ∈ members → d.method ∈ members.map (·.method) := fun hd =>
    List.mem_map.2 ⟨_, hd, rfl⟩
  obtain ⟨g, hg, hcallee, hdirect | ⟨call', hcall', χ, hmem', hne', hχ, hlifts'⟩⟩ :=
    crossing_cases hψ
  · exact crossing_succ (crossing_of_call hf hcall hmem hne hdirect hlifts)
  have hback : call'.call.callee = f.method :=
    eq_of_ne_of_ne htwo (hmethod hf) hmem hmem' hne hne'
  rw [← hcallee] at hne'
  obtain ⟨f', hf', hcaller, hdirect | ⟨call'', -, ω, hmem'', hne'', hω, hlifts''⟩⟩ :=
    crossing_cases hχ
  · have hψ' := crossing_of_call hg hcall' hmem' hne' hdirect hlifts'
    rw [hcallee] at hψ'
    exact crossing_of_call hf hcall hmem hne hψ' hlifts
  · -- from `g` to `f` to `g` to `f`: the first and the last of these calls have the same caller
    obtain rfl := List.inj_on_of_nodup_map hnodup hf' hf (hcaller.trans hback)
    have hagain : call''.call.callee = g.method :=
      eq_of_ne_of_ne htwo (hmethod hg) hmem' hmem'' hne' hne''
    rw [hagain] at hω
    have hcontext := hlifts''.inContext (crossing_inContext hnodup hg hω)
    have hsame : χ.unplaced = ψ.unplaced := (hlifts'.unplaced_eq hcontext).symm
    rw [hcallee] at hω
    exact crossing_succ (crossing_of_call hf hcall hmem hne hω
      (hlifts''.skip (hlifts.of_unplaced hsame)))

/-- What follows from chains of two calls, such chains bring about at some location. -/
theorem somewhere_crossing {f : MethodFacts} (hf : f ∈ members) {φ : Feature}
    (h : f.Gains (Around members finished (crossing members finished 3)) φ) :
    Somewhere (crossing members finished 3) f.method φ := by
  rcases crossing_or_self hf h with hcrossing | ⟨call, -, ψ, -, hψ, hlifts⟩
  · exact ⟨φ, crossing_three_of_four hnodup htwo hcrossing, rfl⟩
  · -- a call of the method by itself only moves the access
    exact ⟨ψ, hψ, (hlifts.unplaced_eq (crossing_inContext hnodup hf hψ)).symm⟩

/-- Where no member calls itself, chains of two calls bring about all there is. -/
theorem closedAround_crossing (hself : ∀ f ∈ members, f.method ∉ f.callees) :
    ClosedAround members finished (crossing members finished 3) := by
  intro f hf φ hgains
  rcases crossing_or_self hf hgains with hcrossing | ⟨call, hcall, -, hcallee, -⟩
  · exact crossing_three_of_four hnodup htwo hcrossing
  · exact absurd (List.mem_map.2 ⟨call, hcall, hcallee⟩) (hself f hf)

/-- The features that follow from chains of two calls. -/
def afterCrossing (members : List MethodFacts) (finished : MethodId → Option Summary)
    (m : MethodId) (φ : Feature) : Prop :=
  ∃ f ∈ members, f.method = m ∧
    f.Gains (Around members finished (crossing members finished 3)) φ

theorem closedAround_afterCrossing :
    ClosedAround members finished (afterCrossing members finished) := by
  intro f hf φ hgains
  refine ⟨f, hf, rfl, MethodFacts.Gains.of_somewhere (hgains.mono fun _ _ ψ => ?_)⟩
  refine Around.mono ?_
  rintro _ - ψ ⟨g, hg, hm, hψ⟩
  rw [← hm]
  exact somewhere_crossing hnodup htwo hg hψ

end Crossing

/-! ## Rounds -/

section Rounds

variable {finished : MethodId → Option Summary}

/-- A member sees what the members before it show after the round. -/
theorem shownBy_runRound_of_gains (before : List MethodFacts) {f : MethodFacts}
    {after : List MethodFacts} (hnodup : ((before ++ f :: after).map (·.method)).Nodup)
    {current : SortedMap MethodId Summary} (h : IsState (before ++ f :: after) current)
    {φ : Feature} (hgains : f.Gains (Around (before ++ f :: after) finished
      (ShownBy (runRound finished before current).get?)) φ) :
    ShownBy (runRound finished (before ++ f :: after) current).get? f.method φ := by
  have hstate : IsState (before ++ f :: after) (runRound finished before current) :=
    runRound_induction (fun g hg _ hcurrent => hcurrent.insert hnodup
      (List.mem_append_left _ hg) (Summary.summarize_isOf g _)) h
  -- the members after it do not change its summary any more
  have hafter : f.method ∉ after.map (·.method) := by
    rw [List.map_append, List.map_cons] at hnodup
    exact (List.nodup_cons.1 (List.nodup_append.1 hnodup).2.1).1
  have hround : (runRound finished (before ++ f :: after) current).get? f.method
      = some (f.summarize (calleeSummary (runRound finished before current) finished)) := by
    rw [runRound, List.foldl_append, List.foldl_cons]
    refine (get?_runRound_of_not_mem hafter).trans ?_
    rw [SortedMap.get?_insert, if_pos rfl]
    rfl
  exact ⟨_, hround, (shows_update hstate).2 hgains⟩

variable {first second : MethodFacts}
  (hnodup : ([first, second].map (·.method)).Nodup)

include hnodup

/-- The first member gets in a round what one call brings from the second. -/
theorem shownBy_first_of_crossing {n k : Nat}
    (hsecond : ∀ φ, crossing [first, second] finished k second.method φ →
      ShownBy ((runRound finished [first, second])^[n]
        (initialSummaries [first, second])).get? second.method φ)
    {φ : Feature} (h : crossing [first, second] finished (k + 1) first.method φ) :
    ShownBy ((runRound finished [first, second])^[n + 1]
      (initialSummaries [first, second])).get? first.method φ := by
  obtain ⟨f, hf, heq, hgains⟩ := h
  obtain rfl := List.inj_on_of_nodup_map hnodup hf List.mem_cons_self heq
  rw [Function.iterate_succ_apply']
  refine shownBy_runRound_of_gains [] hnodup (iterate_runRound_isState hnodup n)
    (hgains.mono fun _ _ ψ => Around.mono ?_)
  rintro g hg ψ ⟨hne, hψ⟩
  rcases List.mem_cons.1 hg with rfl | hg
  · exact absurd rfl hne
  · obtain rfl := List.mem_singleton.1 hg
    exact hsecond ψ hψ

/-- The second member gets in a round what one call brings from the first after the round. -/
theorem shownBy_second_of_crossing {n k : Nat}
    (hfirst : ∀ φ, crossing [first, second] finished k first.method φ →
      ShownBy ((runRound finished [first, second])^[n + 1]
        (initialSummaries [first, second])).get? first.method φ)
    {φ : Feature} (h : crossing [first, second] finished (k + 1) second.method φ) :
    ShownBy ((runRound finished [first, second])^[n + 1]
      (initialSummaries [first, second])).get? second.method φ := by
  obtain ⟨g, hg, heq, hgains⟩ := h
  obtain rfl := List.inj_on_of_nodup_map hnodup hg (List.mem_cons_of_mem _ List.mem_cons_self) heq
  rw [Function.iterate_succ_apply'] at hfirst ⊢
  refine shownBy_runRound_of_gains [first] hnodup (iterate_runRound_isState hnodup n)
    (hgains.mono fun _ _ ψ => Around.mono ?_)
  rintro f hf ψ ⟨hne, hψ⟩
  rcases List.mem_cons.1 hf with rfl | hf
  · -- the update of the second member leaves the first one alone
    have hother : f.method ∉ [g].map (·.method) := by simpa using hne
    obtain ⟨s, hs, hshows⟩ := hfirst ψ hψ
    exact ⟨s, (get?_runRound_of_not_mem hother).symm.trans hs, hshows⟩
  · exact absurd (congrArg MethodFacts.method (List.mem_singleton.1 hf)) hne

/-- A round is good for two calls between the members. -/
theorem shownBy_of_crossing (n : Nat) {φ : Feature} :
    (crossing [first, second] finished (2 * n + 1) first.method φ →
      ShownBy ((runRound finished [first, second])^[n + 1]
        (initialSummaries [first, second])).get? first.method φ) ∧
    (crossing [first, second] finished (2 * n + 2) second.method φ →
      ShownBy ((runRound finished [first, second])^[n + 1]
        (initialSummaries [first, second])).get? second.method φ) := by
  induction n generalizing φ with
  | zero =>
    have hfirst : ∀ φ, crossing [first, second] finished 1 first.method φ → _ := fun φ =>
      shownBy_first_of_crossing (n := 0) hnodup fun _ hψ => absurd hψ id
    exact ⟨hfirst φ, shownBy_second_of_crossing hnodup hfirst⟩
  | succ n ih =>
    have hfirst : ∀ φ, crossing [first, second] finished (2 * n + 3) first.method φ → _ :=
      fun φ => shownBy_first_of_crossing hnodup fun ψ => (@ih ψ).2
    exact ⟨hfirst φ, shownBy_second_of_crossing hnodup hfirst⟩

/-- From the second round on, members show what chains of two calls bring about. -/
theorem shownBy_of_crossing_three {k : Nat} (hk : 2 ≤ k) {f : MethodFacts}
    (hf : f ∈ [first, second]) {φ : Feature}
    (h : crossing [first, second] finished 3 f.method φ) :
    ShownBy ((runRound finished [first, second])^[k]
      (initialSummaries [first, second])).get? f.method φ := by
  obtain ⟨n, rfl⟩ := Nat.exists_eq_add_of_le' hk
  rcases List.mem_cons.1 hf with rfl | hf
  · exact (shownBy_of_crossing hnodup (n + 1)).1 (crossing_le (by omega) h)
  · obtain rfl := List.mem_singleton.1 hf
    exact (shownBy_of_crossing hnodup (n + 1)).2 (crossing_le (by omega) h)

variable (hplaced : ∀ f ∈ [first, second], f.Placed)

include hplaced

/-- The fourth round changes nothing. -/
theorem runRound_stable_three :
    runRound finished [first, second]
        ((runRound finished [first, second])^[3] (initialSummaries [first, second]))
      = (runRound finished [first, second])^[3] (initialSummaries [first, second]) := by
  refine runRound_stable_of_shown hnodup hplaced (afterCrossing [first, second] finished)
    (iterate_runRound_sound hnodup (closedAround_afterCrossing hnodup rfl)) fun k hk => ?_
  obtain ⟨n, rfl⟩ := Nat.exists_eq_add_of_le' hk
  rw [Function.iterate_succ_apply']
  -- after two rounds all chains of two calls show, and one more round adds what follows from them
  refine runRound_progress hnodup ?_ ?_ (iterate_runRound_isState hnodup (n + 2))
    fun f hf φ => shownBy_of_crossing_three hnodup (Nat.le_add_left 2 n) hf
  · rintro f hf φ ⟨g, hg, heq, hgains⟩
    obtain rfl := List.inj_on_of_nodup_map hnodup hg hf heq
    exact hgains
  · rintro f hf φ ⟨g, hg, heq, hgains⟩
    refine ⟨g, hg, heq, hgains.mono fun _ _ ψ => Around.mono fun _ _ ψ hψ => ?_⟩
    exact crossing_succ hψ.2

/-- The third round changes nothing, if chains of two calls bring about all there is. -/
theorem runRound_stable_two
    (hall : ∀ k m φ, ShownBy ((runRound finished [first, second])^[k]
      (initialSummaries [first, second])).get? m φ → crossing [first, second] finished 3 m φ) :
    runRound finished [first, second]
        ((runRound finished [first, second])^[2] (initialSummaries [first, second]))
      = (runRound finished [first, second])^[2] (initialSummaries [first, second]) :=
  runRound_stable_of_shown hnodup hplaced _ hall fun _ hk _ hf _ =>
    shownBy_of_crossing_three hnodup hk hf

omit hnodup hplaced in
/-- Rounds that come to an end do so at the latest when one changes nothing. -/
theorem rounds_le_of_stable {members : List MethodFacts} {left done n : Nat}
    {current : SortedMap MethodId Summary} {out : ComponentSummaries}
    (h : iterate finished members left done current = some out)
    (hstable : runRound finished members ((runRound finished members)^[n] current)
      = (runRound finished members)^[n] current) : out.rounds ≤ done + n + 1 := by
  obtain ⟨out', hout', hrounds⟩ := iterate_of_stable (Nat.lt_succ_self n) done hstable
  rw [iterate_limit h] at hout'
  split at hout'
  · next hle => exact hle
  · cases hout'

variable {left : Nat} {out : ComponentSummaries}
  (hout : iterate finished [first, second] left 0 (initialSummaries [first, second]) = some out)

include hout

theorem rounds_le_four : out.rounds ≤ 4 :=
  rounds_le_of_stable hout (runRound_stable_three hnodup hplaced)

theorem rounds_le_three_of_no_self_call (hself : ∀ f ∈ [first, second], f.method ∉ f.callees) :
    out.rounds ≤ 3 :=
  rounds_le_of_stable hout (runRound_stable_two hnodup hplaced
    (iterate_runRound_sound hnodup (closedAround_crossing hnodup rfl hself)))

/-- Without accesses, only contexts change, and these have no locations. -/
theorem rounds_le_three_of_no_access {has : MethodId → Feature → Prop}
    (hclosed : ClosedAround [first, second] finished has)
    (hnone : ∀ m key lacking, ¬ has m (.access key lacking)) : out.rounds ≤ 3 := by
  refine rounds_le_of_stable hout (runRound_stable_two hnodup hplaced fun k m φ hφ => ?_)
  obtain ⟨f, hf, rfl, hgains⟩ :=
    iterate_runRound_sound hnodup (closedAround_afterCrossing hnodup rfl) k m φ hφ
  -- the feature shows up at some location; a context has none, so it is the same one
  obtain ⟨φ', hφ', heq⟩ := somewhere_crossing hnodup rfl hf hgains
  cases φ with
  | access key lacking =>
    exact absurd (iterate_runRound_sound hnodup hclosed k _ _ hφ) (hnone _ key lacking)
  | thread context =>
    cases φ' with
    | access key lacking => cases heq
    | thread context' => exact Sum.inr.inj heq ▸ hφ'

end Rounds

/-! ## Components of two members -/

namespace Builder

variable {b : Builder} (hk : b.facts.Keyed) (hg : b.graph = .of b.facts)
  (hplaced : ∀ m f, b.facts.get? m = some f → f.Placed)

include hk hg hplaced

/-- The rounds of two members end as those of the members in either order do. -/
theorem rounds_of_compute {c : Nat} (htwo : (b.graph.members c).length = 2) {store : Store}
    {out : ComponentSummaries} (h : b.compute store c = .ok out) :
    out.rounds ≤ 4 ∧
    ((∀ f ∈ b.memberFacts c, f.method ∉ f.callees) → out.rounds ≤ 3) ∧
    ((visiblePaths (b.memberFacts c) (b.finished? store)).size = 0 → out.rounds ≤ 3) := by
  have hnodup := nodup_memberFacts hk hg c
  have hperm := calleeFirst_perm hnodup
  have hlength : (b.memberFacts c).length = 2 := by
    rw [← htwo, ← map_method_memberFacts hk hg c, List.length_map]
  have hcyclic : b.graph.isCyclic c = true := by
    rw [hg] at htwo ⊢
    exact (CallGraph.isCyclic_iff hk).2 (.inl (by omega))
  rw [compute, hcyclic, summarizeComponent_cyclic] at h
  split at h
  · next summaries hout =>
    obtain rfl := Except.ok.inj h
    obtain ⟨first, second, horder⟩ := List.length_eq_two.1 (hperm.length_eq.trans hlength)
    rw [horder] at hout hperm
    have hnodup' := (hperm.map _).nodup_iff.2 hnodup
    have hplaced' : ∀ f ∈ [first, second], f.Placed := fun f hf =>
      hplaced _ f ((mem_memberFacts hk hg).1 (hperm.mem_iff.1 hf)).1
    refine ⟨rounds_le_four hnodup' hplaced' hout, fun hself => ?_, fun hnone => ?_⟩
    · exact rounds_le_three_of_no_self_call hnodup' hplaced' hout fun f hf =>
        hself f (hperm.mem_iff.1 hf)
    · refine rounds_le_three_of_no_access hnodup' hplaced' hout
        (closedAround_level.of_perm hperm) ?_
      rintro m key lacking ⟨n, hlevel⟩
      have hvisible := level_access_visible hlevel
      rw [SortedSet.mem_def, List.length_eq_zero_iff.1 hnone] at hvisible
      cases hvisible
  · cases h

end Builder

/-- Two methods that call each other: the first one writes, and the second one calls itself. -/
def Program.rally : Program where
  methods := [
    { id := ⟨0⟩
      name := "ping"
      declaringClass := "Game"
      body := .ofBlocks [([⟨1, .write (.thisField "Game" "score")⟩, ⟨2, .call ⟨1⟩ []⟩], [])] },
    { id := ⟨1⟩
      name := "pong"
      declaringClass := "Game"
      body := .ofBlocks [([⟨3, .call ⟨1⟩ []⟩, ⟨4, .call ⟨0⟩ []⟩], [])] }]

namespace Session

/-- The paths that members of a component access, themselves or by calls out of it. -/
def pathsOf (s : Session) (c : Nat) : SortedSet AccessPath :=
  visiblePaths (s.builder.memberFacts c) (s.builder.finished? s.store)

/-- Some member of a component calls itself. -/
def CallsItself (s : Session) (c : Nat) : Prop :=
  ∃ f ∈ s.builder.memberFacts c, f.method ∈ f.callees

instance (s : Session) (c : Nat) : Decidable (s.CallsItself c) :=
  inferInstanceAs (Decidable (∃ f ∈ s.builder.memberFacts c, f.method ∈ f.callees))

/-- **Rounds of two members**: if no cap on rounds is set, a component of two members gets its
summaries. It takes four rounds at most, and three if it accesses no path or no member calls itself.
So one round more than there are paths is enough if there are three paths, or two and no member
calls itself. -/
theorem rounds_of_two_members (program : Program) (config : Config)
    (hmax : config.maxFixpointRounds = none) (c : Nat)
    (htwo : ((Session.of program config).graph.members c).length = 2) :
    ∃ out, (Session.of program config).store.get? c = some (.ok out) ∧
      out.rounds ≤ min 4 (((Session.of program config).pathsOf c).size + 3) ∧
      (¬ (Session.of program config).CallsItself c → out.rounds ≤ 3) ∧
      (3 ≤ ((Session.of program config).pathsOf c).size ∨
          2 ≤ ((Session.of program config).pathsOf c).size ∧
            ¬ (Session.of program config).CallsItself c →
        out.rounds ≤ ((Session.of program config).pathsOf c).size + 1) := by
  have hk : (Session.of program config).builder.facts.Keyed := keyed_facts program config
  have hplaced : ∀ m f, (Session.of program config).builder.facts.get? m = some f → f.Placed :=
    fun m f hf => placed_of_get?_facts hf
  have hnone : (Session.of program config).builder.maxRounds = none := by
    show config.maxFixpointRounds.map UInt64.toNat = none
    rw [hmax, Option.map_none]
  have hc : c < (Session.of program config).graph.size := by
    obtain ⟨m, hm⟩ := List.exists_mem_of_length_pos (Nat.lt_of_lt_of_eq Nat.two_pos htwo.symm)
    exact CallGraph.componentOf?_lt hk ((CallGraph.mem_members hk).1 hm)
  obtain ⟨out, hout, -, -⟩ :=
    Builder.compute_converges hk rfl hplaced hnone hc (Session.of program config).store
  obtain ⟨hfour, hself, hpaths⟩ := Builder.rounds_of_compute hk rfl hplaced htwo hout
  have hpaths : ((Session.of program config).pathsOf c).size = 0 → out.rounds ≤ 3 := hpaths
  have hself : ¬ (Session.of program config).CallsItself c → out.rounds ≤ 3 := fun hnot =>
    hself fun f hf hcall => hnot ⟨f, hf, hcall⟩
  refine ⟨out, ?_, by omega, hself, ?_⟩
  · rw [← hout]
    exact Builder.get?_buildAll hk rfl hc
  · rintro (hthree | ⟨htwoPaths, hnot⟩)
    · omega
    · have hle := hself hnot
      omega

/-- All four rounds may be needed: the write gets to the second method in the second round, to where
this method calls itself in the third, and the fourth changes nothing. -/
theorem rounds_of_two_members_rally :
    ((Session.of .rally {}).graph.members 0).length = 2 ∧
      ((Session.of .rally {}).pathsOf 0).size = 1 ∧ (Session.of .rally {}).CallsItself 0 ∧
      ∃ out, (Session.of .rally {}).store.get? 0 = some (.ok out) ∧ out.rounds = 4 := by
  have htwo : ((Session.of .rally {}).graph.members 0).length = 2 := by decide +kernel
  have hpaths : ((Session.of .rally {}).pathsOf 0).size = 1 := by decide +kernel
  have hself : (Session.of .rally {}).CallsItself 0 := by decide +kernel
  have hrounds : (((Session.of .rally {}).store.get? 0).bind
      fun outcome => outcome.toOption.map (·.rounds)) = some 4 := by decide +kernel
  obtain ⟨out, hout, hfour, -, -⟩ := rounds_of_two_members .rally {} rfl 0 htwo
  rw [hout] at hrounds
  rw [hpaths] at hfour
  have hmore : 4 ≤ out.rounds := Nat.le_of_eq (Option.some_inj.1 hrounds).symm
  exact ⟨htwo, hpaths, hself, out, hout, Nat.le_antisymm hfour hmore⟩

/-- **More rounds than paths**: two methods that access one path may take three rounds, also if none
calls itself. The write comes back to where the second method calls the first in the second round.
-/
theorem more_rounds_than_paths_pingPong :
    ((Session.of .pingPong {}).graph.members 0).length = 2 ∧
      (Session.of .pingPong {}).graph.isCyclic 0 = true ∧
      ¬ (Session.of .pingPong {}).CallsItself 0 ∧
      ∃ rounds, ((Session.of .pingPong {}).graph.members 0, rounds) ∈
          (Session.of .pingPong {}).builder.rounds (Session.of .pingPong {}).store ∧
        ((Session.of .pingPong {}).pathsOf 0).size + 1 < rounds :=
  ⟨by decide +kernel, by decide +kernel, by decide +kernel, 3, by decide +kernel,
    by decide +kernel⟩

end Session

end Interlock
