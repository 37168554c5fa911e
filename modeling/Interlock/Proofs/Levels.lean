import Interlock.Proofs.Rounds
import Mathlib.Data.Finset.Card
import Mathlib.Data.Finset.Prod
import Mathlib.Order.Monotone.Basic

/-!
# How many rounds a component needs

A feature shows up in a summary by a chain of calls inside the component. What such a
chain makes of an access to a given path of a given kind, with or without a given lock,
depends only on the member reached and on the thread context gathered so far: the
location is always that of the first call. So chains that are longer than there are
pairs of members and contexts add nothing.

- `level`: the features that chains of a given length bring about.
- `shownBy_iterate`: that many rounds show them all, whatever the order of updates.
- `eventually_stable`: a rising chain of sets in which a pause is final.
- `level_stable`, `level_thread_stable`: the levels after which nothing is new.
- `runRound_stable_of_shown`, `runRound_stable_of_level`: when a round changes nothing.
-/

namespace Interlock

section Levels

variable {finished : MethodId → Option Summary} {members : List MethodFacts}

/-- The features that chains of at most `n` calls inside the component bring about. -/
def level (members : List MethodFacts) (finished : MethodId → Option Summary) :
    Nat → MethodId → Feature → Prop
  | 0, m, φ => ∃ f ∈ members, f.method = m ∧ f.emptySummary.Shows φ
  | n + 1, m, φ => ∃ f ∈ members, f.method = m ∧
    f.Gains (Around members finished (level members finished n)) φ

theorem level_succ {n : Nat} {m : MethodId} {φ : Feature} (h : level members finished n m φ) :
    level members finished (n + 1) m φ := by
  induction n generalizing m φ with
  | zero =>
    obtain ⟨f, hf, hm, hshows⟩ := h
    exact ⟨f, hf, hm, .inl (MethodFacts.own_of_emptySummary_shows hshows)⟩
  | succ n ih =>
    obtain ⟨f, hf, hm, hgains⟩ := h
    refine ⟨f, hf, hm, hgains.mono fun _ _ φ => ?_⟩
    exact Around.mono fun _ _ _ => ih

theorem level_le {n k : Nat} (hle : n ≤ k) {m : MethodId} {φ : Feature}
    (h : level members finished n m φ) : level members finished k m φ := by
  induction k, hle using Nat.le_induction with
  | base => exact h
  | succ k _ ih => exact level_succ ih

/-- Nothing follows from all levels together that is not in some level. -/
theorem closedAround_level :
    ClosedAround members finished fun m φ => ∃ n, level members finished n m φ := by
  intro f hf φ hgains
  rcases hgains with hown | ⟨call, hcall, φ', haround, hlifts⟩
  · exact ⟨1, f, hf, rfl, .inl hown⟩
  · rcases haround with ⟨hmem, n, hn⟩ | houtside
    · exact ⟨n + 1, f, hf, rfl, .inr ⟨call, hcall, φ', .inl ⟨hmem, hn⟩, hlifts⟩⟩
    · exact ⟨1, f, hf, rfl, .inr ⟨call, hcall, φ', .inr houtside, hlifts⟩⟩

/-- After `n` rounds, all of level `n` is shown. -/
theorem shownBy_iterate (hnodup : (members.map (·.method)).Nodup) (n : Nat) :
    ∀ f ∈ members, ∀ φ, level members finished n f.method φ →
      ShownBy ((runRound finished members)^[n] (initialSummaries members)).get? f.method φ := by
  have hself : ∀ {f g : MethodFacts}, f ∈ members → g ∈ members → g.method = f.method → g = f :=
    fun hf hg heq => List.inj_on_of_nodup_map hnodup hg hf heq
  induction n with
  | zero =>
    rintro f hf φ ⟨g, hg, heq, hshows⟩
    obtain rfl := hself hf hg heq
    exact ⟨_, get?_ofList_members hnodup MethodFacts.emptySummary hg, hshows⟩
  | succ n ih =>
    rw [Function.iterate_succ_apply']
    refine runRound_progress hnodup ?_ (fun f _ φ => level_succ)
      (iterate_runRound_isState hnodup n) ih
    rintro f hf φ ⟨g, hg, heq, hgains⟩
    obtain rfl := hself hf hg heq
    exact hgains

/-- If rounds show nothing but certain features, and from the `n`-th on all of these, a round
after the `n`-th changes nothing. -/
theorem runRound_stable_of_shown (hnodup : (members.map (·.method)).Nodup)
    (hplaced : ∀ f ∈ members, f.Placed) (has : MethodId → Feature → Prop) {n : Nat}
    (hsound : ∀ k m φ,
      ShownBy ((runRound finished members)^[k] (initialSummaries members)).get? m φ → has m φ)
    (hshown : ∀ k, n ≤ k → ∀ f ∈ members, ∀ φ, has f.method φ →
      ShownBy ((runRound finished members)^[k] (initialSummaries members)).get? f.method φ) :
    runRound finished members ((runRound finished members)^[n] (initialSummaries members))
      = (runRound finished members)^[n] (initialSummaries members) := by
  have hstate : IsState members ((runRound finished members)^[n] (initialSummaries members)) :=
    iterate_runRound_isState hnodup n
  have hnext : IsState members
      (runRound finished members ((runRound finished members)^[n] (initialSummaries members))) :=
    runRound_isState hnodup hstate
  refine SortedMap.ext_get? fun m => ?_
  by_cases hm : m ∈ members.map (·.method)
  · obtain ⟨f, hf, rfl⟩ := List.mem_map.1 hm
    obtain ⟨s, hs, hsof⟩ := hstate.isOf f hf
    obtain ⟨s', hs', hsof'⟩ := hnext.isOf f hf
    -- a summary is told by its features, so it is enough that both rounds show the same
    have hsame : ∀ φ, s'.Shows φ ↔ s.Shows φ := by
      intro φ
      have hbefore : _ ↔ has f.method φ :=
        ⟨hsound n f.method φ, hshown n (le_refl n) f hf φ⟩
      have hafter : _ ↔ has f.method φ :=
        ⟨hsound (n + 1) f.method φ, hshown (n + 1) (Nat.le_succ n) f hf φ⟩
      rw [Function.iterate_succ_apply'] at hafter
      rw [ShownBy, hs] at hbefore
      rw [ShownBy, hs'] at hafter
      simp only [Option.some_inj, exists_eq_left'] at hbefore hafter
      rw [hbefore, hafter]
    rw [hs, hs', Summary.IsOf.ext_shows (hplaced f hf) hsof' hsof hsame]
  · rw [hstate.only m hm, hnext.only m hm]

/-- Once a level holds all levels, a round changes nothing. -/
theorem runRound_stable_of_level (hnodup : (members.map (·.method)).Nodup)
    (hplaced : ∀ f ∈ members, f.Placed) {n : Nat}
    (hlast : ∀ k m φ, level members finished k m φ → level members finished n m φ) :
    runRound finished members ((runRound finished members)^[n] (initialSummaries members))
      = (runRound finished members)^[n] (initialSummaries members) := by
  -- from level `n` on, exactly that level is shown
  refine runRound_stable_of_shown hnodup hplaced (level members finished n) (fun k m φ h => ?_)
    fun k hk f hf φ h => ?_
  · obtain ⟨j, hj⟩ := iterate_runRound_sound hnodup closedAround_level k m φ h
    exact hlast j m φ hj
  · exact shownBy_iterate hnodup k f hf φ (level_le hk h)

/-! ## Levels stop rising -/

/-- A rising chain of subsets of a finite set in which a pause is final has all of its elements
after as many steps as the set has elements. -/
theorem eventually_stable {α : Type} (bound : Finset α) (chain : Nat → α → Prop)
    (hbound : ∀ n x, chain n x → x ∈ bound) (hrise : ∀ n x, chain n x → chain (n + 1) x)
    (hpause : ∀ n, (∀ x, chain (n + 1) x → chain n x) → ∀ x, chain (n + 2) x → chain (n + 1) x)
    (n : Nat) {x : α} (hx : chain n x) : chain bound.card x := by
  classical
  let size := fun n => (bound.filter (chain n)).card
  have hsub : ∀ n, bound.filter (chain n) ⊆ bound.filter (chain (n + 1)) := fun n =>
    Finset.monotone_filter_right _ fun x _ => hrise n x
  have hmono : Monotone size := monotone_nat_of_le_succ fun n => Finset.card_le_card (hsub n)
  -- equal sizes mean that the chain pauses
  have hback : ∀ n, size n = size (n + 1) → ∀ x, chain (n + 1) x → chain n x := by
    intro n hsize x hx
    have heq := Finset.eq_of_subset_of_card_le (hsub n) (Nat.le_of_eq hsize.symm)
    have hmem : x ∈ bound.filter (chain (n + 1)) :=
      Finset.mem_filter.2 ⟨hbound _ x hx, hx⟩
    rw [← heq] at hmem
    exact (Finset.mem_filter.1 hmem).2
  have hstab : ∀ n, size n = size (n + 1) → size (n + 1) = size (n + 2) := by
    intro n hsize
    refine Nat.le_antisymm (hmono (Nat.le_succ _)) (Finset.card_le_card fun x hx => ?_)
    obtain ⟨hxb, hx⟩ := Finset.mem_filter.1 hx
    exact Finset.mem_filter.2 ⟨hxb, hpause n (hback n hsize) x hx⟩
  have hsize : ∀ k, size (bound.card + k) = size bound.card := fun k =>
    Nat.stabilises_of_monotone hmono (fun _ => Finset.card_filter_le _ _) hstab
      (Nat.le_add_right _ _)
  have hall : ∀ k x, chain (bound.card + k) x → chain bound.card x := by
    intro k
    induction k with
    | zero => exact fun x hx => hx
    | succ k ih =>
      intro x hx
      exact ih x (hback _ (by rw [hsize k, Nat.add_assoc, hsize (k + 1)]) x hx)
  have hup : chain (bound.card + n) x := by
    induction bound.card + n, Nat.le_add_left n bound.card using Nat.le_induction with
    | base => exact hx
    | succ k _ ih => exact hrise k x ih
  exact hall n x hup

/-- If level `n + 1` reaches no new pair of a member and a context with accesses to `path` of kind
`kind` that lack `lacking`, level `n + 2` has no new access of this sort. -/
theorem level_access_pause {path : AccessPath} {kind : AccessKind} {lacking : Option LockId}
    {n : Nat}
    (hpause : ∀ m thread location,
      level members finished (n + 1) m (.access ⟨path, kind, location, thread⟩ lacking) →
      ∃ location', level members finished n m (.access ⟨path, kind, location', thread⟩ lacking))
    {m : MethodId} {thread : ThreadContext} {location : Location}
    (h : level members finished (n + 2) m (.access ⟨path, kind, location, thread⟩ lacking)) :
    level members finished (n + 1) m (.access ⟨path, kind, location, thread⟩ lacking) := by
  obtain ⟨f, hf, hm, hgains⟩ := h
  refine ⟨f, hf, hm, ?_⟩
  rcases hgains with hown | ⟨call, hcall, φ, haround, hlifts⟩
  · exact .inl hown
  · cases hlifts with
    | @access key lacking hlacking =>
      rcases haround with ⟨hmem, hlevel⟩ | houtside
      · -- an access of the callee elsewhere, in the same context, is as good
        obtain ⟨location', hlevel'⟩ := hpause _ key.thread key.location hlevel
        exact .inr ⟨call, hcall, _, .inl ⟨hmem, hlevel'⟩, .access hlacking⟩
      · exact .inr ⟨call, hcall, _, .inr houtside, .access hlacking⟩

/-- The members. -/
def memberIds (members : List MethodFacts) : Finset MethodId := (members.map (·.method)).toFinset

theorem card_memberIds_le (members : List MethodFacts) :
    (memberIds members).card ≤ members.length := by
  refine le_trans (List.toFinset_card_le _) ?_
  rw [List.length_map]

/-- Only members have features. -/
theorem mem_memberIds_of_level {n : Nat} {m : MethodId} {φ : Feature}
    (h : level members finished n m φ) : m ∈ memberIds members := by
  rw [memberIds, List.mem_toFinset]
  cases n with
  | zero =>
    obtain ⟨f, hf, hm, -⟩ := h
    exact List.mem_map.2 ⟨f, hf, hm⟩
  | succ n =>
    obtain ⟨f, hf, hm, -⟩ := h
    exact List.mem_map.2 ⟨f, hf, hm⟩

/-- Thread contexts stop rising after as many levels as there are members. -/
theorem level_thread_stable {n : Nat} {m : MethodId} {context : ThreadContext}
    (h : level members finished n m (.thread context)) :
    level members finished members.length m (.thread context) := by
  refine level_le (card_memberIds_le members) ?_
  refine eventually_stable (memberIds members)
    (fun n m => level members finished n m (.thread context))
    (fun _ _ => mem_memberIds_of_level) (fun _ _ => level_succ) ?_ n h
  rintro n hpause m ⟨f, hf, hm, hgains⟩
  refine ⟨f, hf, hm, ?_⟩
  rcases hgains with hown | ⟨call, hcall, φ, haround, hlifts⟩
  · exact .inl hown
  · cases hlifts
    refine .inr ⟨call, hcall, _, ?_, .thread⟩
    rcases haround with ⟨hmem, hlevel⟩ | houtside
    · exact .inl ⟨hmem, hpause _ hlevel⟩
    · exact .inr houtside

/-- The pairs of a member and a context. -/
def memberContexts (members : List MethodFacts) : Finset (MethodId × ThreadContext) :=
  memberIds members ×ˢ ThreadContext.all.toFinset

theorem card_memberContexts_le (members : List MethodFacts) :
    (memberContexts members).card ≤ 3 * members.length := by
  have hthree : ThreadContext.all.toFinset.card = 3 := rfl
  rw [memberContexts, Finset.card_product, hthree, Nat.mul_comm]
  exact Nat.mul_le_mul_left 3 (card_memberIds_le members)

/-- Accesses stop showing up one level after all pairs of a member and a context. -/
theorem level_access_stable {n : Nat} {m : MethodId} {key : EventKey} {lacking : Option LockId}
    (h : level members finished n m (.access key lacking)) :
    level members finished (3 * members.length + 1) m (.access key lacking) := by
  obtain ⟨path, kind, location, thread⟩ := key
  -- the pairs with some access of this sort
  have hpairs : ∀ n m thread location,
      level members finished n m (.access ⟨path, kind, location, thread⟩ lacking) →
      ∃ location', level members finished (memberContexts members).card m
        (.access ⟨path, kind, location', thread⟩ lacking) := by
    intro n m thread location hlevel
    refine eventually_stable (memberContexts members) (fun n x =>
      ∃ location, level members finished n x.1 (.access ⟨path, kind, location, x.2⟩ lacking))
      ?_ ?_ ?_ n (x := (m, thread)) ⟨location, hlevel⟩
    · rintro n x ⟨location, hx⟩
      exact Finset.mem_product.2
        ⟨mem_memberIds_of_level hx, List.mem_toFinset.2 (ThreadContext.mem_all _)⟩
    · rintro n x ⟨location, hx⟩
      exact ⟨location, level_succ hx⟩
    · rintro n hpause x ⟨location, hx⟩
      refine ⟨location, level_access_pause (fun m thread location hlevel => ?_) hx⟩
      exact hpause (m, thread) ⟨location, hlevel⟩
  -- the location is that of the first call, so one more level is needed for all locations
  have hlast : ∀ k, level members finished ((memberContexts members).card + 1 + k) m
      (.access ⟨path, kind, location, thread⟩ lacking) →
      level members finished ((memberContexts members).card + 1) m
        (.access ⟨path, kind, location, thread⟩ lacking) := by
    intro k
    induction k with
    | zero => exact fun hk => hk
    | succ k ih =>
      intro hk
      refine ih ?_
      have hshift : (memberContexts members).card + 1 + k
          = (memberContexts members).card + k + 1 := by omega
      rw [hshift]
      have hshift' : (memberContexts members).card + 1 + (k + 1)
          = (memberContexts members).card + k + 2 := by omega
      rw [hshift'] at hk
      refine level_access_pause (fun m thread location hlevel => ?_) hk
      obtain ⟨location', hlevel'⟩ := hpairs _ m thread location hlevel
      exact ⟨location', level_le (Nat.le_add_right _ _) hlevel'⟩
  have hcard := card_memberContexts_le members
  refine level_le (Nat.succ_le_succ hcard) (hlast n (level_le ?_ h))
  exact Nat.le_add_left _ _

/-- **Levels stop rising**: nothing shows up after level `3 * n + 1` of a component with `n`
members. -/
theorem level_stable {n : Nat} {m : MethodId} {φ : Feature} (h : level members finished n m φ) :
    level members finished (3 * members.length + 1) m φ := by
  cases φ with
  | access key lacking => exact level_access_stable h
  | thread context => exact level_le (by omega) (level_thread_stable h)

end Levels

end Interlock
