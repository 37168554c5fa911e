import Interlock.Proofs.Levels
import Interlock.Proofs.SessionFacts
import Interlock.Proofs.Store

/-!
# Summaries of recursive methods stabilize in time

The rounds of a component end within the cap that is derived for them, and within
three rounds per member and two more, whatever its paths, locks and locations.

- `level_access_visible`: only visible paths are accessed, so without a visible path
  only contexts change.
- `le_roundCap`: the derived cap, also where its arithmetic stops at the greatest word.
- `iterate_converges`: the rounds of a component.
- `Session.store_converges`: all components of a session.
-/

namespace Interlock

section Cap

variable {finished : MethodId → Option Summary} {members : List MethodFacts}

/-! ## Visible paths -/

/-- The events that come in from outside are those of the callees there. -/
theorem mem_outsideEvents {f : MethodFacts} (hf : f ∈ members) {callee : MethodId}
    (hcall : callee ∈ f.callees) (hout : callee ∉ members.map (·.method)) {s : Summary}
    (hs : finished callee = some s) {e : AccessEvent} (he : e ∈ s.accesses) :
    e ∈ outsideEvents members finished := by
  have hnot : (!members.any (·.method = callee)) = true := by
    rw [Bool.not_eq_true', List.any_eq_false]
    intro g hg heq
    exact hout (List.mem_map.2 ⟨g, hg, of_decide_eq_true heq⟩)
  refine List.mem_flatMap.2 ⟨callee, ?_, ?_⟩
  · exact List.mem_flatMap.2 ⟨f, hf, List.mem_filter.2 ⟨hcall, hnot⟩⟩
  · rw [hs]
    exact he

/-- The accesses of a component are to visible paths. -/
theorem level_access_visible {n : Nat} {m : MethodId} {key : EventKey} {lacking : Option LockId}
    (h : level members finished n m (.access key lacking)) :
    key.path ∈ visiblePaths members finished := by
  rw [visiblePaths, SortedSet.mem_ofList, List.mem_append]
  induction n generalizing m key with
  | zero =>
    obtain ⟨f, -, -, e, he, -⟩ := h
    cases he
  | succ n ih =>
    obtain ⟨f, hf, -, hgains⟩ := h
    rcases hgains with ⟨c, hc, rfl, -⟩ | ⟨call, hcall, φ, haround, hlifts⟩
    · obtain ⟨a, ha, rfl⟩ := List.mem_map.1 hc
      exact .inl (List.mem_flatMap.2 ⟨f, hf, List.mem_map.2 ⟨a, ha, rfl⟩⟩)
    · cases hlifts with
      | @access key lacking hlacking =>
        show key.path ∈ _ ∨ key.path ∈ _
        rcases haround with ⟨-, hlevel⟩ | ⟨hout, s, hs, e, he, rfl, -⟩
        · exact ih hlevel
        · have hcallee : call.call.callee ∈ f.callees := List.mem_map.2 ⟨call, hcall, rfl⟩
          exact .inr (List.mem_map.2 ⟨e, mem_outsideEvents hf hcallee hout hs he, rfl⟩)

/-! ## The cap -/

theorem le_saturatingAdd {a b x y : Nat} (hx : x ≤ a) (hy : y ≤ b) (hfit : x + y ≤ wordMax) :
    x + y ≤ saturatingAdd a b :=
  Nat.le_min.2 ⟨Nat.add_le_add hx hy, hfit⟩

/-- A product that fits into a word is not cut off, and neither is a larger one below it. -/
theorem le_saturatingMul {a b x y : Nat} (hx : x ≤ a) (hy : y ≤ b) (hfit : x * y ≤ wordMax) :
    x * y ≤ saturatingMul a b :=
  Nat.le_min.2 ⟨Nat.mul_le_mul hx hy, hfit⟩

/-- The cap is at least two per member and, if a path is visible, twelve per location, as far as
this fits into a word. -/
theorem le_roundCap {q : Nat}
    (hq : q = 0 ∨ 0 < (visiblePaths members finished).size ∧ q ≤ locationCount members)
    (hfit : 12 * q + 2 * members.length + 1 ≤ wordMax) :
    12 * q + 2 * members.length + 1 ≤ roundCap members finished := by
  -- step by step: each bound fits into a word, so it survives where the exact value does not
  have hkeys : 1 * 2 * q * 3 ≤ saturatingMul (saturatingMul
      (saturatingMul (visiblePaths members finished).size 2) (locationCount members)) 3 := by
    rcases hq with rfl | ⟨hpaths, hlocations⟩
    · exact Nat.zero_le _
    · have hword : 2 ≤ wordMax := by decide
      refine le_saturatingMul (le_saturatingMul ?_ hlocations ?_) (le_refl 3) ?_
      · exact le_saturatingMul hpaths (le_refl 2) hword
      · omega
      · omega
  have hmerged : 1 * 2 * q * 3 * 2 ≤ saturatingMul (saturatingMul (saturatingMul
      (saturatingMul (visiblePaths members finished).size 2) (locationCount members)) 3)
      ((visibleLocks members finished).size + 2) :=
    le_saturatingMul hkeys (Nat.le_add_left 2 _) (by omega)
  have hcontexts : members.length * 2 ≤ saturatingMul members.length 2 :=
    le_saturatingMul (le_refl _) (le_refl 2) (by omega)
  have hcap : 1 * 2 * q * 3 * 2 + members.length * 2 + 1 ≤ roundCap members finished :=
    le_saturatingAdd (le_saturatingAdd hmerged hcontexts (by omega)) (le_refl 1) (by omega)
  omega

/-! ## Rounds of one component -/

/-- The rounds of a component end in time, if all but one of its members have a location. -/
theorem iterate_converges (hnodup : (members.map (·.method)).Nodup)
    (hplaced : ∀ f ∈ members, f.Placed) (hlength : members.length ≤ 2 ^ 32)
    (hpos : 1 ≤ locationCount members) (hlocations : members.length ≤ locationCount members + 1) :
    ∃ out, iterate finished members (roundCap members finished) 0 (initialSummaries members)
        = some out ∧
      out.rounds ≤ 3 * members.length + 2 ∧ out.rounds ≤ roundCap members finished := by
  have hword : wordMax = 18446744073709551615 := rfl
  -- the number of rounds that suffices, and that the cap allows one more
  obtain ⟨n, hlast, hn, hcap⟩ : ∃ n, (∀ k m φ, level members finished k m φ →
      level members finished n m φ) ∧ n ≤ 3 * members.length + 1 ∧
        n < roundCap members finished := by
    rcases Nat.eq_zero_or_pos (visiblePaths members finished).size with hnone | hpaths
    · refine ⟨members.length, ?_, by omega, ?_⟩
      · intro k m φ hlevel
        cases φ with
        | access key lacking =>
          have hvisible := level_access_visible hlevel
          rw [SortedSet.mem_def, List.length_eq_zero_iff.1 hnone] at hvisible
          cases hvisible
        | thread context => exact level_thread_stable hlevel
      · have hle : 12 * 0 + 2 * members.length + 1 ≤ roundCap members finished :=
          le_roundCap (.inl rfl) (by omega)
        omega
    · refine ⟨3 * members.length + 1, fun k m φ => level_stable, le_refl _, ?_⟩
      have hle := le_roundCap (q := min (locationCount members) (2 ^ 32))
        (.inr ⟨hpaths, Nat.min_le_left _ _⟩) (by omega)
      omega
  obtain ⟨out, hout, hrounds⟩ := iterate_of_stable hcap 0
    (runRound_stable_of_level hnodup hplaced hlast)
  exact ⟨out, hout, by omega, by omega⟩

end Cap

/-! ## Members and locations -/

/-- There are no more methods than numbers for them. -/
theorem length_le_of_nodup_methods {ms : List MethodId} (h : ms.Nodup) : ms.length ≤ 2 ^ 32 := by
  have hinj : Function.Injective fun m : MethodId => m.val.toNat := by
    rintro ⟨a⟩ ⟨b⟩ hab
    exact congrArg MethodId.mk (UInt32.toNat_inj.1 hab)
  have hsub : ms.map (fun m => m.val.toNat) ⊆ List.range (2 ^ 32) := by
    intro n hn
    obtain ⟨m, -, rfl⟩ := List.mem_map.1 hn
    exact List.mem_range.2 m.val.toNat_lt
  have hle := (List.subperm_of_subset (h.map hinj) hsub).length_le
  rwa [List.length_map, List.length_range] at hle

/-- A method that calls something has a location. -/
theorem MethodFacts.one_le_of_call {f : MethodFacts} {callee : MethodId}
    (hcall : callee ∈ f.callees) : 1 ≤ f.tagged.accesses.length + f.tagged.calls.length := by
  obtain ⟨call, hmem, -⟩ := List.mem_map.1 hcall
  have hpos := List.length_pos_of_mem hmem
  omega

theorem locationCount_cons (f : MethodFacts) (fs : List MethodFacts) :
    locationCount (f :: fs)
      = f.tagged.accesses.length + f.tagged.calls.length + locationCount fs := by
  rw [locationCount, List.flatMap_cons, List.length_append, List.length_append, List.length_map,
    List.length_map, locationCount]

/-- If every member but `r` has a location, the members but one are no more than the locations. -/
theorem length_le_locationCount {fs : List MethodFacts} {r : MethodId}
    (hnodup : (fs.map (·.method)).Nodup)
    (h : ∀ f ∈ fs, f.method = r ∨ 1 ≤ f.tagged.accesses.length + f.tagged.calls.length) :
    fs.length ≤ locationCount fs + if r ∈ fs.map (·.method) then 1 else 0 := by
  induction fs with
  | nil => exact Nat.zero_le _
  | cons f fs ih =>
    rw [List.map_cons, List.nodup_cons] at hnodup
    have hrest := ih hnodup.2 fun g hg => h g (List.mem_cons_of_mem _ hg)
    rw [locationCount_cons, List.length_cons]
    by_cases hr : f.method = r
    · rw [hr] at hnodup
      rw [if_neg hnodup.1] at hrest
      rw [if_pos (by rw [List.map_cons, hr]; exact List.mem_cons_self)]
      omega
    · have hone := (h f List.mem_cons_self).resolve_left hr
      have hmem : r ∈ (f :: fs).map (·.method) ↔ r ∈ fs.map (·.method) := by
        rw [List.map_cons, List.mem_cons]
        exact or_iff_right fun heq => hr heq.symm
      simp only [hmem]
      omega

theorem locationCount_perm {fs fs' : List MethodFacts} (h : fs.Perm fs') :
    locationCount fs = locationCount fs' :=
  (h.flatMap_right _).length_eq

namespace Builder

variable {b : Builder} (hk : b.facts.Keyed) (hg : b.graph = .of b.facts)

include hk hg

/-- A component has at least as many locations as members but one, and one if it is cyclic. -/
theorem memberFacts_locations {c : Nat} (hc : c < b.graph.size) :
    (b.memberFacts c).length ≤ locationCount (b.memberFacts c) + 1 ∧
      (b.graph.isCyclic c = true → 1 ≤ locationCount (b.memberFacts c)) := by
  have hmembers := map_method_memberFacts hk hg c
  have hnodup := nodup_memberFacts hk hg c
  have hlength : (b.memberFacts c).length ≤ locationCount (b.memberFacts c) + 1 := by
    rw [hg] at hc
    -- all members but one call another member, and a call has a location
    obtain ⟨r, -, hlinked⟩ := CallGraph.exists_call_of_member hk hc
    have hle := length_le_locationCount (r := r) hnodup (by
      intro f hf
      obtain ⟨hfacts, hcomponent⟩ := (mem_memberFacts hk hg).1 hf
      rw [hg] at hcomponent
      rcases hlinked f.method ((CallGraph.mem_members hk).2 hcomponent) with
        heq | ⟨g, hgfacts, callee, hcall, -⟩
      · exact .inl heq
      · rw [hfacts, Option.some_inj] at hgfacts
        subst hgfacts
        exact .inr (MethodFacts.one_le_of_call hcall))
    refine le_trans hle (Nat.add_le_add_left ?_ _)
    split <;> omega
  refine ⟨hlength, fun hcyclic => ?_⟩
  rw [hg, CallGraph.isCyclic_iff hk, ← hg, ← hmembers, List.length_map] at hcyclic
  rcases hcyclic with hseveral | ⟨m, hm, f, hf, hcall⟩
  · omega
  · -- a single method that calls itself
    obtain ⟨g, hmem, rfl⟩ := List.mem_map.1 hm
    rw [((mem_memberFacts hk hg).1 hmem).1, Option.some_inj] at hf
    subst hf
    obtain ⟨call, hmemcall, -⟩ := List.mem_map.1 hcall
    have hlocation : call.call.location ∈ g.tagged.calls.map (·.call.location) :=
      List.mem_map.2 ⟨call, hmemcall, rfl⟩
    exact List.length_pos_of_mem (List.mem_flatMap.2 ⟨g, hmem, List.mem_append_right _ hlocation⟩)

/-- Without a given cap, every component has summaries, found within the derived cap. -/
theorem compute_converges (hplaced : ∀ m f, b.facts.get? m = some f → f.Placed)
    (hmax : b.maxRounds = none) {c : Nat} (hc : c < b.graph.size) (store : Store) :
    ∃ out, b.compute store c = .ok out ∧
      out.rounds ≤ 3 * (b.graph.members c).length + 2 ∧
      (b.graph.isCyclic c = true →
        out.rounds ≤ roundCap (calleeFirst (b.memberFacts c)) (b.finished? store)) := by
  have hmembers := map_method_memberFacts hk hg c
  have hnodup := nodup_memberFacts hk hg c
  have hlength : (b.memberFacts c).length = (b.graph.members c).length := by
    rw [← hmembers, List.length_map]
  rw [compute, hmax]
  cases hcyclic : b.graph.isCyclic c with
  | false =>
    rw [summarizeComponent_acyclic]
    refine ⟨_, rfl, ?_, fun h => absurd h Bool.false_ne_true⟩
    show 1 ≤ _
    omega
  | true =>
    -- the rounds go over the members callees first; none of the bounds depends on their order
    have hperm := calleeFirst_perm hnodup
    obtain ⟨hlocations, hpos⟩ := memberFacts_locations hk hg hc
    have hordered : ((calleeFirst (b.memberFacts c)).map (·.method)).Nodup :=
      (hperm.map _).nodup_iff.2 hnodup
    have hplaces : ∀ f ∈ calleeFirst (b.memberFacts c), f.Placed := fun f hf =>
      hplaced _ f ((mem_memberFacts hk hg).1 (hperm.mem_iff.1 hf)).1
    have hword := length_le_of_nodup_methods hordered
    rw [List.length_map] at hword
    rw [← locationCount_perm hperm] at hpos hlocations
    rw [← hperm.length_eq] at hlocations
    rw [summarizeComponent_cyclic, Option.getD_none]
    obtain ⟨out, hout, hrounds, hcap⟩ :=
      iterate_converges hordered hplaces hword (hpos hcyclic) hlocations
    rw [hout]
    rw [hperm.length_eq, hlength] at hrounds
    exact ⟨out, rfl, hrounds, fun _ => hcap⟩

end Builder

/-! ## All components of a session -/

/-- **Rounds end in time**: if no cap on rounds is set, every component of a program gets its
summaries, whatever the budget of lock tracking: within three rounds per method and two more, and
within the derived cap. -/
theorem Session.store_converges (program : Program) (config : Config)
    (hmax : config.maxFixpointRounds = none) (c : Nat)
    (hc : c < (Session.of program config).graph.size) :
    ∃ out, (Session.of program config).store.get? c = some (.ok out) ∧
      out.rounds ≤ 3 * ((Session.of program config).graph.members c).length + 2 ∧
      ((Session.of program config).graph.isCyclic c = true → out.rounds ≤ roundCap
        (calleeFirst ((Session.of program config).builder.memberFacts c))
        ((Session.of program config).builder.finished? (Session.of program config).store)) := by
  have hk : (Session.of program config).builder.facts.Keyed := keyed_facts program config
  have hnone : (Session.of program config).builder.maxRounds = none := by
    show config.maxFixpointRounds.map UInt64.toNat = none
    rw [hmax, Option.map_none]
  obtain ⟨out, hout, hrounds, hcap⟩ := Builder.compute_converges hk rfl
    (fun m f hf => placed_of_get?_facts hf) hnone hc (Session.of program config).store
  refine ⟨out, ?_, hrounds, hcap⟩
  rw [← hout]
  exact Builder.get?_buildAll hk rfl hc

theorem Session.store_converges_pingPong :
    ∃ out, (Session.of .pingPong {}).store.get? 0 = some (.ok out) ∧ out.rounds ≤ 3 * 2 + 2 ∧
      out.rounds ≤ roundCap (calleeFirst ((Session.of .pingPong {}).builder.memberFacts 0))
        ((Session.of .pingPong {}).builder.finished? (Session.of .pingPong {}).store) := by
  have hmembers : ((Session.of .pingPong {}).graph.members 0).length = 2 := by decide +kernel
  obtain ⟨out, hout, hrounds, hcap⟩ :=
    Session.store_converges .pingPong {} rfl 0 (by decide +kernel)
  rw [hmembers] at hrounds
  exact ⟨out, hout, hrounds, hcap (by decide +kernel)⟩

end Interlock
