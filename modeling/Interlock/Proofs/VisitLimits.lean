import Interlock.Proofs.Budgets
import Interlock.Proofs.Guarded.Locks

/-!
# Limits on block visits

A limit on visits only cuts the solver off: it answers as the solver without a limit does, if
that comes to an end within the limit, and gives up otherwise. This holds in any graph and for
any effects of blocks and edges.

Lock tracking comes to an end after one visit and, for each edge of a reachable block, as many
as the block can be found changed: once when it is reached, and then each time that it loses one
of the locks which the method names. So it never gives up with a budget of that size.

- `Problem.solveUnlimited_eq_some`: the solver without a limit answers with where a run ends.
- `Problem.solveWithin_eq_ok_iff`, `Problem.solveWithin_eq_error`: the solver with a limit.
- `Method.exists_trackLocks`: lock tracking under every budget.
- `visitLimit_cutsOff`: limits of the solver, and budgets of methods in a session.
- `Method.trackLocks_visits`, `Method.trackLocks?_visits`: the visits that lock tracking needs, on
  sets of locks and on sets of numbers.
-/

namespace Interlock

/-! ## The solver with a limit and without -/

namespace Problem

variable {Op D : Type} [JoinSemilattice D] [DecidableEq D] {p : Problem Op D} {r r' : Progress D}

/-- A run makes no more visits than its limit allows. -/
theorem steps_run_le (n : Nat) (r : Progress D) :
    (p.run n r).solution.steps ≤ r.solution.steps + n := by
  induction n generalizing r with
  | zero => exact Nat.le_refl _
  | succ n ih =>
    rw [run]
    split
    · exact Nat.le_add_right _ _
    · next b rest hpop =>
      have hle := ih (p.visit { r with worklist := rest } b)
      have hsteps : (p.visit { r with worklist := rest } b).solution.steps
          = r.solution.steps + 1 := p.steps_visit _ b
      omega

/-- If the visits come to an end without a limit, a run with enough of them ends there. -/
theorem exists_run_of_runOut (h : p.runOut r = some r') :
    ∃ n, p.run n r = r' ∧ r'.worklist.waiting = [] := by
  -- along the unfolding of the loop: one more visit is one more visit of the run
  refine runOut.partial_correctness p
    (fun r r' => ∃ n, p.run n r = r' ∧ r'.worklist.waiting = []) (fun runOut ih r r' h => ?_) r r' h
  cases hpop : r.worklist.pop? with
  | none =>
    rw [hpop] at h
    obtain rfl := Option.some_inj.1 h
    exact ⟨0, rfl, Worklist.pop?_eq_none.1 hpop⟩
  | some next =>
    obtain ⟨b, rest⟩ := next
    rw [hpop] at h
    obtain ⟨n, hrun, hdone⟩ := ih _ _ h
    exact ⟨n + 1, by rw [run_succ hpop, hrun], hdone⟩

/-- The solver without a limit answers with where a run ends that leaves no block waiting. -/
theorem solveUnlimited_eq_some {s : Solution D} :
    p.solveUnlimited = some s ↔
      ∃ n, (p.run n p.start).worklist.waiting = [] ∧ (p.run n p.start).solution = s := by
  rw [solveUnlimited, Option.map_eq_some_iff]
  constructor
  · rintro ⟨r, hr, rfl⟩
    obtain ⟨n, rfl, hdone⟩ := exists_run_of_runOut hr
    exact ⟨n, hdone, rfl⟩
  · rintro ⟨n, hdone, rfl⟩
    exact ⟨_, runOut_of_run hdone, rfl⟩

/-- The solver answers within a limit exactly if it answers the same without one, after at most as
many visits. -/
theorem solveWithin_eq_ok_iff {limit : Nat} {s : Solution D} :
    p.solveWithin limit = .ok s ↔ p.solveUnlimited = some s ∧ s.steps ≤ limit := by
  have hstart : p.start.solution.steps = 0 := rfl
  rw [solveWithin_eq_ok, solveUnlimited_eq_some]
  constructor
  · rintro ⟨hdone, rfl⟩
    have hle := p.steps_run_le limit p.start
    exact ⟨⟨limit, hdone, rfl⟩, by omega⟩
  · rintro ⟨⟨n, hdone, rfl⟩, hle⟩
    -- as many visits as were made are enough, and the limit allows for these
    obtain ⟨k, hrun, hsteps⟩ := exists_run_steps hdone
    have hlimit : p.run limit p.start = p.run n p.start := by
      rw [run_eq_of_le (by omega) (hrun ▸ hdone), hrun]
    exact ⟨hlimit ▸ hdone, congrArg _ hlimit⟩

/-- Otherwise the solver gives up, and says at which limit. -/
theorem solveWithin_eq_error {limit : Nat}
    (h : ¬ ∃ s, p.solveUnlimited = some s ∧ s.steps ≤ limit) :
    p.solveWithin limit = .error ⟨limit⟩ := by
  cases hsolve : p.solveWithin limit with
  | ok s => exact absurd ⟨s, solveWithin_eq_ok_iff.1 hsolve⟩ h
  | error e =>
    rw [solveWithin] at hsolve
    split at hsolve
    · cases hsolve
    · exact hsolve.symm

/-- A monotone problem is solved by one visit and those that the edges of reachable blocks may
cause. -/
theorem exists_solveUnlimited [LawfulJoin D] [Height D] [LawfulHeight D] (hg : p.graph.WellFormed)
    (hp : p.IsMonotone) : ∃ s, p.solveUnlimited = some s ∧
      s.steps ≤ 1 + (Height.height D + 1) * p.graph.liveEdges := by
  have hdone : (p.run (1 + (Height.height D + 1) * p.graph.liveEdges) p.start).worklist.waiting
      = [] := by
    rcases Nat.eq_zero_or_pos p.graph.size with hzero | h0
    · have hnil := waiting_start_of_size_eq_zero hzero
      rwa [run_of_waiting_nil hnil]
    · exact waiting_run_of_le hg h0 hp le_rfl
  exact ⟨_, solveWithin_eq_ok_iff.1 (solveWithin_eq_ok.2 ⟨hdone, rfl⟩)⟩

end Problem

/-! ## Budgets of methods -/

namespace Method

variable {m : Method}

/-- The table of a method has a number for each lock that the method names. -/
theorem length_lockTable (m : Method) : m.lockTable.locks.length = m.lockUniverse.size :=
  ((List.perm_ext_iff_of_nodup m.numbers_lockTable.nodup m.lockUniverse.nodup_toList).2
    fun _ => mem_locks_lockTable).length_eq

/-- Lock tracking without a budget, and under every budget: it gives up exactly if the budget does
not allow for the visits that it makes without one. -/
theorem exists_trackLocks (hg : m.body.WellFormed) :
    ∃ s tagged, m.lockProblem.solveUnlimited = some s ∧ m.trackLocks none = .ok tagged ∧
      tagged.steps = s.steps ∧
      s.steps ≤ 1 + (m.lockTable.locks.length + 1) * m.body.liveEdges ∧
      ∀ budget, m.trackLocks (some budget)
        = if s.steps ≤ budget then .ok tagged else .error ⟨budget⟩ := by
  -- without a limit the solver comes to an end, and a limit only cuts it off
  obtain ⟨s, hs, hsteps⟩ := Problem.exists_solveUnlimited hg m.lockProblem_isMonotone
  have hwithin : ∀ limit, s.steps ≤ limit → m.lockProblem.solveWithin limit = .ok s :=
    fun limit hle => Problem.solveWithin_eq_ok_iff.2 ⟨hs, hle⟩
  have hunlimited : m.lockProblem.solve none = .ok s := by
    rw [Problem.solve, Option.getD_none]
    exact hwithin _ (hsteps.trans
      (Nat.add_le_add_left (Nat.mul_le_mul_left _ m.body.liveEdges_le) 1))
  obtain ⟨tagged, htracked, htagged⟩ :
      ∃ tagged, m.trackLocks none = .ok tagged ∧ tagged.steps = s.steps := by
    rw [trackLocks, hunlimited]
    exact ⟨_, rfl, rfl⟩
  rw [length_lockTable]
  refine ⟨s, tagged, hs, htracked, htagged, hsteps, fun budget => ?_⟩
  split
  · next hle =>
    have hsolve : m.lockProblem.solve (some budget) = .ok s := hwithin budget hle
    rw [← htracked, trackLocks, trackLocks, hsolve, hunlimited]
  · next hgt =>
    have hnone : ¬ ∃ s, m.lockProblem.solveUnlimited = some s ∧ s.steps ≤ budget := by
      rintro ⟨s', hs', hle⟩
      rw [hs, Option.some_inj] at hs'
      exact hgt (hs' ▸ hle)
    have hsolve : m.lockProblem.solve (some budget) = .error ⟨budget⟩ :=
      Problem.solveWithin_eq_error hnone
    rw [trackLocks, hsolve]
    rfl

variable (hierarchy : Hierarchy)

/-- The facts of a method whose locks are tracked. -/
theorem prepare_of_ok {budget : Option Nat} {tagged : Tagged}
    (h : m.trackLocks budget = .ok tagged) :
    (m.prepare hierarchy budget).1 = ⟨m.id, hierarchy.classify m, tagged, false⟩ := by
  rw [prepare, h]

/-- The facts of a method under a budget: degraded if it does not allow for the visits that lock
tracking makes, and otherwise those without a budget. -/
theorem exists_prepare (hg : m.body.WellFormed) :
    ∃ s, m.lockProblem.solveUnlimited = some s ∧
      (m.prepare hierarchy none).1.degraded = false ∧
      (m.prepare hierarchy none).1.tagged.steps = s.steps ∧
      ∀ budget, ((m.prepare hierarchy (some budget)).1.degraded = true ↔ budget < s.steps) ∧
        ((m.prepare hierarchy (some budget)).1.degraded = false →
          (m.prepare hierarchy (some budget)).1 = (m.prepare hierarchy none).1) := by
  obtain ⟨s, tagged, hs, htracked, hsteps, -, hbudget⟩ := exists_trackLocks hg
  rw [prepare_of_ok hierarchy htracked]
  refine ⟨s, hs, rfl, hsteps, fun budget => ?_⟩
  by_cases hle : s.steps ≤ budget
  · have hok : m.trackLocks (some budget) = .ok tagged := by rw [hbudget, if_pos hle]
    rw [prepare_of_ok hierarchy hok]
    exact ⟨iff_of_false Bool.false_ne_true (Nat.not_lt.2 hle), fun _ => rfl⟩
  · have hdegraded : (m.prepare hierarchy (some budget)).1.degraded = true :=
      (m.prepare_degraded hierarchy).2 ⟨_, by rw [hbudget, if_neg hle]⟩
    rw [hdegraded]
    exact ⟨iff_of_true rfl (Nat.not_le.1 hle), fun hfalse => absurd hfalse (by decide)⟩

end Method

/-- **A limit on visits only cuts the solver off**: it answers within a limit exactly if it answers
the same without one after no more visits, and otherwise gives up at that limit. So the facts of an
accepted method are degraded under a budget exactly if lock tracking makes more visits without one,
and otherwise they are the facts without a budget. -/
theorem visitLimit_cutsOff :
    (∀ {Op D : Type} [JoinSemilattice D] [DecidableEq D] (p : Problem Op D) (limit : Nat),
      (∀ s, p.solveWithin limit = .ok s ↔ p.solveUnlimited = some s ∧ s.steps ≤ limit) ∧
      ((¬ ∃ s, p.solveUnlimited = some s ∧ s.steps ≤ limit) →
        p.solveWithin limit = .error ⟨limit⟩)) ∧
    ∀ (program : Program) (config : Config) (budget : UInt64), ∀ m ∈ program.accepted,
      ∃ s f unlimited, m.lockProblem.solveUnlimited = some s ∧
        (Session.of program (config.withBudget (some budget))).facts.get? m.id = some f ∧
        (Session.of program (config.withBudget none)).facts.get? m.id = some unlimited ∧
        unlimited.degraded = false ∧ unlimited.tagged.steps = s.steps ∧
        (f.degraded = true ↔ budget.toNat < s.steps) ∧
        (f.degraded = false → f = unlimited) := by
  refine ⟨fun p limit => ⟨fun s => Problem.solveWithin_eq_ok_iff, Problem.solveWithin_eq_error⟩, ?_⟩
  intro program config budget m hm
  obtain ⟨s, hs, hnone, hsteps, hbudget⟩ :=
    Method.exists_prepare program.hierarchy (Program.wellFormed_of_accepted hm).2
  have hfacts : ∀ budget, (Session.of program (config.withBudget budget)).facts.get? m.id
      = some (m.prepare program.hierarchy (budget.map UInt64.toNat)).1 :=
    fun budget => Session.get?_facts_of_accepted _ hm
  exact ⟨s, _, _, hs, hfacts (some budget), hfacts none, hnone, hsteps, hbudget budget.toNat⟩

theorem visitLimit_cutsOff_cache :
    ∃ m ∈ Program.cache.accepted, m.id = ⟨0⟩ ∧ ∃ s, m.lockProblem.solveUnlimited = some s ∧
      s.steps = 3 ∧ m.lockProblem.solveWithin 2 = .error ⟨2⟩ ∧
      m.lockProblem.solveWithin 3 = .ok s ∧
      (Session.of .cache (({} : Config).withBudget (some 3))).facts.get? ⟨0⟩
        = (Session.of .cache (({} : Config).withBudget none)).facts.get? ⟨0⟩ := by
  have haccepted : ∃ m ∈ Program.cache.accepted, m.id = ⟨0⟩ := by decide +kernel
  obtain ⟨m, hm, hid⟩ := haccepted
  obtain ⟨hsolver, hmethods⟩ := visitLimit_cutsOff
  obtain ⟨s, f, unlimited, hs, hf, -, -, -, hmore, -⟩ := hmethods .cache {} 2 m hm
  obtain ⟨s', f', unlimited', hs', hf', hunlimited', -, -, hmore', hsame'⟩ :=
    hmethods .cache {} 3 m hm
  obtain rfl : s' = s := Option.some_inj.1 (hs'.symm.trans hs)
  rw [hid] at hf hf' hunlimited'
  have hdegraded : f.degraded = true := by
    have hflag : ((Session.of .cache (({} : Config).withBudget (some 2))).facts.get? ⟨0⟩).map
        MethodFacts.degraded = some true := by decide +kernel
    rw [hf] at hflag
    exact Option.some_inj.1 hflag
  have hkept : f'.degraded = false := by
    have hflag : ((Session.of .cache (({} : Config).withBudget (some 3))).facts.get? ⟨0⟩).map
        MethodFacts.degraded = some false := by decide +kernel
    rw [hf'] at hflag
    exact Option.some_inj.1 hflag
  -- two visits are too few and three are enough, so three are made
  have hlower : 2 < s'.steps := hmore.1 hdegraded
  have hupper : ¬ 3 < s'.steps := fun hlt => by
    rw [hmore'.2 hlt] at hkept
    cases hkept
  refine ⟨m, hm, hid, s', hs, by omega, (hsolver _ 2).2 ?_, ((hsolver _ 3).1 s').2 ⟨hs, by omega⟩,
    ?_⟩
  · rintro ⟨t, ht, hle⟩
    obtain rfl := Option.some_inj.1 (ht.symm.trans hs)
    omega
  · rw [hf', hunlimited', hsame' hkept]

/-- **Lock tracking comes to an end**: without a budget it makes at most one visit and, for each
edge of a reachable block, one more than there are locks in the table of the method. No budget of
that size or more degrades the method. -/
theorem Method.trackLocks_visits (m : Method) (hg : m.body.WellFormed) :
    ∃ s tagged, m.lockProblem.solveUnlimited = some s ∧ m.trackLocks none = .ok tagged ∧
      tagged.steps = s.steps ∧
      tagged.steps ≤ 1 + (m.lockTable.locks.length + 1) * m.body.liveEdges ∧
      ∀ budget, 1 + (m.lockTable.locks.length + 1) * m.body.liveEdges ≤ budget →
        m.trackLocks (some budget) = .ok tagged ∧
        ∀ hierarchy, (m.prepare hierarchy (some budget)).1.degraded = false := by
  obtain ⟨s, tagged, hs, htracked, hsteps, hbound, hbudget⟩ := exists_trackLocks hg
  refine ⟨s, tagged, hs, htracked, hsteps, hsteps ▸ hbound, fun budget hle => ?_⟩
  have hok : m.trackLocks (some budget) = .ok tagged := by rw [hbudget, if_pos (hbound.trans hle)]
  exact ⟨hok, fun hierarchy => by rw [prepare_of_ok hierarchy hok]⟩

theorem Method.trackLocks_visits_countingLoop :
    countingLoop.body.WellFormed ∧ countingLoop.lockTable.locks.length = 2 ∧
    countingLoop.body.liveEdges = 3 ∧
    ∃ tagged, countingLoop.trackLocks none = .ok tagged ∧ tagged.steps = 4 ∧ tagged.steps ≤ 10 ∧
      countingLoop.trackLocks (some 10) = .ok tagged := by
  have hlocks : countingLoop.lockTable.locks.length = 2 := by decide
  have hedges : countingLoop.body.liveEdges = 3 := by
    rw [FlowGraph.liveEdges_eq]
    decide
  obtain ⟨s, tagged, -, htracked, -, hbound, hbudget⟩ :=
    countingLoop.trackLocks_visits (by decide)
  rw [hlocks, hedges] at hbound hbudget
  have hvisits : (countingLoop.trackLocks none).toOption.map Tagged.steps = some 4 := by
    decide +kernel
  rw [htracked] at hvisits
  exact ⟨by decide, hlocks, hedges, tagged, htracked, Option.some_inj.1 hvisits, hbound,
    (hbudget 10 le_rfl).1⟩

/-- Lock tracking on numbers makes as many visits as lock tracking does. It gives up exactly under a
budget that does not allow for them. -/
theorem Method.trackLocks?_visits {m : Method} (h0 : 0 < m.body.size) (hg : m.body.WellFormed)
    (hm : m.body.Mirrored) :
    ∃ tagged, m.trackLocks? none = some (.ok tagged) ∧
      tagged.steps ≤ 1 + (m.lockTable.locks.length + 1) * m.body.liveEdges ∧
      ∀ budget, m.trackLocks? (some budget)
        = some (if tagged.steps ≤ budget then .ok tagged else .error ⟨budget⟩) := by
  obtain ⟨s, tagged, -, htracked, hsteps, hbound, hbudget⟩ := exists_trackLocks hg
  rw [← hsteps] at hbound hbudget
  refine ⟨tagged, ?_, hbound, fun budget => ?_⟩
  · rw [trackLocks?_eq_some h0 hg hm, htracked]
  · rw [trackLocks?_eq_some h0 hg hm, hbudget]

end Interlock
