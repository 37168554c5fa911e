import Interlock.Proofs.Solver
import Mathlib.Data.DFinsupp.WellFounded
import Mathlib.Order.Bounds.Basic
import Mathlib.Order.OrderIsoNat

/-!
# Solving without a limit

Where states cannot rise forever, the solver comes to an end without any limit on its
visits, even if no bound on the height of the states is known. It ends with the least
solution of the dataflow equations.

- `Problem.run_eq_of_le`, `Problem.runOut_of_run`: a run that leaves no block waiting is
  the same under every larger limit, and without a limit.
- `Problem.standing`: how far a block has come. A visit raises the standing of its block or
  shortens the worklist, which gives `Problem.exists_run_ends`.
- `Problem.IsLeastSolution`: what a solution says of every block.
- `Problem.HasMonotoneBlocks`: blocks that are monotone as a whole, or made from monotone
  operations.
- `Problem.solveUnlimited_least`: the solver without a limit.
- `Distance`: states that rise finitely often, but without a bound.
-/

namespace Interlock

namespace Problem

variable {Op D : Type} [JoinSemilattice D] [DecidableEq D]

/-! ## Runs that end -/

section Ends

variable {p : Problem Op D} {r : Progress D}

/-- A run starts with a visit to the first block that waits. -/
theorem run_succ {b : Nat} {rest : Worklist} (hpop : r.worklist.pop? = some (b, rest)) (n : Nat) :
    p.run (n + 1) r = p.run n (p.visit { r with worklist := rest } b) := by
  rw [run, hpop]

/-- It ends as soon as none waits. -/
theorem run_of_waiting_nil (h : r.worklist.waiting = []) (n : Nat) : p.run n r = r := by
  cases n with
  | zero => rfl
  | succ n => rw [run, Worklist.pop?_eq_none.2 h]

omit [DecidableEq D] in
theorem waiting_start_of_size_eq_zero (h : p.graph.size = 0) : p.start.worklist.waiting = [] := by
  rw [start, if_pos h]
  rfl

/-- A run that leaves no block waiting goes the same under every larger limit. -/
theorem run_eq_of_le {m n : Nat} (hmn : m ≤ n) (h : (p.run m r).worklist.waiting = []) :
    p.run n r = p.run m r := by
  induction m generalizing n r with
  | zero => exact run_of_waiting_nil h n
  | succ m ih =>
    obtain ⟨n, rfl⟩ : ∃ k, n = k + 1 := ⟨n - 1, by omega⟩
    cases hpop : r.worklist.pop? with
    | none =>
      have hnil := Worklist.pop?_eq_none.1 hpop
      rw [run_of_waiting_nil hnil, run_of_waiting_nil hnil]
    | some next =>
      obtain ⟨b, rest⟩ := next
      rw [run_succ hpop] at h
      rw [run_succ hpop, run_succ hpop]
      exact ih (by omega) h

/-- Two runs that leave no block waiting are the same. -/
theorem run_eq_run {m n : Nat} (hm : (p.run m r).worklist.waiting = [])
    (hn : (p.run n r).worklist.waiting = []) : p.run m r = p.run n r := by
  rcases Nat.le_total m n with hle | hle
  · exact (run_eq_of_le hle hm).symm
  · exact run_eq_of_le hle hn

/-- Without a limit, the visits go on to where a run with enough of them ends. -/
theorem runOut_of_run {n : Nat} (h : (p.run n r).worklist.waiting = []) :
    p.runOut r = some (p.run n r) := by
  induction n generalizing r with
  | zero =>
    have hnil : r.worklist.waiting = [] := h
    rw [runOut, Worklist.pop?_eq_none.2 hnil]
    rfl
  | succ n ih =>
    cases hpop : r.worklist.pop? with
    | none => rw [runOut, hpop, run_of_waiting_nil (Worklist.pop?_eq_none.1 hpop)]
    | some next =>
      obtain ⟨b, rest⟩ := next
      rw [run_succ hpop] at h ⊢
      rw [runOut, hpop]
      exact ih h

/-- A run that leaves no block waiting needs no larger limit than the visits that it made. -/
theorem exists_run_steps {n : Nat} (h : (p.run n r).worklist.waiting = []) :
    ∃ k, p.run k r = p.run n r ∧ (p.run n r).solution.steps = r.solution.steps + k := by
  induction n generalizing r with
  | zero => exact ⟨0, rfl, rfl⟩
  | succ n ih =>
    cases hpop : r.worklist.pop? with
    | none =>
      rw [run_of_waiting_nil (Worklist.pop?_eq_none.1 hpop)]
      exact ⟨0, rfl, rfl⟩
    | some next =>
      obtain ⟨b, rest⟩ := next
      rw [run_succ hpop] at h ⊢
      obtain ⟨k, hrun, hsteps⟩ := ih h
      refine ⟨k + 1, by rw [run_succ hpop, hrun], ?_⟩
      rw [hsteps, steps_visit]
      show r.solution.steps + 1 + k = r.solution.steps + (k + 1)
      omega

end Ends

/-! ## States that cannot rise forever -/

section Rising

variable [LawfulJoin D]

/-- How far a block has come: below every state until it is reached, then the state after it. -/
def standing (s : Solution D) (b : Nat) : WithBot D :=
  if s.isReached b then ((s.post[b]?.getD bottom : D) : WithBot D) else ⊥

omit [DecidableEq D] [LawfulJoin D] in
/-- An update leaves the standing of other blocks as it is. -/
theorem Updates.standing_of_ne {s s' : Solution D} {b : Nat} {d : D} (h : Updates s s' b d)
    {c : Nat} (hc : b ≠ c) : standing s' c = standing s c := by
  rw [standing, standing, h.isReached_of_ne hc, h.post_of_ne hc]

omit [DecidableEq D] in
/-- An update that reaches its block for the first time or raises the state after it raises the
standing of the block. -/
theorem Updates.standing_lt {s s' : Solution D} {b : Nat} {d : D} (h : Updates s s' b d)
    (hrises : s.isReached b → ∃ x, s.post[b]? = some x ∧ x < d) :
    standing s b < standing s' b := by
  rw [standing, standing, if_pos ((h.reached b).2 (.inl rfl)), h.post_self, Option.getD_some]
  by_cases hold : s.isReached b
  · obtain ⟨x, hx, hxd⟩ := hrises hold
    rw [if_pos hold, hx, Option.getD_some]
    exact WithBot.coe_lt_coe.2 hxd
  · rw [if_neg hold]
    exact WithBot.bot_lt_coe d

variable {p : Problem Op D} (hg : p.graph.WellFormed) (h0 : 0 < p.graph.size)

include hg h0

/-- A visit leaves every standing as it is and shortens the worklist, or it raises the standing of
its block and lowers none. -/
theorem visit_standing {r : Progress D} (h : p.Climbing r) {b : Nat} {rest : Worklist}
    (hpop : r.worklist.pop? = some (b, rest)) :
    ((∀ c, standing (p.visit { r with worklist := rest } b).solution c = standing r.solution c) ∧
      (p.visit { r with worklist := rest } b).worklist.waiting.length
        < r.worklist.waiting.length) ∨
    (b < p.graph.size ∧
      standing r.solution b < standing (p.visit { r with worklist := rest } b).solution b ∧
      ∀ c, standing r.solution c
        ≤ standing (p.visit { r with worklist := rest } b).solution c) := by
  have hwaiting : r.worklist.waiting = b :: rest.waiting := Worklist.pop?_eq_some hpop
  have hb : b < p.graph.size :=
    (h.waiting b (by rw [hwaiting]; exact List.mem_cons_self)).lt_size hg h0
  obtain ⟨-, -, heq⟩ | ⟨hnew, heq⟩ := p.visit_cases { r with worklist := rest } b
  · left
    rw [heq, hwaiting]
    exact ⟨fun _ => rfl, Nat.lt_succ_self _⟩
  · right
    rw [heq]
    have hupdates := updates_recordVisit r.solution (p.entryState r.solution b)
      (p.block b (p.entryState r.solution b)) (h.size_reached ▸ hb) (h.size_post ▸ hb)
    have hlt := hupdates.standing_lt fun hold => h.lt_of_changed hb hold fun hpost =>
      hnew ⟨hold, hpost⟩
    refine ⟨hb, hlt, fun c => ?_⟩
    by_cases hbc : b = c
    · exact hbc ▸ le_of_lt hlt
    · exact le_of_eq (hupdates.standing_of_ne hbc).symm

/-- If no state can rise forever, the visits come to an end. -/
theorem exists_run_ends [WellFoundedGT D] (hp : p.IsMonotone) {r : Progress D}
    (h : p.Climbing r) : ∃ n, (p.run n r).worklist.waiting = [] := by
  -- by the standings of all blocks and, while these stay, by the length of the worklist
  have hwf : WellFounded fun s t : Fin p.graph.size → (WithBot D)ᵒᵈ => s < t := wellFounded_lt
  generalize hs : (fun b : Fin p.graph.size => OrderDual.toDual (standing r.solution b)) = s
  induction s using hwf.induction generalizing r with
  | _ s raised =>
    generalize hk : r.worklist.waiting.length = k
    induction k using Nat.strongRecOn generalizing r with
    | _ k shortened =>
      cases hpop : r.worklist.pop? with
      | none => exact ⟨0, Worklist.pop?_eq_none.1 hpop⟩
      | some next =>
        obtain ⟨b, rest⟩ := next
        have hnext := visit_climbing hg h0 hp h hpop
        obtain ⟨n, hn⟩ : ∃ n, (p.run n (p.visit { r with worklist := rest } b)).worklist.waiting
            = [] := by
          rcases visit_standing hg h0 h hpop with ⟨hsame, hlength⟩ | ⟨hb, hlt, hle⟩
          · refine shortened _ (hk ▸ hlength) hnext ?_ rfl
            rw [← hs]
            exact funext fun c => congrArg _ (hsame c)
          · refine raised _ ?_ hnext rfl
            rw [← hs]
            exact Pi.lt_def.2 ⟨fun c => OrderDual.toDual_le_toDual.2 (hle c), ⟨b, hb⟩,
              OrderDual.toDual_lt_toDual.2 hlt⟩
        exact ⟨n + 1, by rw [run_succ hpop]; exact hn⟩

end Rising

/-! ## Blocks that are not reached -/

section Untouched

/-- The blocks below `n` that are not reached still have the bottom state before and after. -/
def Untouched (s : Solution D) (n : Nat) : Prop :=
  ∀ b < n, ¬ s.isReached b → s.pre[b]? = some bottom ∧ s.post[b]? = some bottom

omit [DecidableEq D] in
theorem start_untouched (p : Problem Op D) : Untouched p.start.solution p.graph.size := by
  intro b hb _
  simp [start, hb]

variable {p : Problem Op D}

/-- A visit changes no block but its own, which is reached from then on. -/
theorem visit_untouched (r : Progress D) (hsize : r.solution.reached.size = p.graph.size)
    (hr : Untouched r.solution p.graph.size) (b : Nat) :
    Untouched (p.visit r b).solution p.graph.size := by
  intro c hc hnot
  obtain ⟨hreached, -, heq⟩ | ⟨-, heq⟩ := p.visit_cases r b
  · rw [heq] at hnot ⊢
    have hbc : b ≠ c := by
      rintro rfl
      exact hnot hreached
    refine ⟨?_, (hr c hc hnot).2⟩
    show (r.solution.pre.setIfInBounds b (p.entryState r.solution b))[c]? = some bottom
    rw [Array.getElem?_setIfInBounds_ne hbc]
    exact (hr c hc hnot).1
  · rw [heq] at hnot ⊢
    have hbc : b ≠ c := by
      rintro rfl
      refine hnot ?_
      simp [recordVisit, Solution.isReached, hsize, hc]
    have hold : ¬ r.solution.isReached c := by
      intro hold
      refine hnot ?_
      simpa [recordVisit, Solution.isReached, Array.getElem?_setIfInBounds_ne hbc] using hold
    show (r.solution.pre.setIfInBounds b _)[c]? = some bottom ∧
      (r.solution.post.setIfInBounds b _)[c]? = some bottom
    rw [Array.getElem?_setIfInBounds_ne hbc, Array.getElem?_setIfInBounds_ne hbc]
    exact hr c hc hold

/-- So a whole run leaves the blocks untouched that it does not reach. -/
theorem run_untouched [LawfulJoin D] (hg : p.graph.WellFormed) (h0 : 0 < p.graph.size)
    (hp : p.IsMonotone) (n : Nat) {r : Progress D} (h : p.Climbing r)
    (hr : Untouched r.solution p.graph.size) : Untouched (p.run n r).solution p.graph.size := by
  induction n generalizing r with
  | zero => exact hr
  | succ n ih =>
    cases hpop : r.worklist.pop? with
    | none => rwa [run_of_waiting_nil (Worklist.pop?_eq_none.1 hpop)]
    | some next =>
      obtain ⟨b, rest⟩ := next
      rw [run_succ hpop]
      exact ih (visit_climbing hg h0 hp h hpop)
        (visit_untouched { r with worklist := rest } h.size_reached hr b)

end Untouched

/-! ## The least solution -/

section Least

variable [LawfulJoin D]

/-- `p.Incoming s b d`: the state before block `b` has to be above `d`, which is the seed, if `b` is
the entry, or what a feasible edge brings from the state after a reachable predecessor. -/
inductive Incoming (p : Problem Op D) (s : Solution D) (b : Nat) : D → Prop
  | start : Incoming p s b (if b = 0 then p.seed else bottom)
  | edge {a : Nat} {x y : D} : a ∈ p.graph.predecessors b → p.graph.Reachable a →
      s.post[a]? = some x → p.edge a b x = some y → Incoming p s b y

/-- `p.IsLeastSolution s`: exactly the blocks that a path leads to are reached. The state before
each of them is the join of what comes in and the state after is the effect of the block; other
families of states for which this holds as inequalities are above. All other blocks keep the bottom
state. -/
structure IsLeastSolution (p : Problem Op D) (s : Solution D) : Prop where
  sizes : s.pre.size = p.graph.size ∧ s.post.size = p.graph.size ∧ s.reached.size = p.graph.size
  reached : ∀ b < p.graph.size, s.reached[b]? = some true ↔ p.graph.Reachable b
  equations : ∀ b < p.graph.size, p.graph.Reachable b → ∃ x, s.pre[b]? = some x ∧
    IsLUB {d | p.Incoming s b d} x ∧ s.post[b]? = some (p.block b x)
  unreached : ∀ b < p.graph.size, ¬ p.graph.Reachable b →
    s.pre[b]? = some bottom ∧ s.post[b]? = some bottom
  least : ∀ pre post, p.Above pre post → ∀ b < p.graph.size, p.graph.Reachable b →
    ∀ x y, s.pre[b]? = some x → s.post[b]? = some y → x ≤ pre b ∧ y ≤ post b

omit [DecidableEq D] in
/-- The state before a block is the join of what comes in. -/
theorem Solves.isLUB_entryState {p : Problem Op D} {s : Solution D} (h : p.Solves s) (b : Nat) :
    IsLUB {d | p.Incoming s b d} (p.entryState s b) := by
  constructor
  · rintro d (_ | ⟨hpred, hreachable, hx, hy⟩)
    · exact (entryState_le_iff.1 (le_refl (p.entryState s b))).1
    · refine (entryState_le_iff.1 (le_refl (p.entryState s b))).2 _ hpred d ?_
      rw [brought, if_pos ((h.reached_iff _).2 hreachable), hx, Option.bind_some, hy]
  · intro d hd
    refine entryState_le_iff.2 ⟨hd .start, fun a ha y hy => hd ?_⟩
    rw [brought] at hy
    split at hy
    · next hreached =>
      obtain ⟨x, hx, hxy⟩ := Option.bind_eq_some_iff.1 hy
      exact .edge ha ((h.reached_iff a).1 hreached) hx hxy
    · cases hy

/-- A run that leaves no block waiting ends with the least solution. -/
theorem isLeastSolution_of_run {p : Problem Op D} (hg : p.graph.WellFormed)
    (hm : p.graph.Mirrored) (hp : p.IsMonotone) {n : Nat}
    (h : (p.run n p.start).worklist.waiting = []) :
    p.IsLeastSolution (p.run n p.start).solution := by
  rcases Nat.eq_zero_or_pos p.graph.size with hzero | h0
  · -- without blocks there is nothing to visit
    have hnone : ∀ {b}, ¬ b < p.graph.size := fun {b} => by omega
    rw [run_of_waiting_nil (waiting_start_of_size_eq_zero hzero)]
    exact { sizes := by simp [start]
            reached := fun b hb => absurd hb hnone
            equations := fun b hb => absurd hb hnone
            unreached := fun b hb => absurd hb hnone
            least := fun _ _ _ b hb => absurd hb hnone }
  · have hinv := run_invariant hg hm h0 hp n (start_invariant h0)
    have hsolves := solves_of_run hg hm h0 hp h
    have huntouched := run_untouched hg h0 hp n (start_invariant h0).toClimbing p.start_untouched
    refine { sizes := ⟨hinv.size_pre, hinv.size_post, hinv.size_reached⟩, reached := ?_,
             equations := ?_, unreached := ?_, least := ?_ }
    · intro b _
      rw [← hsolves.reached_iff b, Solution.isReached]
      cases (p.run n p.start).solution.reached[b]? <;> simp
    · intro b _ hb
      exact ⟨_, hsolves.pre_eq b hb, hsolves.isLUB_entryState b, hsolves.post_eq b hb⟩
    · intro b hb hnot
      exact huntouched b hb fun hreached => hnot ((hsolves.reached_iff b).1 hreached)
    · intro pre post habove b _ hb x y hx hy
      rw [hsolves.pre_eq b hb, Option.some_inj] at hx
      rw [hsolves.post_eq b hb, Option.some_inj] at hy
      have hle := entryState_run_le hg hm h0 hp n habove hb
      rw [← hx, ← hy]
      exact ⟨hle, le_trans (hp.block b hle) (habove.block b hb)⟩

/-- `p.FoldsOperations effect`: a block has the effects of its operations in turn, each of which may
depend on its place. -/
def FoldsOperations (p : Problem Op D) (effect : OpPos → Op → D → D) : Prop :=
  ∀ b d, p.block b d
    = (p.graph.operations b).zipIdx.foldl (fun d (op, i) => effect ⟨b, i⟩ op d) d

/-- Blocks are monotone as a whole, or made from monotone operations. -/
def HasMonotoneBlocks (p : Problem Op D) : Prop :=
  (∀ b, Monotone (p.block b)) ∨
    ∃ effect, (∀ pos op, Monotone (effect pos op)) ∧ p.FoldsOperations effect

omit [DecidableEq D] [JoinSemilattice D] [LawfulJoin D] in
theorem foldsOperations_ofOperations (graph : FlowGraph Op) (seed : D) (effect : Op → D → D)
    (edge : Nat → Nat → D → Option D) :
    (ofOperations graph seed effect edge).FoldsOperations fun _ => effect := by
  intro b d
  show runOperations effect (graph.operations b) d = _
  rw [runOperations, ← List.foldl_map (f := Prod.fst) (g := fun d op => effect op d),
    List.zipIdx_map_fst]
  rfl

omit [DecidableEq D] in
/-- Either way, blocks are monotone. -/
theorem HasMonotoneBlocks.monotone {p : Problem Op D} (h : p.HasMonotoneBlocks) (b : Nat) :
    Monotone (p.block b) := by
  rcases h with hblock | ⟨effect, hmono, hfolds⟩
  · exact hblock b
  · intro x y hxy
    rw [hfolds, hfolds]
    induction (p.graph.operations b).zipIdx generalizing x y with
    | nil => exact hxy
    | cons op ops ih => exact ih (hmono _ _ hxy)

/-- A larger state along an edge brings a larger state, and does not make the edge infeasible. -/
def HasMonotoneEdges (p : Problem Op D) : Prop :=
  ∀ a b {x y u : D}, x ≤ y → p.edge a b x = some u → ∃ v, p.edge a b y = some v ∧ u ≤ v

/-- **Least solution**: over states without infinite ascending chains, the solver without a limit
finds the least solution of a monotone problem. It makes as many visits as a limit has to allow for
the same answer; where the states have a bounded height, the bound on visits allows for them. -/
theorem solveUnlimited_least {p : Problem Op D} (hg : p.graph.WellFormed) (hm : p.graph.Mirrored)
    (hchains : ¬ ∃ chain : Nat → D, ∀ n, chain n < chain (n + 1))
    (hblocks : p.HasMonotoneBlocks) (hedges : p.HasMonotoneEdges) :
    ∃ s, p.solveUnlimited = some s ∧ p.IsLeastSolution s ∧
      (∀ limit, s.steps ≤ limit → p.solveWithin limit = .ok s) ∧
      ∀ [Height D] [LawfulHeight D], p.solve none = .ok s := by
  have hp : p.IsMonotone := ⟨fun b _ _ h => hblocks.monotone b h, hedges⟩
  -- to have no infinite ascending chain is to be well-founded upwards
  have hwf : WellFoundedGT D := ⟨wellFounded_iff_isEmpty_descending_chain.2
    ⟨fun chain => hchains ⟨chain.1, chain.2⟩⟩⟩
  obtain ⟨n, hn⟩ : ∃ n, (p.run n p.start).worklist.waiting = [] := by
    rcases Nat.eq_zero_or_pos p.graph.size with hzero | h0
    · exact ⟨0, waiting_start_of_size_eq_zero hzero⟩
    · exact exists_run_ends hg h0 hp (start_invariant h0).toClimbing
  refine ⟨(p.run n p.start).solution, ?_, isLeastSolution_of_run hg hm hp hn, ?_, ?_⟩
  · rw [solveUnlimited, runOut_of_run hn, Option.map_some]
  · intro limit hlimit
    obtain ⟨k, hrun, hsteps⟩ := exists_run_steps hn
    have hk : k ≤ limit := by
      have hstart : p.start.solution.steps = 0 := rfl
      omega
    have hlarger : p.run limit p.start = p.run n p.start := by
      rw [run_eq_of_le hk (hrun ▸ hn), hrun]
    exact solveWithin_eq_ok.2 ⟨hlarger ▸ hn, by rw [hlarger]⟩
  · intro _ _
    have hbound : (p.run p.visitBound p.start).worklist.waiting = [] := by
      rcases Nat.eq_zero_or_pos p.graph.size with hzero | h0
      · have hnil := waiting_start_of_size_eq_zero hzero
        rw [run_of_waiting_nil hnil]
        exact hnil
      · exact waiting_run_visitBound hg h0 hp
    exact solve_eq_ok.2 ⟨hbound, congrArg _ (run_eq_run hbound hn)⟩

end Least

end Problem

/-! ## Shortest distances -/

/-- How far a block is from the entry, if it can be reached. A shorter distance is above a longer
one: it can only rise finitely often, but there is no bound on how often. -/
structure Distance where
  length? : Option Nat
  deriving DecidableEq

namespace Distance

instance : JoinSemilattice Distance where
  bottom := ⟨none⟩
  join a b := ⟨a.length?.merge min b.length?⟩

instance : LawfulJoin Distance where
  join_assoc := by
    rintro ⟨_ | a⟩ ⟨_ | b⟩ ⟨_ | c⟩ <;> simp [join, Nat.min_assoc]
  join_comm := by
    rintro ⟨_ | a⟩ ⟨_ | b⟩ <;> simp [join, Nat.min_comm]
  join_self := by
    rintro ⟨_ | a⟩ <;> simp [join]
  bottom_join := by
    rintro ⟨_ | a⟩ <;> simp [join, bottom]

/-- A shorter distance is above a longer one, and a missing one is below all. -/
theorem le_iff {a b : Distance} :
    a ≤ b ↔ ∀ m, a.length? = some m → ∃ n, b.length? = some n ∧ n ≤ m := by
  obtain ⟨_ | m⟩ := a <;> obtain ⟨_ | n⟩ := b <;>
    simp [LawfulJoin.le_def, join, inf_eq_right]

/-- A distance that has been found can only get shorter, so it does not rise forever. -/
theorem not_rising (chain : Nat → Distance) : ¬ ∀ n, chain n < chain (n + 1) := by
  intro hrising
  -- by induction on a distance that the chain has: the next one is shorter
  have hnone : ∀ m n, (chain n).length? ≠ some m := by
    intro m
    induction m using Nat.strongRecOn with
    | _ m ih =>
      intro n hn
      obtain ⟨hle, hnot⟩ := lt_iff_le_not_ge.1 (hrising n)
      obtain ⟨k, hk, hkm⟩ := le_iff.1 hle m hn
      refine ih k (lt_of_le_of_ne hkm ?_) (n + 1) hk
      rintro rfl
      exact hnot (le_iff.2 fun l hl => ⟨k, hn, by simp_all⟩)
  refine (lt_iff_le_not_ge.1 (hrising 0)).2 (le_iff.2 fun m hm => ?_)
  exact absurd hm (hnone m 1)

/-- The distance after going on for a while. -/
def advance (cost : Nat) (d : Distance) : Distance := ⟨d.length?.map (· + cost)⟩

theorem monotone_advance (cost : Nat) : Monotone (advance cost) := by
  intro a b hab
  rw [le_iff] at hab ⊢
  intro m hm
  obtain ⟨k, hk, rfl⟩ := Option.map_eq_some_iff.1 hm
  obtain ⟨n, hn, hle⟩ := hab k hk
  exact ⟨n + cost, by simp [advance, hn], by omega⟩

/-- A distance goes along an edge unless it is above the range. -/
def within (range : Nat) (d : Distance) : Option Distance :=
  if d.length?.any (· ≤ range) then some d else none

/-- Distances from the entry, which is the head of a loop. The last block is not reached, and the
longer of the two ways to the block before it is out of range. -/
def detour : Problem Nat Distance :=
  .ofOperations
    (.ofBlocks [([1], [1, 2]), ([5], [3]), ([1, 1], [3, 3]), ([], [3, 0]), ([2], [3])])
    ⟨some 0⟩ advance fun _ _ => within 5

theorem within_eq_some {range : Nat} {d e : Distance} :
    within range d = some e ↔ d = e ∧ ∃ n, d.length? = some n ∧ n ≤ range := by
  rw [within, Option.ite_none_right_eq_some, Option.some_inj, Option.any_eq_true, and_comm]
  simp only [decide_eq_true_eq]

theorem hasMonotoneEdges_detour : detour.HasMonotoneEdges := by
  intro _ _ x y u hxy hx
  obtain ⟨rfl, m, hm, hrange⟩ := within_eq_some.1 hx
  obtain ⟨n, hn, hle⟩ := le_iff.1 hxy m hm
  exact ⟨y, within_eq_some.2 ⟨rfl, n, hn, le_trans hle hrange⟩, hxy⟩

end Distance

theorem Problem.solveUnlimited_least_detour :
    Distance.detour.graph.WellFormed ∧ Distance.detour.graph.Mirrored ∧
    (¬ ∃ chain : Nat → Distance, ∀ n, chain n < chain (n + 1)) ∧
    Distance.detour.HasMonotoneBlocks ∧ Distance.detour.HasMonotoneEdges ∧
    ∃ s, Distance.detour.solveUnlimited = some s ∧ Distance.detour.IsLeastSolution s ∧
      s.pre = #[⟨some 0⟩, ⟨some 1⟩, ⟨some 1⟩, ⟨some 3⟩, ⟨none⟩] := by
  have hm : Distance.detour.graph.Mirrored := FlowGraph.mirrored_ofBlocks _
  have hchains : ¬ ∃ chain : Nat → Distance, ∀ n, chain n < chain (n + 1) :=
    fun ⟨chain, h⟩ => Distance.not_rising chain h
  have hblocks : Distance.detour.HasMonotoneBlocks :=
    .inr ⟨_, fun _ => Distance.monotone_advance, foldsOperations_ofOperations _ _ _ _⟩
  obtain ⟨s, hs, hleast, -⟩ := solveUnlimited_least (by decide) hm hchains hblocks
    Distance.hasMonotoneEdges_detour
  refine ⟨by decide, hm, hchains, hblocks, Distance.hasMonotoneEdges_detour, s, hs, hleast, ?_⟩
  -- the solution is computed by a run that is long enough
  have hends : (Distance.detour.run 10 Distance.detour.start).worklist.waiting = [] := by decide
  rw [solveUnlimited, runOut_of_run hends, Option.map_some, Option.some_inj] at hs
  rw [← hs]
  decide

end Interlock
