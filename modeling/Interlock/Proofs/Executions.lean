import Interlock.Program.Text
import Interlock.Proofs.CallChains
import Interlock.Proofs.Convergence

/-!
# Executions and what summaries say of them

An access that may happen when a method is called: calls lead from the method to the
one that makes the access, and in each method on the way a path through its body leads
to the next call, or to the access itself. The locks and the thread of the access are
those that the path of each method and each call bring along. This says nothing of
lock tracking, rounds or budgets.

- `Program.exists_body_of_parse?`, `Program.mirrored_of_parse?`: what is known of bodies that were
  read from a text.
- `Program.Performs`: the accesses that may happen.
- `Method.Covers`: no access or call on a path is left out of the tags of a method, and
  none is tagged with a lock that is not held.
- `Session.exists_event`: each access that may happen is in the summary of the method,
  with no lock but those that are held.
-/

namespace Interlock

/-! ## Bodies read from a text -/

/-- What comes out of a list of partial answers is one of them. -/
theorem exists_of_mem_mapM {α β : Type} {f : α → Option β} {xs : List α} {ys : List β}
    (h : xs.mapM f = some ys) {y : β} (hy : y ∈ ys) : ∃ x ∈ xs, f x = some y := by
  induction xs generalizing ys with
  | nil =>
    obtain rfl : [] = ys := Option.some_inj.1 h
    cases hy
  | cons x xs ih =>
    rw [List.mapM_cons] at h
    obtain ⟨z, hz, h⟩ := Option.bind_eq_some_iff.1 h
    obtain ⟨zs, hzs, h⟩ := Option.bind_eq_some_iff.1 h
    obtain rfl : z :: zs = ys := Option.some_inj.1 h
    rcases List.mem_cons.1 hy with rfl | hy
    · exact ⟨x, List.mem_cons_self, hz⟩
    · obtain ⟨x', hx', hy⟩ := ih hzs hy
      exact ⟨x', List.mem_cons_of_mem x hx', hy⟩

namespace Decoder

variable {α : Type}

/-- A record that is read is built from some fields. -/
theorem exists_build_of_record {names : List String} {build : Place → Fields → Option α} {p : Place}
    {v : Json} {a : α} (h : record names build p v = some a) :
    ∃ q fields, build q fields = some a := by
  obtain ⟨q, -, h⟩ := Option.bind_eq_some_iff.1 h
  obtain ⟨fields, -, h⟩ := Option.bind_eq_some_iff.1 h
  exact ⟨q, fields, h⟩

theorem exists_value_of_required {value : Decoder α} {p : Place} {field : Option Json} {a : α}
    (h : required value p field = some a) : ∃ v, value p v = some a := by
  cases field with
  | none => cases h
  | some v => exact ⟨v, h⟩

/-- Every element of a list that is read was read by itself. -/
theorem exists_item_of_list {item : Decoder α} {p : Place} {v : Json} {l : List α}
    (h : list item p v = some l) {a : α} (ha : a ∈ l) : ∃ q v, item q v = some a := by
  cases v with
  | arr items =>
    obtain ⟨q, -, h⟩ := Option.bind_eq_some_iff.1 h
    obtain ⟨v, -, hv⟩ := exists_of_mem_mapM h ha
    exact ⟨q, v, hv⟩
  | _ => cases h

/-- So was every element of a list that may be left out. -/
theorem exists_item_of_withDefault {item : Decoder α} {p : Place} {field : Option Json} {l : List α}
    (h : withDefault (list item) [] p field = some l) {a : α} (ha : a ∈ l) :
    ∃ q v, item q v = some a := by
  cases field with
  | none =>
    obtain rfl : [] = l := Option.some_inj.1 h
    cases ha
  | some v => exact exists_item_of_list h ha

end Decoder

theorem FlowGraph.exists_blocks_of_decoder {p : Place} {v : Json} {g : FlowGraph Operation}
    (h : decoder p v = some g) :
    ∃ blocks, g = ofBlocks blocks ∧ ∀ b ∈ blocks, ∃ q v, Block.decoder q v = some b := by
  obtain ⟨q, fields, h⟩ := Decoder.exists_build_of_record h
  split at h
  · obtain ⟨blocks, hblocks, rfl⟩ := Option.map_eq_some_iff.1 h
    obtain ⟨v, hv⟩ := Decoder.exists_value_of_required hblocks
    exact ⟨blocks, rfl, fun b hb => Decoder.exists_item_of_list hv hb⟩
  · cases h

/-- The body of a method that is read was read by itself. -/
theorem Method.exists_body_of_decoder {p : Place} {v : Json} {m : Method}
    (h : decoder p v = some m) : ∃ q v, FlowGraph.decoder q v = some m.body := by
  obtain ⟨q, fields, h⟩ := Decoder.exists_build_of_record h
  split at h
  · obtain ⟨id, -, h⟩ := Option.bind_eq_some_iff.1 h
    obtain ⟨name, -, h⟩ := Option.bind_eq_some_iff.1 h
    obtain ⟨declaringClass, -, h⟩ := Option.bind_eq_some_iff.1 h
    obtain ⟨body, hbody, h⟩ := Option.bind_eq_some_iff.1 h
    obtain ⟨annotations, -, h⟩ := Option.bind_eq_some_iff.1 h
    obtain rfl := Option.some_inj.1 h
    exact ⟨q, Decoder.exists_value_of_required hbody⟩
  · cases h

/-- Every body of a program that was read from a text was read by itself. -/
theorem Program.exists_body_of_parse? {text : String} {program : Program}
    (h : parse? text = some program) {m : Method} (hm : m ∈ program.methods) :
    ∃ q v, FlowGraph.decoder q v = some m.body := by
  obtain ⟨v, -, h⟩ := Option.bind_eq_some_iff.1 h
  obtain ⟨q, fields, h⟩ := Decoder.exists_build_of_record h
  split at h
  · obtain ⟨classes, -, h⟩ := Option.bind_eq_some_iff.1 h
    obtain ⟨methods, hmethods, h⟩ := Option.bind_eq_some_iff.1 h
    obtain rfl := Option.some_inj.1 h
    obtain ⟨q, v, hv⟩ := Decoder.exists_item_of_withDefault hmethods hm
    exact Method.exists_body_of_decoder hv
  · cases h

/-- In a body that was read from a text, predecessors mirror successors. -/
theorem Program.mirrored_of_parse? {text : String} {program : Program}
    (h : parse? text = some program) {m : Method} (hm : m ∈ program.methods) : m.body.Mirrored := by
  obtain ⟨q, v, hbody⟩ := exists_body_of_parse? h hm
  obtain ⟨blocks, hblocks, -⟩ := FlowGraph.exists_blocks_of_decoder hbody
  rw [hblocks]
  exact FlowGraph.mirrored_ofBlocks blocks

/-! ## Accepted methods -/

theorem Intake.mem_of_mem_unique {methods : List Method} {m : Method}
    (h : m ∈ (Intake.of methods).unique) : m ∈ methods := by
  have hfold : ∀ (methods : List Method) (intake : Intake),
      m ∈ (methods.foldl Intake.add intake).unique → m ∈ intake.unique ∨ m ∈ methods := by
    intro methods
    induction methods with
    | nil => exact fun intake h => .inl h
    | cons n methods ih =>
      intro intake h
      rcases ih _ h with hunique | hrest
      · rw [Intake.add] at hunique
        split at hunique
        · exact .inl hunique
        · rcases List.mem_append.1 hunique with hunique | hnew
          · exact .inl hunique
          · exact .inr (List.mem_singleton.1 hnew ▸ List.mem_cons_self)
      · exact .inr (List.mem_cons_of_mem n hrest)
  exact (hfold methods {} h).resolve_left List.not_mem_nil

/-- A block without a fault leads to existing blocks only. -/
theorem Method.lt_size_of_blockFault? {m : Method} {known : List MethodId} {b s : Nat}
    (h : m.blockFault? known b = none) (hs : s ∈ m.body.successors b) : s < m.body.size := by
  rw [blockFault?] at h
  split at h
  · cases h
  · next hfind =>
    have hnot := List.find?_eq_none.1 hfind s hs
    simpa using hnot

/-- For the checks of a method it matters which methods are known, not in which order. -/
theorem Method.fault?_congr {known known' : List MethodId} (h : ∀ m, m ∈ known ↔ m ∈ known')
    (m : Method) : m.fault? known = m.fault? known' := by
  have hblock : m.blockFault? known = m.blockFault? known' := by
    funext b
    simp only [blockFault?, h]
  rw [fault?, fault?, hblock]

/-- A method that passes the checks has an entry, and every edge of its body leads to a block. -/
theorem Method.wellFormed_of_fault? {m : Method} {known : List MethodId}
    (h : m.fault? known = none) : 0 < m.body.size ∧ m.body.WellFormed := by
  rw [fault?] at h
  split at h
  · cases h
  · next hsize =>
    refine ⟨Nat.pos_of_ne_zero hsize, fun block hblock s hs => ?_⟩
    obtain ⟨b, hb, rfl⟩ := Array.getElem_of_mem hblock
    have hfault := List.findSome?_eq_none_iff.1 h b (List.mem_range.2 hb)
    refine Method.lt_size_of_blockFault? hfault ?_
    rw [FlowGraph.successors, Array.getElem?_eq_getElem hb]
    exact hs

namespace Program

variable {program : Program} {m : Method}

theorem mem_methods_of_accepted (h : m ∈ program.accepted) : m ∈ program.methods :=
  Intake.mem_of_mem_unique (List.mem_filter.1 h).1

/-- So has every accepted method. -/
theorem wellFormed_of_accepted (h : m ∈ program.accepted) :
    0 < m.body.size ∧ m.body.WellFormed :=
  Method.wellFormed_of_fault? (Option.isNone_iff_eq_none.1 (List.mem_filter.1 h).2)

end Program

/-! ## Accesses that may happen -/

/-- The classes of a program. -/
def Program.hierarchy (program : Program) : Hierarchy :=
  .of program.classes (Intake.of program.methods).unique

/-- An access as it may happen when a method is called. -/
structure PerformedAccess where
  path : AccessPath
  kind : AccessKind
  /-- The locks held when it happens. -/
  locks : Set LockId
  /-- Where it may run. -/
  thread : ThreadContext

/-- `program.Performs m a`: a call of `m` may perform the access `a`. A path through the body of `m`
leads to the access, or to a call of a method that may perform it. Along with the locks held on the
path there are those that are known to be held throughout the call. -/
inductive Program.Performs (program : Program) : Method → PerformedAccess → Prop
  | access {m : Method} {p : List Nat} {pos : OpPos} {op : Operation} {target : AccessExpr}
      {kind : AccessKind} {path : AccessPath} :
      m ∈ program.accepted → m.body.Path p pos.block →
      (m.body.operations pos.block)[pos.op]? = some op →
      op.action.target? = some (target, kind) → target.resolve = .path path →
      Performs program m ⟨path, kind, m.heldOnPath p pos, program.hierarchy.classify m⟩
  | call {m callee : Method} {p : List Nat} {pos : OpPos} {line : UInt32}
      {locksHeld : List LockExpr} {a : PerformedAccess} :
      m ∈ program.accepted → m.body.Path p pos.block →
      (m.body.operations pos.block)[pos.op]? = some ⟨line, .call callee.id locksHeld⟩ →
      Performs program callee a →
      Performs program m ⟨a.path, a.kind,
        m.heldOnPath p pos ∪ {l | ∃ e ∈ locksHeld, e.resolve? = some l} ∪ a.locks,
        join (program.hierarchy.classify m) a.thread⟩

/-! ## Tags cover the paths of a method -/

namespace Method

variable {m : Method}

/-- `m.Covers tagged`: every access and call on a path through the body is among the tagged ones,
with no lock but those that are held on the path or throughout the call. -/
structure Covers (m : Method) (tagged : Tagged) : Prop where
  access : ∀ {p pos op access}, m.body.Path p pos.block →
    (m.body.operations pos.block)[pos.op]? = some op →
    (m.itemAt? pos op).bind Item.access? = some access →
    ∃ a ∈ tagged.accesses, a.access = access ∧ ∀ l ∈ a.locks, l ∈ m.heldOnPath p pos
  call : ∀ {p pos op call}, m.body.Path p pos.block →
    (m.body.operations pos.block)[pos.op]? = some op →
    (m.itemAt? pos op).bind Item.call? = some call →
    ∃ c ∈ tagged.calls, c.call = call ∧
      ∀ l ∈ c.locks, l ∈ m.heldOnPath p pos ∨ l ∈ op.action.callLocks

/-- The tags of lock tracking cover the paths, whatever the budget was. -/
theorem covers_trackLocks (h0 : 0 < m.body.size) (hg : m.body.WellFormed) (hm : m.body.Mirrored)
    {budget : Option Nat} {tagged : Tagged} (h : m.trackLocks budget = .ok tagged) :
    m.Covers tagged := by
  -- what is held on every path is held on this one
  refine ⟨fun {p pos op access} hp hop hitem => ?_, fun {p pos op call} hp hop hitem => ?_⟩
  · obtain ⟨a, ha, haccess, hlocks⟩ := exists_tracked_access h0 hg hm h hop ⟨p, hp⟩ hitem
    refine ⟨a, ha, haccess, fun l hl => ?_⟩
    have hheld : l ∈ m.alwaysHeld pos := hlocks ▸ hl
    exact hheld p hp
  · obtain ⟨c, hc, hcall, hlocks⟩ := exists_tracked_call h0 hg hm h hop ⟨p, hp⟩ hitem
    refine ⟨c, hc, hcall, fun l hl => ?_⟩
    have hheld : l ∈ m.alwaysHeld pos ∪ {l | l ∈ op.action.callLocks} := hlocks ▸ hl
    exact Or.imp_left (fun hl => hl p hp) hheld

/-- So do the tags that assume no lock is held: they leave out nothing. -/
theorem covers_assumeNoLocks (m : Method) : m.Covers m.assumeNoLocks where
  access _ hop hitem := ⟨_, mem_assumeNoLocks_accesses hop hitem, rfl,
    fun l hl => absurd hl (SortedSet.not_mem_empty l)⟩
  call _ hop hitem := ⟨_, mem_assumeNoLocks_calls hop hitem, rfl,
    fun l hl => absurd hl (SortedSet.not_mem_empty l)⟩

theorem covers_prepare (h0 : 0 < m.body.size) (hg : m.body.WellFormed) (hm : m.body.Mirrored)
    (hierarchy : Hierarchy) (budget : Option Nat) :
    m.Covers (m.prepare hierarchy budget).1.tagged := by
  rcases m.prepare_tagged hierarchy budget with htrack | hassume
  · exact covers_trackLocks h0 hg hm htrack
  · rw [hassume]
    exact m.covers_assumeNoLocks

/-- An operation that reads or writes a place with a path is an access. -/
theorem itemAt?_of_target? {pos : OpPos} {op : Operation} {target : AccessExpr} {kind : AccessKind}
    {path : AccessPath} (htarget : op.action.target? = some (target, kind))
    (hpath : target.resolve = .path path) :
    (m.itemAt? pos op).bind Item.access? = some ⟨path, kind, m.locationOf pos op⟩ := by
  rw [itemAt?]
  split
  · next hcall =>
    rw [hcall] at htarget
    cases htarget
  · rw [htarget]
    dsimp only
    rw [hpath]
    rfl

end Method

/-! ## From executions to summaries -/

/-- An access that may happen is at the end of a call chain with no lock but those that are held. -/
theorem Program.Performs.callChain {program : Program} (config : Config)
    (hmirrored : ∀ m ∈ program.methods, m.body.Mirrored) {done : MethodId → Prop}
    (hdone : ∀ m ∈ program.accepted, done m.id) {m : Method} {a : PerformedAccess}
    (h : program.Performs m a) : ∃ key locks,
      CallChain (Session.of program config).facts done m.id key locks ∧
        key.path = a.path ∧ key.kind = a.kind ∧ key.thread = a.thread ∧ locks ⊆ a.locks := by
  -- what the session has recorded of an accepted method
  have hrecorded : ∀ m ∈ program.accepted, ∃ f,
      (Session.of program config).facts.get? m.id = some f ∧
      f.thread = program.hierarchy.classify m ∧ m.Covers f.tagged := by
    intro m hm
    obtain ⟨h0, hg⟩ := wellFormed_of_accepted hm
    exact ⟨_, Session.get?_facts_of_accepted _ hm, m.prepare_thread _ _,
      Method.covers_prepare h0 hg (hmirrored m (mem_methods_of_accepted hm)) _ _⟩
  induction h with
  | @access m p pos op target kind path hm hp hop htarget hpath =>
    obtain ⟨f, hf, hthread, hcovers⟩ := hrecorded m hm
    obtain ⟨t, ht, haccess, hlocks⟩ :=
      hcovers.access hp hop (Method.itemAt?_of_target? htarget hpath)
    refine ⟨_, _, .access hf (hdone m hm) ht, ?_, ?_, hthread, hlocks⟩
    · rw [haccess]
    · rw [haccess]
  | @call m callee p pos line locksHeld a hm hp hop _ ih =>
    obtain ⟨f, hf, hthread, hcovers⟩ := hrecorded m hm
    obtain ⟨key, locks, hchain, hpath, hkind, hcontext, hsubset⟩ := ih
    obtain ⟨c, hc, hcall, hlocks⟩ := hcovers.call hp hop
      (show _ = some (⟨callee.id, m.locationOf pos ⟨line, .call callee.id locksHeld⟩⟩ : CallSite)
        from rfl)
    have hcallee : c.call.callee = callee.id := by rw [hcall]
    rw [← hcallee] at hchain
    refine ⟨_, _, .call hf (hdone m hm) hc hchain, hpath, hkind, ?_, ?_⟩
    · show join f.thread key.thread = _
      rw [hthread, hcontext]
    · -- locks of a call are held on the path or known at the call; the others come from the callee
      refine Set.union_subset_union (fun l hl => ?_) hsubset
      rcases hlocks l hl with hheld | hknown
      · exact .inl hheld
      · exact .inr (List.mem_filterMap.1 hknown)

namespace Session

variable {program : Program} {config : Config}

/-- Without a given cap on rounds, every accepted method has a finished summary. -/
theorem done_of_accepted (hmax : config.maxFixpointRounds = none) {m : Method}
    (hm : m ∈ program.accepted) :
    (Session.of program config).builder.Done (Session.of program config).store m.id := by
  have hk : (Session.of program config).builder.facts.Keyed := keyed_facts program config
  have hmax : (Session.of program config).builder.maxRounds = none := by
    show config.maxFixpointRounds.map UInt64.toNat = none
    rw [hmax, Option.map_none]
  obtain ⟨c, hc⟩ := CallGraph.exists_componentOf?_iff.2 ⟨_, get?_facts_of_accepted config hm⟩
  obtain ⟨out, hout, -⟩ := Builder.compute_converges hk rfl (fun _ _ => placed_of_get?_facts) hmax
    (CallGraph.componentOf?_lt hk hc) (Session.of program config).store
  have hget := (get?_store program config (CallGraph.componentOf?_lt hk hc)).trans
    (congrArg some hout)
  obtain ⟨-, s, -, -, -, hs⟩ :=
    Builder.done_of_component hk rfl (fun _ => get?_store program config) hc hget
  exact ⟨s, (Builder.finished?_of_component hget hc).trans hs⟩

/-- **Summaries cover executions**: each access that a method may perform is in its summary, with no
lock but those that are held. -/
theorem exists_event (hmirrored : ∀ m ∈ program.methods, m.body.Mirrored)
    (hmax : config.maxFixpointRounds = none) {m : Method} {a : PerformedAccess}
    (h : program.Performs m a) : ∃ s,
      (Session.of program config).builder.finished? (Session.of program config).store m.id
          = some s ∧
        ∃ e ∈ s.accesses, e.path = a.path ∧ e.kind = a.kind ∧ e.thread = a.thread ∧
          e.owner = m.id ∧ ∀ l ∈ e.locks, l ∈ a.locks := by
  obtain ⟨key, locks, hchain, hpath, hkind, hthread, hsubset⟩ :=
    h.callChain config hmirrored fun m hm => done_of_accepted hmax hm
  obtain ⟨s, hs⟩ := hchain.done_start
  have hmeet := isMeetOverChains hs
  obtain ⟨e, he, rfl⟩ := (hmeet.keys key).2 ⟨locks, hchain⟩
  obtain ⟨f, hf, rfl⟩ := eq_summarize hs
  refine ⟨_, hs, e, he, hpath, hkind, hthread, ?_, fun l hl => hsubset ?_⟩
  · rw [(Summary.summarize_isOf f _).owner e he]
    exact keyed_facts program config m.id f hf
  · -- the event has the locks common to all chains with its key, this one among them
    have hmem : l ∈ {l | l ∈ e.locks} := hl
    rw [hmeet.locks e he] at hmem
    exact hmem locks hchain

end Session

end Interlock
