import Interlock.Config
import Interlock.Proofs.Executions
import Interlock.Proofs.Json.Decoding
import Interlock.Proofs.Json.Values

/-!
# Written programs are read back

The JSON form of a program is read back as the program, whatever its texts and numbers,
as long as its predecessor lists are the ones that follow from its successor lists: they
are not written.

- `Operation.reads`, `FlowGraph.reads`, `Program.reads`: the JSON forms are read back.
- `Program.Writable`: the programs that a text can stand for.
- `parse?_render`: reading undoes writing, for programs and settings.
-/

namespace Interlock

/-! ## Expressions -/

theorem Base.reads (b : Base) : Base.decoder.Reads 1 b.toJson b := by
  cases b with
  | receiver => exact .union rfl rfl (by decide) (by simp) fun q _ => rfl
  | localVar name =>
    exact .union rfl rfl (by decide) (by simp [Json.within_ofString]) fun q _ => rfl
  | static className =>
    exact .union rfl rfl (by decide) (by simp [Json.within_ofString]) fun q _ => rfl
  | unresolved => exact .union rfl rfl (by decide) (by simp) fun q _ => rfl

theorem Selector.reads (s : Selector) : Selector.decoder.Reads 1 s.toJson s := by
  cases s with
  | field className name =>
    exact .union rfl rfl (by decide) (by simp [Json.within_ofString]) fun q _ => rfl
  | element => exact .union rfl rfl (by decide) (by simp) fun q _ => rfl

/-- An expression is read back with its selectors. -/
theorem AccessExpr.reads (e : AccessExpr) : AccessExpr.decoder.Reads 3 e.toJson e := by
  have hbase := e.base.reads.mono (Nat.le_succ 1)
  have hselectors := Decoder.Reads.list fun s (_ : s ∈ e.selectors) => s.reads
  refine .record rfl (by decide) (by simp [hbase.toWithin, hselectors.toWithin]) fun q hq => ?_
  simp [Decoder.required, Decoder.withDefault, hbase.eq_some q hq, hselectors.eq_some q hq]

theorem LockExpr.reads (l : LockExpr) : LockExpr.decoder.Reads 4 l.toJson l := by
  cases l with
  | receiver => exact .union rfl rfl (by decide) (by simp) fun q _ => rfl
  | field target =>
    refine .union rfl rfl (by decide) (by simp [target.reads.toWithin]) fun q hq => ?_
    simp [Decoder.required, target.reads.eq_some q hq]
  | ofClass name =>
    exact .union rfl rfl (by decide) (by simp [(Json.within_ofString name).mono]) fun q _ => rfl

/-- What is written for a lock is never taken for a missing one. -/
theorem LockExpr.toJson_ne_null (l : LockExpr) : l.toJson ≠ .null := by
  cases l <;> exact fun h => nomatch h

/-! ## Operations and control-flow graphs -/

theorem MethodId.reads (m : MethodId) : MethodId.decoder.Reads 0 m.toJson m where
  toWithin := (Decoder.reads_uint32 m.val).toWithin
  eq_some p hp := by
    show (Decoder.uint32 p m.toJson).map MethodId.mk = some m
    rw [MethodId.toJson, (Decoder.reads_uint32 m.val).eq_some p hp, Option.map_some]

/-- An action with one field is read back, if the field is. -/
theorem Action.reads_caseOf {α : Type} {tag name : String} {value : Decoder α} {build : α → Action}
    {cases : List (Decoder.Case Action)} {v : Json} {a : α} (h : value.Reads 5 v a)
    (hcase : cases.find? (·.tag = tag) = some (caseOf tag name value build)) (hname : "op" ≠ name) :
    (Decoder.union "op" cases).Reads 6 (.tagged "op" tag [(name, v)]) (build a) := by
  refine .union hcase rfl (by simpa [caseOf] using hname) (by simpa using h.toWithin) fun q hq => ?_
  simp [caseOf, Decoder.required, h.eq_some q hq]

/-- An action is read back from its members, the tag among them. -/
theorem Action.reads (a : Action) : Action.decoder.Reads 6 (.ofMembers a.members) a := by
  cases a with
  | read target => exact reads_caseOf (target.reads.mono (by decide)) rfl (by decide)
  | write target => exact reads_caseOf (target.reads.mono (by decide)) rfl (by decide)
  | acquire lock => exact reads_caseOf (lock.reads.mono (by decide)) rfl (by decide)
  | release lock => exact reads_caseOf (lock.reads.mono (by decide)) rfl (by decide)
  | call callee locksHeld =>
    have hcallee := callee.reads.mono (n := 5) (by decide)
    have hlocks := Decoder.Reads.list fun l (_ : l ∈ locksHeld) => l.reads
    refine .union rfl rfl (by decide) (by simp [hcallee.toWithin, hlocks.toWithin]) fun q hq => ?_
    simp [Decoder.required, Decoder.withDefault, hcallee.eq_some q hq, hlocks.eq_some q hq]
  | nop => exact .union rfl rfl (by decide) (by simp) fun q _ => rfl

/-- No action has a member named like the line. -/
theorem Action.nodup_names (a : Action) (line : Json) :
    ((("line", line) :: a.members).map Prod.fst).Nodup := by
  cases a <;> simp [members]

/-- An operation is read back: its line at once, its action from the other members. -/
theorem Operation.reads (op : Operation) : Operation.decoder.Reads 6 op.toJson op := by
  have hline := Decoder.reads_uint32 op.line
  have haction := op.action.reads
  have hmembers := Json.within_ofMembers.1 haction.toWithin
  refine ⟨Json.within_ofMembers_cons.2 ⟨hline.toWithin.mono (by decide), haction.toWithin⟩,
    fun p hp => ?_⟩
  -- the line is picked out, and what is left is read as the action in the same place
  obtain ⟨q, henter, hq⟩ := Place.exists_enter? hp
  have hnodup := op.action.nodup_names (.ofNat op.line.toNat)
  have hsingle := Decoder.single?_of_mem hnodup List.mem_cons_self
  rw [Operation.toJson, Json.ofMembers, Operation.decoder, henter]
  simp only [Option.bind_eq_bind, Option.bind_some, Decoder.keysAreText_map, hsingle, guard,
    if_true, Decoder.others_cons (List.nodup_cons.1 hnodup).1, Decoder.all_canKeep hmembers hq]
  show ((Decoder.uint32 q (.ofNat op.line.toNat)).bind fun line =>
    (Action.decoder p.keep (.ofMembers op.action.members)).bind fun action =>
      some ({ line, action } : Operation)) = some op
  rw [hline.eq_some q (Nat.zero_le _), haction.eq_some p.keep hp]
  rfl

/-- A block is read back without its predecessors. -/
theorem Block.reads {b : Block Operation} (h : ∀ s ∈ b.successors, s < UInt64.size) :
    Block.decoder.Reads 8 b.toJson (b.operations, b.successors) := by
  have hoperations := Decoder.Reads.list fun op (_ : op ∈ b.operations) => op.reads
  have hnumber : ∀ s ∈ b.successors, Decoder.uint64.Reads 6 (.ofNat s) (.ofNat s) := by
    intro s hs
    have hread := Decoder.reads_uint64 (.ofNat s)
    rw [UInt64.toNat_ofNat_of_lt' (h s hs)] at hread
    exact hread.mono (by decide)
  have hsuccessors := Decoder.Reads.list_map hnumber
  -- numbers below the bound survive the way to 64 bits and back
  have hback : (b.successors.map UInt64.ofNat).map UInt64.toNat = b.successors := by
    rw [List.map_map]
    have hid := List.map_congr_left fun s hs => UInt64.toNat_ofNat_of_lt' (h s hs)
    exact hid.trans (List.map_id' _)
  have hwithin := And.intro hoperations.toWithin hsuccessors.toWithin
  refine .record rfl (by decide) (by simpa using hwithin) fun q hq => ?_
  simp [Decoder.withDefault, hoperations.eq_some q hq, hsuccessors.eq_some q hq, hback]

/-- The successors that are read are numbers of 64 bits. -/
theorem Block.lt_of_decoder {p : Place} {v : Json} {b : List Operation × List Nat}
    (h : Block.decoder p v = some b) {s : Nat} (hs : s ∈ b.2) : s < UInt64.size := by
  obtain ⟨q, fields, h⟩ := Decoder.exists_build_of_record h
  split at h
  · obtain ⟨operations, -, h⟩ := Option.bind_eq_some_iff.1 h
    obtain ⟨successors, -, h⟩ := Option.bind_eq_some_iff.1 h
    obtain rfl := Option.some_inj.1 h
    obtain ⟨n, -, rfl⟩ := List.mem_map.1 hs
    exact n.toNat_lt_size
  · cases h

namespace FlowGraph

/-- The graphs that a text can stand for: predecessors follow from successors, and those are numbers
of 64 bits. -/
structure Writable (g : FlowGraph Operation) : Prop where
  derived : g.Derived
  successors_lt : ∀ b ∈ g.blocks, ∀ s ∈ b.successors, s < UInt64.size

/-- A graph is read back with its predecessors. -/
theorem reads {g : FlowGraph Operation} (h : g.Writable) : decoder.Reads 10 g.toJson g := by
  have hblocks := Decoder.Reads.list_map fun b (hb : b ∈ g.blocks.toList) =>
    Block.reads (h.successors_lt b (Array.mem_toList_iff.1 hb))
  refine .record rfl (by decide) (by simp [hblocks.toWithin]) fun q hq => ?_
  simp [Decoder.required, hblocks.eq_some q hq, ← h.derived.eq_ofBlocks]

/-- A graph that was read is one that a text can stand for. -/
theorem writable_of_decoder {p : Place} {v : Json} {g : FlowGraph Operation}
    (h : decoder p v = some g) : g.Writable := by
  obtain ⟨blocks, rfl, hblocks⟩ := exists_blocks_of_decoder h
  refine ⟨derived_ofBlocks blocks, fun b hb s hs => ?_⟩
  obtain ⟨i, hi, rfl⟩ := List.mem_mapIdx.1 (List.mem_toArray.1 hb)
  obtain ⟨q, v, hv⟩ := hblocks _ (List.getElem_mem hi)
  exact Block.lt_of_decoder hv hs

end FlowGraph

/-! ## Methods, classes, programs -/

theorem MethodAnnotations.reads (a : MethodAnnotations) :
    MethodAnnotations.decoder.Reads 5 a.toJson a := by
  have hguard := Decoder.Reads.optional LockExpr.toJson_ne_null LockExpr.reads a.guardedBy
  have hflag (b : Bool) := (Decoder.reads_bool b).mono (Nat.zero_le 4)
  refine .record rfl (by decide) (by simp [hguard.toWithin, (hflag _).toWithin]) fun q hq => ?_
  simp [Decoder.withDefault, hguard.eq_some q hq, (hflag _).eq_some q hq]

/-- A method is read back, if its body is. -/
theorem Method.reads {m : Method} (h : m.body.Writable) : Method.decoder.Reads 11 m.toJson m := by
  have hid := m.id.reads.mono (Nat.zero_le 10)
  have htext (s : String) := (Decoder.reads_string s).mono (Nat.zero_le 10)
  have hbody := FlowGraph.reads h
  have hannotations := m.annotations.reads.mono (n := 10) (by decide)
  refine .record rfl (by decide) (by simp [hid.toWithin, (htext _).toWithin, hbody.toWithin,
    hannotations.toWithin]) fun q hq => ?_
  simp [Decoder.required, Decoder.withDefault, hid.eq_some q hq, (htext _).eq_some q hq,
    hbody.eq_some q hq, hannotations.eq_some q hq]

theorem ClassAnnotations.reads (a : ClassAnnotations) :
    ClassAnnotations.decoder.Reads 1 a.toJson a := by
  have hflag := Decoder.reads_bool
  refine .record rfl (by decide) (by simp [(hflag _).toWithin]) fun q hq => ?_
  simp [Decoder.withDefault, (hflag _).eq_some q hq]

theorem ClassDecl.reads (c : ClassDecl) : ClassDecl.decoder.Reads 2 c.toJson c := by
  have hname := (Decoder.reads_string c.name).mono (Nat.zero_le 1)
  have hsuper := Decoder.Reads.list fun s (_ : s ∈ c.superclasses) => Decoder.reads_string s
  have hannotations := c.annotations.reads
  refine .record rfl (by decide) (by simp [hname.toWithin, hsuper.toWithin,
    hannotations.toWithin]) fun q hq => ?_
  simp [Decoder.required, Decoder.withDefault, hname.eq_some q hq, hsuper.eq_some q hq,
    hannotations.eq_some q hq]

namespace Program

/-- The programs that a text can stand for. -/
def Writable (p : Program) : Prop := ∀ m ∈ p.methods, m.body.Writable

/-- A program is read back, if its bodies are. -/
theorem reads {p : Program} (h : p.Writable) : decoder.Reads 13 p.toJson p := by
  have hclasses := Decoder.Reads.list fun c (_ : c ∈ p.classes) => c.reads
  replace hclasses := hclasses.mono (n := 12) (by decide)
  have hmethods := Decoder.Reads.list fun m (hm : m ∈ p.methods) => Method.reads (h m hm)
  refine .record rfl (by decide) (by simp [hclasses.toWithin, hmethods.toWithin]) fun q hq => ?_
  simp [Decoder.withDefault, hclasses.eq_some q hq, hmethods.eq_some q hq]

/-- Reading gives programs that a text can stand for. -/
theorem writable_of_parse? {text : String} {p : Program} (h : parse? text = some p) :
    p.Writable := by
  intro m hm
  obtain ⟨q, v, hbody⟩ := exists_body_of_parse? h hm
  exact FlowGraph.writable_of_decoder hbody

/-- Reading undoes writing. -/
theorem parse?_render {p : Program} (h : p.Writable) : parse? p.render = some p := by
  rw [parse?, render, Json.parse?_compact, Option.bind_some]
  exact (reads h).eq_some .top (by decide)

end Program

/-! ## Settings -/

theorem Confidence.reads (c : Confidence) : Confidence.decoder.Reads 0 (.ofString c.jsonName) c :=
  ⟨Json.within_ofString _, fun p _ => by cases c <;> rfl⟩

namespace Config

/-- Settings are read back, with limits that are set and limits that are not. -/
theorem reads (c : Config) : decoder.Reads 1 c.toJson c := by
  have hstrict := Decoder.reads_bool c.strictThreadContext
  have hnull (n : UInt64) : Json.ofNat n.toNat ≠ .null := fun h => nomatch h
  have hlimit := Decoder.Reads.optional hnull Decoder.reads_uint64
  have hconfidence := c.minConfidence.reads
  refine .record rfl (by decide) (by simp [hstrict.toWithin, (hlimit _).toWithin,
    hconfidence.toWithin]) fun q hq => ?_
  simp [Decoder.withDefault, hstrict.eq_some q hq, (hlimit _).eq_some q hq,
    hconfidence.eq_some q hq]

/-- Reading undoes writing. -/
theorem parse?_render (c : Config) : parse? c.render = some c := by
  rw [parse?, render, Json.parse?_compact, Option.bind_some]
  exact c.reads.eq_some .top (by decide)

end Config

/-! ## Texts -/

/-- **Reading undoes writing**: a program is read back from its own text exactly if its predecessor
lists follow from its successor lists and these hold numbers of 64 bits; every program that is read
from some text is like that, and writing it gives a text that reading and writing again do not
change. All settings are read back, and so their texts do not change either. -/
theorem texts_read_back :
    (∀ p : Program, Program.parse? p.render = some p ↔ p.Writable) ∧
    (∀ (text : String) (p : Program), Program.parse? text = some p →
      p.Writable ∧ (Program.parse? p.render).map Program.render = some p.render) ∧
    (∀ c : Config, Config.parse? c.render = some c) ∧
    (∀ (text : String) (c : Config), Config.parse? text = some c →
      (Config.parse? c.render).map Config.render = some c.render) := by
  refine ⟨fun p => ⟨Program.writable_of_parse?, Program.parse?_render⟩, fun text p h => ?_,
    Config.parse?_render, fun text c _ => ?_⟩
  · -- whatever the text was, the program in it can be written, so from then on the text is settled
    have hwritable := Program.writable_of_parse? h
    exact ⟨hwritable, by rw [Program.parse?_render hwritable, Option.map_some]⟩
  · rw [Config.parse?_render, Option.map_some]

/-- A program with names that need escapes, the greatest numbers of each kind, an edge to a block
that does not exist, two edges between the same blocks, and an operation of each kind. -/
def Program.oddities : Program where
  classes := [
    { name := "\"Vault\"\\", superclasses := ["", "\x01\n\t\x7f", "Vault\u0000"],
      annotations := { threadSafe := true } }]
  methods := [
    { id := ⟨0xffffffff⟩
      name := "öffne 🔐 \x1f/"
      declaringClass := "\"Vault\"\\"
      body := .ofBlocks [
        ([⟨0xffffffff, .acquire (.field ⟨.static "\u2028", [.field "" "lock", .element]⟩)⟩,
          ⟨0, .call ⟨0xffffffff⟩ [.receiver, .ofClass "Vault"]⟩], [1, 1, 0xffffffffffffffff]),
        ([⟨1, .read ⟨.unresolved, []⟩⟩, ⟨2, .write ⟨.localVar "x", [.element]⟩⟩, ⟨3, .nop⟩,
          ⟨4, .release .receiver⟩], [0, 1])]
      annotations := { guardedBy := some (.ofClass "Vault"), isPrivate := true } }]

theorem Program.writable_oddities : Program.oddities.Writable := by
  intro m hm
  obtain rfl := List.mem_singleton.1 hm
  exact ⟨FlowGraph.derived_ofBlocks _, by decide⟩

theorem texts_read_back_oddities :
    Program.parse? Program.oddities.render = some Program.oddities ∧
    (Program.parse? Program.oddities.render).map Program.render = some Program.oddities.render ∧
    (Config.parse? (Config.render { perMethodBudget := some 0xffffffffffffffff })).map Config.render
      = some (Config.render { perMethodBudget := some 0xffffffffffffffff }) := by
  obtain ⟨hprograms, hnormal, hsettings, hstable⟩ := texts_read_back
  have hread := (hprograms Program.oddities).2 Program.writable_oddities
  exact ⟨hread, (hnormal _ _ hread).2, hstable _ _ (hsettings _)⟩

end Interlock
