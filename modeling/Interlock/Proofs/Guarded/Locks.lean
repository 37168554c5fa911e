import Interlock.FactSet
import Interlock.Proofs.Guarded.Solver
import Interlock.Proofs.LockTracking

/-!
# Lock tracking with every look-up guarded

Lock tracking on sets of numbers. A table numbers the locks that a method names; adding a
number to a set, removing one and finding the lock of a number fail, if the number is not
one of the table.

- `LockTable`, `Method.lockTable`: the numbers of the locks that a method names.
- `LockTable.effect?`, `LockTable.decode?`: effects on sets of numbers, and the locks of a set.
- `Method.trackLocks?`: lock tracking.
- `Method.trackLocks?_eq_some`: for a method that passes the checks no look-up fails, and the
  result is that of `Method.trackLocks`.
- `Method.trackLocks?_exact`: so the tags found on numbers are exact as well.
-/

namespace Interlock

/-! ## Numbering locks -/

/-- The locks that a method names, with their numbers. -/
structure LockTable where
  /-- The locks in the order of their numbers. -/
  locks : List LockId := []
  /-- The number of the lock at each place where one is acquired or released. -/
  opLocks : List (OpPos × Nat) := []
  /-- The numbers of the locks held on entry. -/
  entry : List Nat := []

namespace LockTable

/-- The number of a lock, which gets the next one if it is new. -/
def intern (t : LockTable) (l : LockId) : Nat × LockTable :=
  if l ∈ t.locks then (t.locks.idxOf l, t)
  else (t.locks.length, { t with locks := t.locks ++ [l] })

/-- Number a lock held on entry. -/
def addEntry (t : LockTable) (l : LockId) : LockTable :=
  let (i, t) := t.intern l
  { t with entry := t.entry ++ [i] }

/-- Number the lock that an operation acquires or releases, if it can be named. -/
def addOperation (t : LockTable) (e : OpPos × Operation) : LockTable :=
  match e.2.action.lock? with
  | some l =>
    let (i, t) := t.intern l
    { t with opLocks := t.opLocks ++ [(e.1, i)] }
  | none => t

/-- `t.Numbers entry ops`: the table numbers the given locks on entry and those of the given
operations, and no others. -/
structure Numbers (t : LockTable) (entry : List LockId) (ops : List (OpPos × Operation)) :
    Prop where
  nodup : t.locks.Nodup
  mem_locks : ∀ l, l ∈ t.locks ↔ l ∈ entry ∨ ∃ e ∈ ops, e.2.action.lock? = some l
  entry_eq : t.entry = entry.map t.locks.idxOf
  opLocks_eq : t.opLocks
    = ops.filterMap fun e => e.2.action.lock?.map fun l => (e.1, t.locks.idxOf l)

variable {t : LockTable} {entry : List LockId} {ops : List (OpPos × Operation)}

/-- The number given out is the one that the lock has from then on. -/
theorem intern_fst (t : LockTable) (l : LockId) :
    (t.intern l).1 = (t.intern l).2.locks.idxOf l := by
  rw [intern]
  split
  · rfl
  · next hnew => simp [List.idxOf_append, hnew]

/-- Numbering one more lock leaves the other numbers as they are. -/
theorem Numbers.intern (h : t.Numbers entry ops) (l : LockId) :
    (t.intern l).2.locks.Nodup ∧ (∀ k, k ∈ (t.intern l).2.locks ↔ k = l ∨ k ∈ t.locks) ∧
      (∀ k ∈ t.locks, (t.intern l).2.locks.idxOf k = t.locks.idxOf k) ∧
      (t.intern l).2.entry = t.entry ∧ (t.intern l).2.opLocks = t.opLocks := by
  rw [LockTable.intern]
  split
  · next hin =>
    refine ⟨h.nodup, fun k => ?_, fun k _ => rfl, rfl, rfl⟩
    constructor
    · exact .inr
    · rintro (rfl | hk)
      · exact hin
      · exact hk
  · next hnew =>
    refine ⟨?_, fun k => ?_, fun k hk => ?_, rfl, rfl⟩
    · -- the new lock goes to the end, and no place before it moves
      refine List.nodup_append.2 ⟨h.nodup, List.nodup_singleton l, fun k hk k' hk' heq => hnew ?_⟩
      rwa [← List.mem_singleton.1 hk', ← heq]
    · simp [or_comm]
    · simp [List.idxOf_append, hk]

/-- The numbers that a table gave out are the same after one more lock is numbered. -/
theorem Numbers.entry_intern (h : t.Numbers entry ops) (l : LockId) :
    (t.intern l).2.entry = entry.map (t.intern l).2.locks.idxOf := by
  obtain ⟨-, -, hsame, hentry, -⟩ := h.intern l
  rw [hentry, h.entry_eq]
  refine List.map_congr_left fun k hk => (hsame k ?_).symm
  exact (h.mem_locks k).2 (.inl hk)

/-- So are those that it gave to operations. -/
theorem Numbers.opLocks_intern (h : t.Numbers entry ops) (l : LockId) :
    (t.intern l).2.opLocks = ops.filterMap fun e =>
      e.2.action.lock?.map fun k => (e.1, (t.intern l).2.locks.idxOf k) := by
  obtain ⟨-, -, hsame, -, hops⟩ := h.intern l
  rw [hops, h.opLocks_eq]
  refine List.filterMap_congr fun e he => ?_
  cases hlock : e.2.action.lock? with
  | none => rfl
  | some k =>
    rw [Option.map_some, Option.map_some, hsame k ((h.mem_locks k).2 (.inr ⟨e, he, hlock⟩))]

/-- One more lock on entry. -/
theorem Numbers.addEntry (h : t.Numbers entry ops) (l : LockId) :
    (t.addEntry l).Numbers (entry ++ [l]) ops := by
  obtain ⟨hnodup, hmem, -, -, -⟩ := h.intern l
  refine ⟨hnodup, fun k => ?_, ?_, h.opLocks_intern l⟩
  · show k ∈ (t.intern l).2.locks ↔ _
    rw [hmem, h.mem_locks, List.mem_append, List.mem_singleton]
    tauto
  · show (t.intern l).2.entry ++ [(t.intern l).1] = (entry ++ [l]).map (t.intern l).2.locks.idxOf
    rw [h.entry_intern, intern_fst, List.map_append]
    rfl

/-- One more operation, whether it names a lock or not. -/
theorem Numbers.addOperation (h : t.Numbers entry ops) (e : OpPos × Operation) :
    (t.addOperation e).Numbers entry (ops ++ [e]) := by
  rw [LockTable.addOperation]
  cases hlock : e.2.action.lock? with
  | none =>
    refine ⟨h.nodup, fun k => ?_, h.entry_eq, ?_⟩
    · rw [h.mem_locks]
      simp [hlock]
    · simp [h.opLocks_eq, List.filterMap_append, hlock]
  | some l =>
    obtain ⟨hnodup, hmem, -, -, -⟩ := h.intern l
    refine ⟨hnodup, fun k => ?_, h.entry_intern l, ?_⟩
    · show k ∈ (t.intern l).2.locks ↔ _
      rw [hmem, h.mem_locks]
      simp only [List.mem_append, List.mem_singleton, or_and_right, exists_or, exists_eq_left,
        hlock, Option.some_inj, eq_comm (a := l)]
      rw [or_comm, or_assoc]
    · show (t.intern l).2.opLocks ++ [(e.1, (t.intern l).1)] = _
      rw [h.opLocks_intern, intern_fst, List.filterMap_append]
      simp [hlock]

end LockTable

namespace Method

/-- The locks held on entry, in order. -/
def entryLockList (m : Method) : List LockId :=
  (if m.annotations.synchronized then [LockId.receiver] else [])
    ++ (m.annotations.guardedBy.bind LockExpr.resolve?).toList

/-- The table of a method: first the locks held on entry, then those of its operations. -/
def lockTable (m : Method) : LockTable :=
  m.body.positions.foldl LockTable.addOperation (m.entryLockList.foldl LockTable.addEntry {})

/-- The table of a method numbers the locks that the method names. -/
theorem numbers_lockTable (m : Method) :
    m.lockTable.Numbers m.entryLockList m.body.positions := by
  have hentry : ∀ (ls entry : List LockId) (t : LockTable), t.Numbers entry [] →
      (ls.foldl LockTable.addEntry t).Numbers (entry ++ ls) [] := by
    intro ls
    induction ls with
    | nil => exact fun entry t h => by rwa [List.append_nil]
    | cons l ls ih =>
      intro entry t h
      rw [List.append_cons entry l ls]
      exact ih _ _ (h.addEntry l)
  have hops : ∀ (es ops : List (OpPos × Operation)) (t : LockTable), t.Numbers m.entryLockList ops →
      (es.foldl LockTable.addOperation t).Numbers m.entryLockList (ops ++ es) := by
    intro es
    induction es with
    | nil => exact fun ops t h => by rwa [List.append_nil]
    | cons e es ih =>
      intro ops t h
      rw [List.append_cons ops e es]
      exact ih _ _ (h.addOperation e)
  have hempty : LockTable.Numbers {} [] [] := ⟨.nil, fun l => by simp, rfl, rfl⟩
  exact hops m.body.positions [] _ (hentry m.entryLockList [] {} hempty)

/-- These are the locks that tracking starts from. -/
theorem mem_locks_lockTable {m : Method} {l : LockId} :
    l ∈ m.lockTable.locks ↔ l ∈ m.lockUniverse := by
  rw [m.numbers_lockTable.mem_locks, lockUniverse, SortedSet.mem_insertMany, List.mem_filterMap]
  have hentry : l ∈ m.entryLocks ↔ l ∈ m.entryLockList := SortedSet.mem_ofList
  rw [hentry, or_comm]

end Method

namespace LockTable

/-! ## Sets of numbers -/

/-- The locks whose numbers are in a set. -/
def named (t : LockTable) (d : FactSet t.locks.length) : LockSet :=
  .ofList (d.toList.filterMap (t.locks[·]?))

/-- The locks whose numbers are in a set, if every number has one. -/
def decode? (t : LockTable) (d : FactSet t.locks.length) : Option LockSet :=
  (d.toList.mapM (t.locks[·]?)).map SortedSet.ofList

/-- The effect of an operation on a set of numbers. -/
def effect? (t : LockTable) (pos : OpPos) (op : Operation) (d : Dual (FactSet t.locks.length)) :
    Option (Dual (FactSet t.locks.length)) :=
  match t.opLocks.lookup pos with
  | none => some d
  | some i =>
    match op.action with
    | .acquire _ => (d.val.insert? i).map Dual.mk
    | .release _ => (d.val.erase? i).map Dual.mk
    | _ => some d

variable {t : LockTable}

theorem mem_named {d : FactSet t.locks.length} {l : LockId} :
    l ∈ t.named d ↔ ∃ i ∈ d, t.locks[i]? = some l := by
  rw [named, SortedSet.mem_ofList, List.mem_filterMap]
  simp only [FactSet.mem_toList]

/-- Every number in a set has a lock. -/
theorem decode?_eq_some (d : FactSet t.locks.length) : t.decode? d = some (t.named d) := by
  rw [decode?, named, mapM_eq_filterMap fun i hi =>
    ⟨_, List.getElem?_eq_getElem (FactSet.lt_of_mem (FactSet.mem_toList.1 hi))⟩]
  rfl

/-- A lock is in a set by its number. -/
theorem mem_named_iff (h : t.locks.Nodup) {d : FactSet t.locks.length} {l : LockId} :
    l ∈ t.named d ↔ l ∈ t.locks ∧ t.locks.idxOf l ∈ d := by
  rw [mem_named]
  constructor
  · rintro ⟨i, hi, hl⟩
    obtain ⟨hlt, rfl⟩ := List.getElem?_eq_some_iff.1 hl
    exact ⟨List.getElem_mem hlt, by rwa [h.idxOf_getElem]⟩
  · rintro ⟨hl, hi⟩
    exact ⟨_, hi, List.getElem?_idxOf hl⟩

/-- Different sets of numbers have different locks. -/
theorem named_injective (h : t.locks.Nodup) : Function.Injective t.named := by
  have hsub : ∀ {d d' : FactSet t.locks.length}, t.named d = t.named d' → ∀ i ∈ d, i ∈ d' := by
    intro d d' heq i hi
    have hlt := FactSet.lt_of_mem hi
    have hin : t.locks[i] ∈ t.named d := mem_named.2 ⟨i, hi, List.getElem?_eq_getElem hlt⟩
    rw [heq, mem_named_iff h, h.idxOf_getElem] at hin
    exact hin.2
  intro d d' heq
  exact FactSet.ext_mem fun i => ⟨hsub heq i, hsub heq.symm i⟩

/-- Adding a number adds its lock. -/
theorem mem_named_insert (h : t.locks.Nodup) {d : FactSet t.locks.length} {k l : LockId}
    (hl : l ∈ t.locks) : k ∈ t.named (d.insert (t.locks.idxOf l)) ↔ k ∈ t.named d ∨ k = l := by
  rw [mem_named_iff h, mem_named_iff h, FactSet.mem_insert]
  have hlt : t.locks.idxOf l < t.locks.length := List.idxOf_lt_length_of_mem hl
  constructor
  · rintro ⟨hk, hd | ⟨heq, -⟩⟩
    · exact .inl ⟨hk, hd⟩
    · exact .inr ((List.idxOf_inj hk).1 heq)
  · rintro (⟨hk, hd⟩ | rfl)
    · exact ⟨hk, .inl hd⟩
    · exact ⟨hl, .inr ⟨rfl, hlt⟩⟩

/-- Removing a number removes its lock and no other. -/
theorem mem_named_erase (h : t.locks.Nodup) {d : FactSet t.locks.length} {k l : LockId} :
    k ∈ t.named (d.erase (t.locks.idxOf l)) ↔ k ∈ t.named d ∧ k ≠ l := by
  rw [mem_named_iff h, mem_named_iff h, FactSet.mem_erase, and_assoc]
  refine and_congr_right fun hk => and_congr_right fun _ => ?_
  rw [Ne, List.idxOf_inj hk]

end LockTable

/-- The facts of a list that are all below `n` make a set. -/
theorem FactSet.exists_ofList? {n : Nat} (facts : List Nat) (h : ∀ i ∈ facts, i < n) :
    ∃ s, FactSet.ofList? n facts = some s ∧ ∀ i, i ∈ s ↔ i ∈ facts := by
  have hfold : ∀ (is : List Nat) (s : FactSet n), (∀ i ∈ is, i < n) →
      ∃ s', is.foldlM (fun s i => s.insert? i) s = some s' ∧ ∀ i, i ∈ s' ↔ i ∈ s ∨ i ∈ is := by
    intro is
    induction is with
    | nil => exact fun s _ => ⟨s, rfl, fun i => by simp⟩
    | cons j is ih =>
      intro s his
      have hj : j < n := his j List.mem_cons_self
      obtain ⟨s', hs', hmem⟩ := ih (s.insert j) fun i hi => his i (List.mem_cons_of_mem _ hi)
      refine ⟨s', ?_, fun i => ?_⟩
      · rw [List.foldlM_cons, FactSet.insert?, if_pos hj]
        exact hs'
      · rw [hmem, FactSet.mem_insert, List.mem_cons, or_assoc, and_iff_left hj]
  obtain ⟨s, hs, hmem⟩ := hfold facts .empty h
  exact ⟨s, hs, fun i => by simp [hmem]⟩

/-- The entry of a key, of those that some keys of a list get. -/
theorem lookup_filterMap {α β γ δ : Type} [BEq α] [LawfulBEq α] {g : β → Option γ} {f : γ → δ}
    {es : List (α × β)} (h : (es.map (·.1)).Nodup) {a : α} {b : β} (hmem : (a, b) ∈ es) :
    (es.filterMap fun e => (g e.2).map fun c => (e.1, f c)).lookup a = (g b).map f := by
  induction es with
  | nil => cases hmem
  | cons e es ih =>
    rw [List.map_cons, List.nodup_cons] at h
    rw [List.filterMap_cons]
    rcases List.mem_cons.1 hmem with rfl | hmem
    · -- no later entry has this key
      have hnone : (es.filterMap fun e => (g e.2).map fun c => (e.1, f c)).lookup a = none := by
        rw [List.lookup_eq_none_iff]
        rintro ⟨a', c⟩ hc
        obtain ⟨e, he, hec⟩ := List.mem_filterMap.1 hc
        obtain ⟨c', -, heq⟩ := Option.map_eq_some_iff.1 hec
        obtain rfl : e.1 = a' := congrArg (·.1) heq
        refine bne_iff_ne.2 fun heq => h.1 ?_
        exact List.mem_map.2 ⟨e, he, heq.symm⟩
      cases hg : g b with
      | none => exact hnone
      | some c => simp
    · have hne : (a == e.1) = false := by
        refine beq_eq_false_iff_ne.2 fun heq => h.1 ?_
        exact List.mem_map.2 ⟨(a, b), hmem, heq⟩
      cases hg : g e.2 with
      | none => exact ih h.2 hmem
      | some c =>
        show List.lookup a ((e.1, f c) :: _) = _
        rw [List.lookup_cons, hne]
        exact ih h.2 hmem

namespace Method

/-! ## Lock tracking -/

/-- The dataflow problem of the locks held, on sets of numbers. -/
def numberedProblem (m : Method) (seed : FactSet m.lockTable.locks.length) :
    GuardedProblem Operation (Dual (FactSet m.lockTable.locks.length)) :=
  ⟨m.body, ⟨seed⟩, m.lockTable.effect?, fun _ _ d => some d⟩

/-- The operations that a method tags, with the locks held before each. -/
def decodeHeld? (m : Method)
    (held : List (OpPos × Operation × Dual (FactSet m.lockTable.locks.length))) :
    Option (List (OpPos × Operation × LockSet)) :=
  held.mapM fun e => do return (e.1, e.2.1, ← m.lockTable.decode? e.2.2.val)

/-- The accesses and calls in reached blocks with the locks held there, unless more than `budget`
block visits would be needed. -/
def trackLocks? (m : Method) (budget : Option Nat) : Option (Except LimitReached Tagged) := do
  let seed ← FactSet.ofList? m.lockTable.locks.length m.lockTable.entry
  match ← (m.numberedProblem seed).solve? budget with
  | .error e => return .error e
  | .ok solution =>
    let held ← m.decodeHeld? (← (m.numberedProblem seed).replay? solution)
    return .ok (m.tag solution.steps held)

variable {m : Method}

/-- The locks that a set of numbers stands for. -/
def heldLocks (m : Method) (d : Dual (FactSet m.lockTable.locks.length)) :
    HeldLocks m.lockUniverse where
  locks := m.lockTable.named d.val
  mem_named _ hl :=
    mem_locks_lockTable.1 ((LockTable.mem_named_iff m.numbers_lockTable.nodup).1 hl).1

/-- The number that the table has for an operation is that of its lock. -/
theorem lookup_opLocks {pos : OpPos} {op : Operation} (h : (pos, op) ∈ m.body.positions) :
    m.lockTable.opLocks.lookup pos = op.action.lock?.map m.lockTable.locks.idxOf := by
  rw [m.numbers_lockTable.opLocks_eq]
  exact lookup_filterMap (g := fun op : Operation => op.action.lock?) m.body.nodup_positions h

/-- A set of numbers stands for the locks that it has, all of which the method names. -/
theorem heldLocks_eq_of {d : Dual (FactSet m.lockTable.locks.length)} {locks : LockSet}
    (h : ∀ l, l ∈ m.lockTable.named d.val ↔ l ∈ locks) : m.heldLocks d = .of locks := by
  refine HeldLocks.ext_locks fun l => ?_
  rw [HeldLocks.mem_of, ← h l]
  exact ⟨fun hl => ⟨hl, (m.heldLocks d).mem_named l hl⟩, fun hl => hl.1⟩

/-- The locks held on entry have numbers, and these make the set that tracking starts with. -/
theorem exists_seed (m : Method) :
    ∃ seed, FactSet.ofList? m.lockTable.locks.length m.lockTable.entry = some seed ∧
      m.heldLocks ⟨seed⟩ = .of m.entryLocks := by
  have ht := m.numbers_lockTable
  have hin : ∀ l ∈ m.entryLockList, l ∈ m.lockTable.locks :=
    fun l hl => (ht.mem_locks l).2 (.inl hl)
  obtain ⟨seed, hseed, hmem⟩ := FactSet.exists_ofList? (n := m.lockTable.locks.length)
    m.lockTable.entry fun i hi => by
      rw [ht.entry_eq] at hi
      obtain ⟨l, hl, rfl⟩ := List.mem_map.1 hi
      exact List.idxOf_lt_length_of_mem (hin l hl)
  refine ⟨seed, hseed, heldLocks_eq_of fun l => ?_⟩
  have hentry : l ∈ m.entryLocks ↔ l ∈ m.entryLockList := SortedSet.mem_ofList
  rw [LockTable.mem_named_iff ht.nodup, hmem, ht.entry_eq, hentry, List.mem_map]
  constructor
  · rintro ⟨-, k, hk, heq⟩
    rwa [← (List.idxOf_inj (hin k hk)).1 heq]
  · exact fun hl => ⟨hin l hl, l, hl, rfl⟩

/-- The effect of an operation of the method on a set of numbers. -/
theorem exists_effect? {pos : OpPos} {op : Operation} (h : (pos, op) ∈ m.body.positions)
    (d : Dual (FactSet m.lockTable.locks.length)) :
    ∃ d', m.lockTable.effect? pos op d = some d' ∧
      m.heldLocks d' = m.heldEffect op (m.heldLocks d) := by
  have ht := m.numbers_lockTable
  rw [LockTable.effect?, lookup_opLocks h]
  cases hlock : op.action.lock? with
  | none =>
    -- a lock that cannot be named changes nothing, and has no number
    have hnone : op.action.lockEffect (m.heldLocks d).locks = (m.heldLocks d).locks := by
      unfold Action.lockEffect
      rw [hlock]
      split <;> first | contradiction | rfl
    refine ⟨d, rfl, heldLocks_eq_of fun l => ?_⟩
    rw [hnone]
    rfl
  | some l =>
    have hl : l ∈ m.lockTable.locks := (ht.mem_locks l).2 (.inr ⟨_, h, hlock⟩)
    have hlt : m.lockTable.locks.idxOf l < m.lockTable.locks.length :=
      List.idxOf_lt_length_of_mem hl
    cases haction : op.action with
    | acquire lock =>
      simp only [Option.map_some, FactSet.insert?, if_pos hlt]
      refine ⟨_, rfl, heldLocks_eq_of fun k => ?_⟩
      rw [haction] at hlock
      simp only [haction, Action.lockEffect, hlock, SortedSet.mem_insert]
      rw [LockTable.mem_named_insert ht.nodup hl, or_comm]
      rfl
    | release lock =>
      simp only [Option.map_some, FactSet.erase?, if_pos hlt]
      refine ⟨_, rfl, heldLocks_eq_of fun k => ?_⟩
      rw [haction] at hlock
      simp only [haction, Action.lockEffect, hlock, SortedSet.mem_erase]
      rw [LockTable.mem_named_erase ht.nodup]
      rfl
    | read target => simp [haction, Action.lock?] at hlock
    | write target => simp [haction, Action.lock?] at hlock
    | call callee locksHeld => simp [haction, Action.lock?] at hlock
    | nop => simp [haction, Action.lock?] at hlock

/-- On sets of numbers the problem is the same. -/
theorem represents_numberedProblem {seed : FactSet m.lockTable.locks.length}
    (hseed : m.heldLocks ⟨seed⟩ = .of m.entryLocks) :
    (m.numberedProblem seed).Represents m.heldLocks m.heldEffect m.lockProblem where
  graph_eq := rfl
  seed_eq := hseed.symm
  block_eq _ := rfl
  edge_eq _ _ _ := rfl
  injective d d' h := by
    have hnamed : m.lockTable.named d.val = m.lockTable.named d'.val := congrArg HeldLocks.locks h
    have hval := LockTable.named_injective m.numbers_lockTable.nodup hnamed
    obtain ⟨_⟩ := d
    obtain ⟨_⟩ := d'
    exact congrArg Dual.mk hval
  bottom_eq := by
    refine HeldLocks.ext_locks fun l => ?_
    show l ∈ m.lockTable.named .full ↔ l ∈ m.lockUniverse
    rw [LockTable.mem_named_iff m.numbers_lockTable.nodup, FactSet.mem_full, ← mem_locks_lockTable]
    exact and_iff_left_of_imp List.idxOf_lt_length_of_mem
  join_eq d d' := by
    refine HeldLocks.ext_locks fun l => ?_
    show l ∈ m.lockTable.named (d.val.inter d'.val)
      ↔ l ∈ m.lockTable.named d.val ∩ m.lockTable.named d'.val
    rw [SortedSet.mem_inter]
    simp only [LockTable.mem_named_iff m.numbers_lockTable.nodup, FactSet.mem_inter]
    tauto
  effect?_eq _ _ d h := exists_effect? h d

theorem decodeHeld?_eq_some
    (held : List (OpPos × Operation × Dual (FactSet m.lockTable.locks.length))) :
    m.decodeHeld? held = some (held.map fun e => (e.1, e.2.1, (m.heldLocks e.2.2).locks)) := by
  refine mapM_eq_some fun e _ => ?_
  rw [LockTable.decode?_eq_some]
  rfl

/-- **Lock tracking**: on numbers it finds what it finds on locks. No look-up fails, if the edges of
the body name blocks of it and the predecessor lists say the same as the edges. -/
theorem trackLocks?_eq_some (h0 : 0 < m.body.size) (hg : m.body.WellFormed) (hm : m.body.Mirrored)
    (budget : Option Nat) : m.trackLocks? budget = some (m.trackLocks budget) := by
  obtain ⟨seed, hseed, hentry⟩ := m.exists_seed
  have hrep := represents_numberedProblem hentry
  -- predecessors are blocks, since each of them has an edge
  have hp : ∀ b, ∀ a ∈ m.body.predecessors b, a < m.body.size := by
    intro b a ha
    by_cases hb : b < m.body.size
    · exact FlowGraph.lt_size_of_mem_successors ((hm a b hb).1 ha)
    · rw [FlowGraph.predecessors, Array.getElem?_eq_none (Nat.le_of_not_lt hb)] at ha
      cases ha
  obtain ⟨outcome, hsolve, hanswers⟩ := hrep.solve? hg hp
    (Problem.waiting_run_visitBound hg h0 m.lockProblem_isMonotone) budget
  simp only [trackLocks?, trackLocks, hseed, hsolve, Option.bind_eq_bind, Option.bind_some]
  cases outcome with
  | error e =>
    rw [hanswers.eq_error]
    rfl
  | ok s =>
    obtain ⟨hsized, hanswer⟩ := hanswers.eq_ok
    obtain ⟨held, hheld, hreplay⟩ := hrep.replay? hsized
    rw [hanswer]
    show ((m.numberedProblem seed).replay? s).bind (fun held => (m.decodeHeld? held).bind _) = _
    rw [hheld, Option.bind_some, decodeHeld?_eq_some]
    show some (Except.ok (m.tag s.steps _)) = some (Except.ok (m.tag s.steps _))
    rw [show m.body = (m.numberedProblem seed).graph from rfl, ← hreplay, List.map_map]
    rfl

/-- **Exactness of lock tracking on numbers**: without a budget, tracking on sets of numbers
answers, and each access and call of a reachable block is tagged with the locks held there on every
path. -/
theorem trackLocks?_exact (h0 : 0 < m.body.size) (hg : m.body.WellFormed) (hm : m.body.Mirrored) :
    ∃ tagged, m.trackLocks? none = some (.ok tagged) ∧ m.TagsExactly tagged := by
  obtain ⟨tagged, htagged⟩ := exists_trackLocks_none h0 hg
  refine ⟨tagged, ?_, tagsExactly_of_trackLocks h0 hg hm htagged⟩
  rw [trackLocks?_eq_some h0 hg hm, htagged]

/-- Lock tracking on numbers fails if the last edge of the entry leads out of the body. -/
theorem trackLocks?_eq_none (h0 : 0 < m.body.size) {target : Nat}
    (hlast : (m.body.successors 0).getLast? = some target) (hmissing : m.body.size ≤ target)
    (budget : Option Nat) : m.trackLocks? budget = none := by
  obtain ⟨seed, hseed, -⟩ := m.exists_seed
  have hqueue : RankedQueue.start? m.body = none := by
    rw [RankedQueue.start?, FlowGraph.ranks?, FlowGraph.reversePostOrder?_eq_none h0 hlast hmissing]
    rfl
  have hsolve : (m.numberedProblem seed).solve? budget = none := by
    rw [GuardedProblem.solve?]
    show Option.bind (RankedQueue.start? m.body) _ = none
    rw [hqueue, Option.bind_none]
  simp only [trackLocks?, hseed, hsolve, Option.bind_eq_bind, Option.bind_some, Option.bind_none]

end Method

end Interlock
