import Interlock.Program.Text
import Mathlib.Data.Nat.Digits.Defs

/-!
# Reading written records and unions

What a reader finds in a value, as rules for the parts that readers are made of. A rule
also keeps track of the levels of a value and of whether it is plain: inside a tagged
union, a value has to be kept until the tag is known.

- `Json.Within`: a plain value of at most some number of levels.
- `Decoder.Reads`: a reader finds something in a value wherever there is room for it.
- `Decoder.Reads.list`, `Decoder.Reads.optional`: lists, values that may be `null`.
- `Decoder.Reads.record`, `Decoder.Reads.union`: records and tagged unions, from their fields.
-/

namespace Interlock

/-! ## Plain values -/

namespace Json

/-- `v.Within n`: every string of the value is text, every number in range, and it has at most `n`
levels. -/
structure Within (v : Json) (n : Nat) : Prop where
  isPlain : v.isPlain = true
  height_le : v.height ≤ n

theorem Within.mono {v : Json} {m n : Nat} (h : v.Within m) (hmn : m ≤ n) : v.Within n :=
  ⟨h.isPlain, Nat.le_trans h.height_le hmn⟩

theorem within_ofString (s : String) : (ofString s).Within 0 := ⟨rfl, Nat.le_refl 0⟩

theorem within_bool (b : Bool) : (Json.bool b).Within 0 := ⟨rfl, Nat.le_refl 0⟩

theorem within_ofList {α : Type} {item : α → Json} {items : List α} {n : Nat}
    (h : ∀ a ∈ items, (item a).Within n) : (ofList item items).Within (n + 1) := by
  suffices hitems : itemsPlain (items.map item) = true ∧ itemsHeight (items.map item) ≤ n from
    ⟨hitems.1, Nat.succ_le_succ hitems.2⟩
  induction items with
  | nil => exact ⟨rfl, Nat.zero_le n⟩
  | cons a items ih =>
    obtain ⟨hplain, hheight⟩ := ih fun b hb => h b (List.mem_cons_of_mem _ hb)
    have ha := h a List.mem_cons_self
    simp only [List.map_cons, itemsPlain, itemsHeight, ha.isPlain, hplain, Bool.and_self, true_and]
    exact Nat.max_le.2 ⟨ha.height_le, hheight⟩

/-- One more member adds its own levels and no others. -/
theorem within_ofMembers_cons {m : String × Json} {members : List (String × Json)} {n : Nat} :
    (ofMembers (m :: members)).Within (n + 1) ↔
      m.2.Within n ∧ (ofMembers members).Within (n + 1) := by
  have hplain : (ofMembers (m :: members)).isPlain = (m.2.isPlain && (ofMembers members).isPlain) :=
    rfl
  have hheight : (ofMembers (m :: members)).height + 1
      = max (m.2.height + 1) (ofMembers members).height + 1 := by
    simp only [ofMembers, height, List.map_cons, membersHeight]
    omega
  constructor
  · rintro ⟨h, hle⟩
    rw [hplain, Bool.and_eq_true] at h
    exact ⟨⟨h.1, by omega⟩, ⟨h.2, by omega⟩⟩
  · rintro ⟨hm, hmembers⟩
    have hle := hm.height_le
    have hle' := hmembers.height_le
    exact ⟨by rw [hplain, hm.isPlain, hmembers.isPlain, Bool.and_self], by omega⟩

/-- The value of every member is one level down. -/
theorem within_ofMembers {members : List (String × Json)} {n : Nat} :
    (ofMembers members).Within (n + 1) ↔ ∀ m ∈ members, m.2.Within n := by
  induction members with
  | nil => exact ⟨fun _ m hm => (nomatch hm), fun _ => ⟨rfl, Nat.succ_le_succ (Nat.zero_le n)⟩⟩
  | cons m members ih => rw [within_ofMembers_cons, ih, List.forall_mem_cons]

/-- Rounding to a double at most doubles a number. -/
theorem roundToDouble_le {n : Nat} (h : n ≠ 0) : roundToDouble n ≤ 2 * n := by
  have hunit : Nat.pow 2 (n.log2 - 52) ≤ n :=
    Nat.le_trans (Nat.pow_le_pow_right (by decide) (Nat.sub_le n.log2 52)) (Nat.log2_self_le h)
  have hbelow : n / Nat.pow 2 (n.log2 - 52) * Nat.pow 2 (n.log2 - 52) ≤ n := Nat.div_mul_le_self _ _
  unfold roundToDouble
  simp only [Nat.add_mul, Nat.one_mul]
  split <;> omega

/-- A number of 64 bits is looked at with all of its digits. -/
theorem leadingDigits_of_lt {n : Nat} (h : n < UInt64.size) : leadingDigits n = (n, 0) := by
  have hlength : (Nat.toDigits 10 n).length ≤ 20 :=
    Nat.toDigits_length 10 n 20 (by decide) (Nat.lt_trans h (by decide))
  unfold leadingDigits
  rw [Nat.sub_eq_zero_of_le hlength]
  simp [h]

/-- A number of 64 bits is in the range of a double. -/
theorem within_ofNat {n : Nat} (h : n < UInt64.size) : (ofNat n).Within 0 := by
  refine ⟨?_, Nat.le_refl 0⟩
  show Numeral.magnitudeFits n 0 = true
  unfold Numeral.magnitudeFits
  rw [leadingDigits_of_lt h]
  show (decide (n = 0) || decide (0 ≤ 308)
    && decide (roundToDouble n * roundToDouble (Nat.pow 10 0) < Numeral.doubleRange)) = true
  by_cases hzero : n = 0
  · rw [hzero]
    rfl
  have hone : roundToDouble (Nat.pow 10 0) = 1 := by decide
  have hround := roundToDouble_le hzero
  have htwice : roundToDouble n < 2 * Nat.pow 2 64 := by
    have hsize : UInt64.size = Nat.pow 2 64 := rfl
    omega
  -- the range is far too large to be computed with, so its exponent is hidden
  obtain ⟨k, hk, hrange⟩ : ∃ k, 64 ≤ k ∧ Numeral.doubleRange = (Nat.pow 2 54 - 1) * Nat.pow 2 k :=
    ⟨970, by decide, by rw [Numeral.doubleRange]⟩
  have hlt : roundToDouble n < Numeral.doubleRange := by
    rw [hrange]
    have hpow : Nat.pow 2 64 ≤ Nat.pow 2 k := Nat.pow_le_pow_right (by decide) hk
    exact Nat.lt_of_lt_of_le htwice (Nat.mul_le_mul (by decide) hpow)
  rw [hone, Nat.mul_one, decide_eq_true hlt]
  simp

end Json

namespace Place

/-- Where there is room for one more level, the values inside have room for the others. -/
theorem exists_enter? {p : Place} {n : Nat} (h : n + 1 ≤ p.room) :
    ∃ q, p.enter? = some q ∧ n ≤ q.room := by
  obtain ⟨room, kept⟩ := p
  cases room with
  | zero => exact absurd h (by simp)
  | succ room => exact ⟨⟨room, kept⟩, rfl, Nat.le_of_succ_le_succ h⟩

end Place

namespace Decoder

variable {α β : Type}

/-! ## Scalars and lists -/

/-- `d.Reads n v a`: the value, plain and within `n` levels, is read as `a` wherever there is room
for so many levels. -/
structure Reads (d : Decoder α) (n : Nat) (v : Json) (a : α) : Prop extends v.Within n where
  eq_some : ∀ p : Place, n ≤ p.room → d p v = some a

/-- More room does no harm. -/
theorem Reads.mono {d : Decoder α} {m n : Nat} {v : Json} {a : α} (h : d.Reads m v a)
    (hmn : m ≤ n) : d.Reads n v a :=
  ⟨h.toWithin.mono hmn, fun p hp => h.eq_some p (Nat.le_trans hmn hp)⟩

theorem reads_string (s : String) : string.Reads 0 (.ofString s) s :=
  ⟨Json.within_ofString s, fun _ _ => rfl⟩

theorem reads_bool (b : Bool) : bool.Reads 0 (.bool b) b := ⟨Json.within_bool b, fun _ _ => rfl⟩

theorem reads_uint32 (n : UInt32) : uint32.Reads 0 (.ofNat n.toNat) n where
  toWithin := Json.within_ofNat (Nat.lt_trans n.toNat_lt_size (by decide))
  eq_some p _ := by
    show (if n.toNat < UInt32.size then some (UInt32.ofNat n.toNat) else none) = some n
    rw [if_pos n.toNat_lt_size, UInt32.ofNat_toNat]

/-- Numbers of 64 bits are in range and are read back whole. -/
theorem reads_uint64 (n : UInt64) : uint64.Reads 0 (.ofNat n.toNat) n where
  toWithin := Json.within_ofNat n.toNat_lt_size
  eq_some p _ := by
    show (if n.toNat < UInt64.size then some (UInt64.ofNat n.toNat) else none) = some n
    rw [if_pos n.toNat_lt_size, UInt64.ofNat_toNat]

/-- Items that are written and read back one by one. -/
theorem mapM_map_eq_some {γ : Type} {read : γ → Option β} {write : α → γ} {value : α → β}
    {as : List α} (h : ∀ a ∈ as, read (write a) = some (value a)) :
    (as.map write).mapM read = some (as.map value) := by
  induction as with
  | nil => rfl
  | cons a as ih =>
    rw [List.map_cons, List.mapM_cons, h a List.mem_cons_self,
      ih fun b hb => h b (List.mem_cons_of_mem _ hb)]
    rfl

/-- A list is read item by item. -/
theorem Reads.list_map {d : Decoder β} {n : Nat} {write : α → Json} {value : α → β} {as : List α}
    (h : ∀ a ∈ as, d.Reads n (write a) (value a)) :
    (list d).Reads (n + 1) (.ofList write as) (as.map value) where
  toWithin := Json.within_ofList fun a ha => (h a ha).toWithin
  eq_some p hp := by
    obtain ⟨q, henter, hq⟩ := Place.exists_enter? hp
    show (p.enter?.bind fun q => (as.map write).mapM (d q)) = _
    rw [henter, Option.bind_some]
    exact mapM_map_eq_some fun a ha => (h a ha).eq_some q hq

theorem Reads.list {d : Decoder α} {n : Nat} {write : α → Json} {as : List α}
    (h : ∀ a ∈ as, d.Reads n (write a) a) :
    (Decoder.list d).Reads (n + 1) (.ofList write as) as := by
  have hmap := Reads.list_map h
  rwa [List.map_id'] at hmap

/-- A value that may be `null` is read, if its reader does not take `null` itself. -/
theorem Reads.optional {d : Decoder α} {n : Nat} {write : α → Json} (hnull : ∀ a, write a ≠ .null)
    (h : ∀ a, d.Reads n (write a) a) (a : Option α) :
    (Decoder.optional d).Reads n ((a.map write).getD .null) a := by
  cases a with
  | none => exact ⟨⟨rfl, Nat.zero_le n⟩, fun p _ => rfl⟩
  | some a =>
    refine ⟨(h a).toWithin, fun p hp => ?_⟩
    have hread := (h a).eq_some p hp
    have hvalue : Decoder.optional d p (write a) = (d p (write a)).map some := by
      rw [Decoder.optional]
      exact hnull a
    exact hvalue.trans (by rw [hread, Option.map_some])

/-! ## Records -/

/-- Among members of different names, each is found by its name. -/
theorem filter_key {members : List (String × Json)} (h : (members.map Prod.fst).Nodup)
    {m : String × Json} (hm : m ∈ members) : members.filter (·.1 = m.1) = [m] := by
  induction members with
  | nil => cases hm
  | cons k members ih =>
    obtain ⟨hnot, hnodup⟩ := List.nodup_cons.1 h
    rcases List.mem_cons.1 hm with rfl | hm
    · have hrest : members.filter (·.1 = m.1) = [] := by
        refine List.filter_eq_nil_iff.2 fun k hk heq => hnot ?_
        exact of_decide_eq_true heq ▸ List.mem_map_of_mem hk
      rw [List.filter_cons_of_pos (by simp), hrest]
    · have hne : k.1 ≠ m.1 := fun heq => hnot (heq ▸ List.mem_map_of_mem hm)
      rw [List.filter_cons_of_neg (by simpa using hne), ih hnodup hm]

/-- So each is the only one of its name. -/
theorem single?_of_mem {members : List (String × Json)} (h : (members.map Prod.fst).Nodup)
    {m : String × Json} (hm : m ∈ members) :
    single? (members.map fun m => (some m.1, m.2)) m.1 = some (some m.2) := by
  have hfilter : (members.map fun m => (some m.1, m.2)).filter (·.1 = some m.1)
      = [((some m.1, m.2) : Literal × Json)] := by
    rw [List.filter_map]
    have hkey : members.filter ((fun m' : Literal × Json => decide (m'.1 = some m.1))
        ∘ fun m => (some m.1, m.2)) = members.filter (·.1 = m.1) :=
      List.filter_congr fun m' _ => by simp
    rw [hkey, filter_key h hm]
    rfl
  rw [single?, hfilter]

/-- Without the tag, the members of a case are left. -/
theorem others_cons {members : List (String × Json)} {key : String}
    (h : key ∉ members.map Prod.fst) (v : Json) :
    others (((key, v) :: members).map fun m => (some m.1, m.2)) key
      = members.map fun m => (some m.1, m.2) := by
  rw [others, List.map_cons, List.filter_cons_of_neg (by simp), List.filter_eq_self]
  intro m hm
  obtain ⟨k, hk, rfl⟩ := List.mem_map.1 hm
  have hne : k.1 ≠ key := fun heq => h (heq ▸ List.mem_map_of_mem hk)
  simpa using hne

theorem keysAreText_map (members : List (String × Json)) :
    keysAreText (members.map fun m => (some m.1, m.2)) = true := by
  simp [keysAreText]

/-- Written members are found as the fields of their names. -/
theorem fields?_ofMembers {members : List (String × Json)} (h : (members.map Prod.fst).Nodup) :
    fields? (members.map Prod.fst) (.ofMembers members) = some (members.map (some ·.2)) := by
  show (if keysAreText (members.map fun m => (some m.1, m.2)) then
    (members.map Prod.fst).mapM (single? (members.map fun m => (some m.1, m.2))) else none) = _
  rw [if_pos (keysAreText_map members)]
  exact mapM_map_eq_some fun m hm => single?_of_mem h hm

/-- **Records**: a record is read, if its fields build the value. -/
theorem Reads.record {names : List String} {members : List (String × Json)}
    {build : Place → Fields → Option α} {n : Nat} {a : α} (hnames : members.map Prod.fst = names)
    (hnodup : names.Nodup) (hwithin : ∀ m ∈ members, m.2.Within n)
    (hbuild : ∀ q : Place, n ≤ q.room → build q (members.map (some ·.2)) = some a) :
    (Decoder.record names build).Reads (n + 1) (.ofMembers members) a where
  toWithin := Json.within_ofMembers.2 hwithin
  eq_some p hp := by
    obtain ⟨q, henter, hq⟩ := Place.exists_enter? hp
    subst hnames
    rw [Decoder.record, henter, fields?_ofMembers hnodup]
    exact hbuild q hq

/-! ## Tagged unions -/

/-- Written members can be kept. -/
theorem all_canKeep {members : List (String × Json)} {n : Nat} (h : ∀ m ∈ members, m.2.Within n)
    {q : Place} (hq : n ≤ q.room) :
    (members.map fun m => ((some m.1, m.2) : Literal × Json)).all (q.canKeep ·.2) = true := by
  refine List.all_eq_true.2 fun m hm => ?_
  obtain ⟨k, hk, rfl⟩ := List.mem_map.1 hm
  have hwithin := h k hk
  simp [Place.canKeep, hwithin.isPlain, Nat.le_trans hwithin.height_le hq]

/-- **Tagged unions**: a case is read, if its fields build the value. -/
theorem Reads.union {key tag : String} {cases : List (Case α)} {c : Case α}
    {members : List (String × Json)} {n : Nat} {a : α}
    (hcase : cases.find? (·.tag = tag) = some c) (hnames : members.map Prod.fst = c.names)
    (hnodup : (key :: c.names).Nodup) (hwithin : ∀ m ∈ members, m.2.Within n)
    (hbuild : ∀ q : Place, n ≤ q.room → c.build q (members.map (some ·.2)) = some a) :
    (Decoder.union key cases).Reads (n + 1) (.tagged key tag members) a where
  toWithin := Json.within_ofMembers_cons.2
    ⟨(Json.within_ofString tag).mono (Nat.zero_le n), Json.within_ofMembers.2 hwithin⟩
  eq_some p hp := by
    obtain ⟨q, henter, hq⟩ := Place.exists_enter? hp
    rw [← hnames] at hnodup
    obtain ⟨hkey, hrest⟩ := List.nodup_cons.1 hnodup
    -- members).map Prod.fst).Nodup := hnodup :: the tag is found first, and the fields in what is
    -- left
    have hall : (((key, Json.ofString tag) :: members).map Prod.fst).Nodup := hnodup
    have htag := single?_of_mem hall List.mem_cons_self
    have hpick : pick? cases p (.ofString tag) = some c := hcase
    have hfields := fields?_ofMembers hrest
    rw [hnames] at hfields
    rw [Json.tagged, Json.ofMembers, Decoder.union, henter]
    simp only [Option.bind_eq_bind, Option.bind_some, keysAreText_map, others_cons hkey,
      all_canKeep hwithin hq, htag, guard, if_true]
    show ((pick? cases p (.ofString tag)).bind fun c =>
      (fields? c.names (.ofMembers members)).bind (c.build q.keep)) = some a
    rw [hpick, Option.bind_some, hfields, Option.bind_some]
    exact hbuild q.keep hq

end Decoder

end Interlock
