/-!
# Sorted maps

A finite map with ordered keys, stored as an association list with strictly
increasing keys. As with sorted sets, two maps with the same entries are the
same value, and the entries come out in key order.

- `SortedMap.alter`: the one operation that changes an entry; the new value may
  depend on the old one.
- `SortedMap.get?_alter`: what `alter` does to look-ups.
-/

namespace Interlock

/-- A finite map, stored as its entries in strictly increasing key order. -/
structure SortedMap (κ ν : Type) [Ord κ] where
  toList : List (κ × ν)
  increasing : toList.Pairwise (fun a b => compare a.1 b.1 = .lt)

namespace SortedMap

/-- An entry under another key is passed over. -/
theorem lookup_cons_of_ne {κ ν : Type} [DecidableEq κ] {k k' : κ} {v : ν} {l : List (κ × ν)}
    (h : k' ≠ k) : ((k, v) :: l).lookup k' = l.lookup k' := by
  have : (k' == k) = false := by simpa using h
  rw [List.lookup_cons, this]

variable {κ ν : Type} [Ord κ]

theorem toList_inj {m n : SortedMap κ ν} : m.toList = n.toList ↔ m = n := by
  cases m; cases n; simp

instance [DecidableEq κ] [DecidableEq ν] : DecidableEq (SortedMap κ ν) := fun _ _ =>
  decidable_of_iff _ toList_inj

/-- The map without entries. -/
def empty : SortedMap κ ν := ⟨[], .nil⟩

instance : EmptyCollection (SortedMap κ ν) := ⟨empty⟩

instance : Inhabited (SortedMap κ ν) := ⟨∅⟩

/-- Number of entries. -/
def size (m : SortedMap κ ν) : Nat := m.toList.length

/-- The keys in increasing order. -/
def keys (m : SortedMap κ ν) : List κ := m.toList.map (·.1)

/-- The values in key order. -/
def values (m : SortedMap κ ν) : List ν := m.toList.map (·.2)

/-- The value under `k`, if there is one. -/
def get? [DecidableEq κ] (m : SortedMap κ ν) (k : κ) : Option ν := m.toList.lookup k

/-- Whether there is an entry under `k`. -/
def contains [DecidableEq κ] (m : SortedMap κ ν) (k : κ) : Bool := (m.get? k).isSome

/-! ## Changing an entry -/

/-- Put `f` of the old value under `k` into an increasing association list. -/
def alterList (k : κ) (f : Option ν → ν) : List (κ × ν) → List (κ × ν)
  | [] => [(k, f none)]
  | e :: l =>
    match compare k e.1 with
    | .lt => (k, f none) :: e :: l
    | .eq => (e.1, f (some e.2)) :: l
    | .gt => e :: alterList k f l

/-- A change adds no other key. -/
theorem fst_mem_alterList [Std.LawfulEqOrd κ] {k : κ} {f : Option ν → ν} {l : List (κ × ν)}
    {e : κ × ν} (h : e ∈ alterList k f l) : e.1 = k ∨ ∃ e' ∈ l, e'.1 = e.1 := by
  induction l with
  | nil =>
    rw [alterList, List.mem_singleton] at h
    exact .inl (by rw [h])
  | cons d l ih =>
    rw [alterList] at h
    split at h
    · rcases List.mem_cons.1 h with rfl | h
      · exact .inl rfl
      · exact .inr ⟨e, h, rfl⟩
    · rcases List.mem_cons.1 h with rfl | h
      · exact .inr ⟨d, List.mem_cons_self, rfl⟩
      · exact .inr ⟨e, List.mem_cons_of_mem _ h, rfl⟩
    · rcases List.mem_cons.1 h with rfl | h
      · exact .inr ⟨e, List.mem_cons_self, rfl⟩
      · rcases ih h with h | ⟨e', he', h⟩
        · exact .inl h
        · exact .inr ⟨e', List.mem_cons_of_mem _ he', h⟩

/-- A change leaves the keys increasing. -/
theorem increasing_alterList [Std.TransOrd κ] [Std.LawfulEqOrd κ] (k : κ) (f : Option ν → ν)
    {l : List (κ × ν)} (h : l.Pairwise (fun a b => compare a.1 b.1 = .lt)) :
    (alterList k f l).Pairwise (fun a b => compare a.1 b.1 = .lt) := by
  induction l with
  | nil => simp [alterList]
  | cons d l ih =>
    obtain ⟨hd, hl⟩ := List.pairwise_cons.1 h
    rw [alterList]
    split
    · next hkd =>
      refine List.pairwise_cons.2 ⟨fun x hx => ?_, h⟩
      rcases List.mem_cons.1 hx with rfl | hx
      · exact hkd
      · exact Std.TransCmp.lt_trans hkd (hd x hx)
    · exact List.pairwise_cons.2 ⟨hd, hl⟩
    · next hkd =>
      refine List.pairwise_cons.2 ⟨fun x hx => ?_, ih hl⟩
      -- what comes after `d` is under `k` or under a key that came after `d` before
      rcases fst_mem_alterList hx with hx | ⟨e, he, hx⟩
      · rw [hx]; exact Std.OrientedCmp.gt_iff_lt.1 hkd
      · rw [← hx]; exact hd e he

section Alter

variable [Std.TransOrd κ] [Std.LawfulEqOrd κ]

/-- The map with `f` of the old value under `k`. -/
def alter (m : SortedMap κ ν) (k : κ) (f : Option ν → ν) : SortedMap κ ν :=
  ⟨alterList k f m.toList, increasing_alterList k f m.increasing⟩

/-- The map with `v` under `k`. -/
def insert (m : SortedMap κ ν) (k : κ) (v : ν) : SortedMap κ ν := m.alter k fun _ => v

/-- The map with `v` under `k`, unless there is an entry already. -/
def insertIfNew (m : SortedMap κ ν) (k : κ) (v : ν) : SortedMap κ ν := m.alter k (·.getD v)

/-- The map of the entries of a list; later entries replace earlier ones with the same key. -/
def ofList (l : List (κ × ν)) : SortedMap κ ν := l.foldl (fun m e => m.insert e.1 e.2) ∅

variable [DecidableEq κ]

/-- Look-ups in the list after a change. -/
theorem lookup_alterList {k k' : κ} {f : Option ν → ν} {l : List (κ × ν)}
    (h : l.Pairwise (fun a b => compare a.1 b.1 = .lt)) :
    (alterList k f l).lookup k' = if k' = k then some (f (l.lookup k)) else l.lookup k' := by
  have ne_of_lt : ∀ {a b : κ}, compare a b = .lt → a ≠ b := by
    rintro a b hab rfl
    simp at hab
  induction l with
  | nil =>
    rw [alterList]
    by_cases hk : k' = k
    · subst hk; simp
    · simp [lookup_cons_of_ne hk, hk]
  | cons d l ih =>
    obtain ⟨hd, hl⟩ := List.pairwise_cons.1 h
    obtain ⟨a, v⟩ := d
    rw [alterList]
    split
    · next hka =>
      -- the key is smaller than every key of the list
      have hk : ((a, v) :: l).lookup k = none := by
        rw [List.lookup_eq_none_iff]
        intro e he
        rw [bne_iff_ne]
        rcases List.mem_cons.1 he with rfl | he
        · exact ne_of_lt hka
        · exact ne_of_lt (Std.TransCmp.lt_trans hka (hd e he))
      by_cases hkk : k' = k
      · subst hkk; simp [hk]
      · simp [lookup_cons_of_ne hkk, hkk]
    · next hka =>
      obtain rfl : k = a := Std.LawfulEqCmp.eq_of_compare hka
      by_cases hkk : k' = k
      · subst hkk; simp
      · simp [lookup_cons_of_ne hkk, hkk]
    · next hka =>
      have hk : k ≠ a := (ne_of_lt (Std.OrientedCmp.gt_iff_lt.1 hka)).symm
      by_cases hkk : k' = a
      · subst hkk; simp [hk.symm]
      · simp [lookup_cons_of_ne hkk, lookup_cons_of_ne hk, ih hl]

/-- **Changes**: a look-up of the key finds what the change makes of the old value, and other
look-ups find what they found. -/
theorem get?_alter {m : SortedMap κ ν} {k k' : κ} {f : Option ν → ν} :
    (m.alter k f).get? k' = if k' = k then some (f (m.get? k)) else m.get? k' :=
  lookup_alterList m.increasing

/-- Look-ups after an insertion. -/
theorem get?_insert {m : SortedMap κ ν} {k k' : κ} {v : ν} :
    (m.insert k v).get? k' = if k' = k then some v else m.get? k' :=
  get?_alter

end Alter

end SortedMap

end Interlock
