import Interlock.Sorted.Map
import Interlock.Sorted.Set
import Mathlib.Data.List.Nodup
import Mathlib.Data.List.Perm.Subperm

/-!
# Sorted sets and maps: sizes and entries

What the proofs about the analysis need to know about the containers beyond
membership.

- `eq_of_sorted`: sorted lists are equal if they have the same elements.
- `SortedSet.size_le_of_subset`, `SortedSet.eq_of_subset_of_size_le`: inclusion and
  size, on which the heights of lattices of sets rest.
- `SortedMap.mem_toList_iff`: the entries of a map are what look-ups find.
- `SortedMap.ext_get?`: a map is determined by its look-ups.
- `SortedMap.mem_of_get?_ofList`, `SortedMap.get?_ofList`: a map made from a list.
- `SortedMap.mapValues`: the map with other values under the same keys.
-/

namespace Interlock

/-- A list that increases strictly does not repeat an element. -/
theorem nodup_of_increasing {α : Type} [Ord α] [Std.LawfulEqOrd α] {l : List α}
    (h : l.Pairwise (fun a b => compare a b = .lt)) : l.Nodup := by
  refine h.imp fun {a b} hab heq => ?_
  subst heq
  simp at hab

/-- Sorting by a comparison gives a sorted list. -/
theorem pairwise_mergeSort_isLE {α : Type} (cmp : α → α → Ordering) [Std.TransCmp cmp]
    (l : List α) :
    (l.mergeSort fun a b => (cmp a b).isLE).Pairwise fun a b => (cmp a b).isLE = true := by
  refine List.pairwise_mergeSort (fun a b c hab hbc => ?_) (fun a b => ?_) l
  · exact Std.TransCmp.isLE_trans hab hbc
  · have hswap : cmp b a = (cmp a b).swap := Std.OrientedCmp.eq_swap
    rw [hswap]
    cases cmp a b <;> rfl

/-- Lists that increase strictly are equal if they have the same elements. -/
theorem eq_of_sorted {α : Type} (cmp : α → α → Ordering) [Std.TransCmp cmp] {l m : List α}
    (hl : l.Pairwise (fun a b => cmp a b = .lt)) (hm : m.Pairwise (fun a b => cmp a b = .lt))
    (h : ∀ a, a ∈ l ↔ a ∈ m) : l = m := by
  have hnodup : ∀ {l : List α}, l.Pairwise (fun a b => cmp a b = .lt) → l.Nodup := by
    intro l hl
    refine hl.imp fun {a b} hab heq => ?_
    have hself : cmp b b = .eq := Std.ReflCmp.compare_self
    rw [heq, hself] at hab
    cases hab
  have hperm := (List.perm_ext_iff_of_nodup (hnodup hl) (hnodup hm)).2 h
  refine List.Perm.eq_of_pairwise ?_ hl hm hperm
  intro a b _ _ hab hba
  have hgt : cmp a b = .gt := Std.OrientedCmp.gt_iff_lt.2 hba
  rw [hab] at hgt
  cases hgt

/-- Lists that increase strictly by a key are equal if they have the same elements. -/
theorem eq_of_increasing_keys {α κ : Type} [Ord κ] [Std.LawfulEqOrd κ] [Std.TransOrd κ]
    (key : α → κ) {l m : List α} (hl : l.Pairwise (fun a b => compare (key a) (key b) = .lt))
    (hm : m.Pairwise (fun a b => compare (key a) (key b) = .lt)) (h : ∀ a, a ∈ l ↔ a ∈ m) :
    l = m :=
  eq_of_sorted (compareOn key) hl hm h

namespace SortedSet

variable {α : Type} [Ord α] [Std.LawfulEqOrd α]

/-- A set has each member once. -/
theorem nodup_toList (s : SortedSet α) : s.toList.Nodup := nodup_of_increasing s.increasing

/-- A subset has at most as many members. -/
theorem size_le_of_subset {s t : SortedSet α} (h : ∀ a ∈ s, a ∈ t) : s.size ≤ t.size :=
  (List.subperm_of_subset s.nodup_toList h).length_le

/-- A subset that has at least as many members is the whole set. -/
theorem eq_of_subset_of_size_le [Std.TransOrd α] {s t : SortedSet α} (h : ∀ a ∈ s, a ∈ t)
    (hsize : t.size ≤ s.size) : s = t := by
  have hperm : s.toList.Perm t.toList :=
    (List.subperm_of_subset s.nodup_toList h).perm_of_length_le hsize
  exact ext_mem fun a => hperm.mem_iff

end SortedSet

namespace SortedMap

variable {κ ν : Type} [Ord κ] [Std.LawfulEqOrd κ]

/-- A map has one entry per key. -/
theorem nodup_keys (m : SortedMap κ ν) : m.keys.Nodup :=
  nodup_of_increasing (List.pairwise_map.2 m.increasing)

variable [DecidableEq κ]

omit [Ord κ] [Std.LawfulEqOrd κ] in
/-- In an association list without repeated keys, look-ups find exactly the entries. -/
theorem mem_iff_lookup {k : κ} {v : ν} :
    ∀ {l : List (κ × ν)}, (l.map (·.1)).Nodup → ((k, v) ∈ l ↔ l.lookup k = some v)
  | [], _ => by simp
  | (k', v') :: l, h => by
    rw [List.map_cons, List.nodup_cons] at h
    obtain ⟨hk', hl⟩ := h
    by_cases hk : k = k'
    · subst hk
      have hnot : (k, v) ∉ l := fun hmem => hk' (List.mem_map.2 ⟨(k, v), hmem, rfl⟩)
      simp [hnot, eq_comm]
    · rw [lookup_cons_of_ne hk, ← mem_iff_lookup hl]
      simp [hk]

/-- The entries of a map are what look-ups find. -/
theorem mem_toList_iff {m : SortedMap κ ν} {k : κ} {v : ν} :
    (k, v) ∈ m.toList ↔ m.get? k = some v :=
  mem_iff_lookup m.nodup_keys

theorem mem_keys_iff {m : SortedMap κ ν} {k : κ} : k ∈ m.keys ↔ ∃ v, m.get? k = some v := by
  simp only [keys, List.mem_map, Prod.exists, exists_and_right, exists_eq_right, mem_toList_iff]

theorem mem_values_iff {m : SortedMap κ ν} {v : ν} : v ∈ m.values ↔ ∃ k, m.get? k = some v := by
  simp only [values, List.mem_map, Prod.exists, exists_eq_right, mem_toList_iff]

omit [Std.LawfulEqOrd κ] in
@[simp] theorem get?_empty (k : κ) : (∅ : SortedMap κ ν).get? k = none := rfl

/-- **Extensionality**: a map is determined by its look-ups. -/
theorem ext_get? [Std.TransOrd κ] {m n : SortedMap κ ν} (h : ∀ k, m.get? k = n.get? k) : m = n := by
  refine toList_inj.1 (eq_of_increasing_keys Prod.fst m.increasing n.increasing ?_)
  rintro ⟨k, v⟩
  rw [mem_toList_iff, mem_toList_iff, h]

section OfList

variable [Std.TransOrd κ]

/-- Look-ups after several insertions. -/
theorem get?_insertMany {m : SortedMap κ ν} {k : κ} {l : List (κ × ν)} (hl : (l.map (·.1)).Nodup) :
    (l.foldl (fun m e => m.insert e.1 e.2) m).get? k = (l.lookup k).or (m.get? k) := by
  induction l generalizing m with
  | nil => simp
  | cons e l ih =>
    obtain ⟨k', v⟩ := e
    rw [List.map_cons, List.nodup_cons] at hl
    rw [List.foldl_cons, ih hl.2, get?_insert]
    by_cases hk : k = k'
    · subst hk
      have hnone : l.lookup k = none := by
        rw [List.lookup_eq_none_iff]
        intro e he
        rw [bne_iff_ne]
        rintro rfl
        exact hl.1 (List.mem_map.2 ⟨e, he, rfl⟩)
      simp [hnone]
    · rw [lookup_cons_of_ne hk, if_neg hk]

/-- Look-ups in a map made from a list without repeated keys. -/
theorem get?_ofList {l : List (κ × ν)} (hl : (l.map (·.1)).Nodup) (k : κ) :
    (ofList l).get? k = l.lookup k := by
  rw [ofList, get?_insertMany hl, get?_empty, Option.or_none]

/-- A map made from a list has no other entries than the list. -/
theorem mem_of_get?_ofList {l : List (κ × ν)} {k : κ} {v : ν} (h : (ofList l).get? k = some v) :
    (k, v) ∈ l := by
  -- the last insertion under `k` decides; generalize over the map inserted into
  suffices key : ∀ (l : List (κ × ν)) (m : SortedMap κ ν),
      (l.foldl (fun m e => m.insert e.1 e.2) m).get? k = some v → (k, v) ∈ l ∨ m.get? k = some v by
    simpa using key l ∅ h
  intro l
  induction l with
  | nil => exact fun m h => .inr h
  | cons e l ih =>
    intro m h
    rcases ih _ h with h | h
    · exact .inl (List.mem_cons_of_mem _ h)
    · rw [get?_insert] at h
      by_cases hk : k = e.1
      · rw [if_pos hk, Option.some_inj] at h
        exact .inl (by rw [hk, ← h]; exact List.mem_cons_self)
      · rw [if_neg hk] at h
        exact .inr h

end OfList

/-! ## Other values under the same keys -/

section MapValues

variable {ν' : Type}

omit [Std.LawfulEqOrd κ] [DecidableEq κ]

/-- The map with each value replaced. -/
def mapValues (f : ν → ν') (m : SortedMap κ ν) : SortedMap κ ν' :=
  ⟨m.toList.map fun e => (e.1, f e.2), List.pairwise_map.2 m.increasing⟩

theorem keys_mapValues (f : ν → ν') (m : SortedMap κ ν) : (m.mapValues f).keys = m.keys := by
  rw [keys, keys, mapValues, List.map_map]
  rfl

/-- The values are replaced one by one. -/
theorem values_mapValues (f : ν → ν') (m : SortedMap κ ν) :
    (m.mapValues f).values = m.values.map f := by
  rw [values, values, mapValues, List.map_map, List.map_map]
  rfl

variable [DecidableEq κ]

@[simp] theorem get?_mapValues (f : ν → ν') (m : SortedMap κ ν) (k : κ) :
    (m.mapValues f).get? k = (m.get? k).map f := by
  show (m.toList.map fun e => (e.1, f e.2)).lookup k = (m.toList.lookup k).map f
  induction m.toList with
  | nil => rfl
  | cons e l ih =>
    rw [List.map_cons, List.lookup_cons, List.lookup_cons]
    cases k == e.1 with
    | true => rfl
    | false => exact ih

variable [Std.LawfulEqOrd κ] [Std.TransOrd κ]

/-- Replacing values after an insertion is inserting the new value. -/
theorem mapValues_insert (f : ν → ν') (m : SortedMap κ ν) (k : κ) (v : ν) :
    (m.insert k v).mapValues f = (m.mapValues f).insert k (f v) := by
  refine ext_get? fun k' => ?_
  rw [get?_mapValues, get?_insert, get?_insert, get?_mapValues]
  split <;> rfl

/-- Making a map from a list and replacing values can be done in either order. -/
theorem mapValues_ofList (f : ν → ν') (l : List (κ × ν)) :
    (ofList l).mapValues f = ofList (l.map fun e => (e.1, f e.2)) := by
  -- insertions one by one, into any map
  suffices hfold : ∀ (l : List (κ × ν)) (m : SortedMap κ ν),
      (l.foldl (fun m e => m.insert e.1 e.2) m).mapValues f
        = (l.map fun e => (e.1, f e.2)).foldl (fun m e => m.insert e.1 e.2) (m.mapValues f) by
    exact hfold l ∅
  intro l
  induction l with
  | nil => exact fun m => rfl
  | cons e l ih =>
    intro m
    rw [List.foldl_cons, List.map_cons, List.foldl_cons, ih, mapValues_insert]

end MapValues

end SortedMap

end Interlock
