/-!
# Sorted sets

A finite set of ordered elements, stored as the strictly increasing list of its
members. Two sets with the same members are the same value, so sets can be
compared with `=`, and the members come out in the order of the element type.

- `SortedSet.insert`, `erase`, `union`, `inter`: the set operations.
- `SortedSet.mem_insert` and its siblings: what each of them does to membership.
- `SortedSet.ext_mem`: a set is determined by its members.
-/

namespace Interlock

/-- A finite set, stored as the strictly increasing list of its members. -/
structure SortedSet (α : Type) [Ord α] where
  toList : List α
  increasing : toList.Pairwise (fun a b => compare a b = .lt)

namespace SortedSet

variable {α : Type} [Ord α]

instance : Membership α (SortedSet α) := ⟨fun s a => a ∈ s.toList⟩

theorem mem_def {a : α} {s : SortedSet α} : a ∈ s ↔ a ∈ s.toList := Iff.rfl

instance [DecidableEq α] (a : α) (s : SortedSet α) : Decidable (a ∈ s) :=
  inferInstanceAs (Decidable (a ∈ s.toList))

theorem toList_inj {s t : SortedSet α} : s.toList = t.toList ↔ s = t := by
  cases s; cases t; simp

instance [DecidableEq α] : DecidableEq (SortedSet α) := fun _ _ =>
  decidable_of_iff _ toList_inj

/-! ## Selecting members -/

/-- The set without members. -/
def empty : SortedSet α := ⟨[], .nil⟩

instance : EmptyCollection (SortedSet α) := ⟨empty⟩

instance : Inhabited (SortedSet α) := ⟨∅⟩

/-- Number of members. -/
def size (s : SortedSet α) : Nat := s.toList.length

/-- Whether the set has no members. -/
def isEmpty (s : SortedSet α) : Bool := s.toList.isEmpty

/-- The members that satisfy `p`. -/
def filter (p : α → Bool) (s : SortedSet α) : SortedSet α :=
  ⟨s.toList.filter p, s.increasing.filter p⟩

@[simp] theorem not_mem_empty (a : α) : a ∉ (∅ : SortedSet α) := List.not_mem_nil

/-- Selecting by a condition keeps the members that satisfy it. -/
@[simp] theorem mem_filter {p : α → Bool} {x : α} {s : SortedSet α} :
    x ∈ s.filter p ↔ x ∈ s ∧ p x = true :=
  List.mem_filter

section Decidable

variable [DecidableEq α]

/-- The set without `a`. -/
def erase (a : α) (s : SortedSet α) : SortedSet α := s.filter (· ≠ a)

/-- The members of both sets. -/
def inter (s t : SortedSet α) : SortedSet α := s.filter (· ∈ t)

instance : Inter (SortedSet α) := ⟨inter⟩

/-- Whether no element is in both sets. -/
def isDisjoint (s t : SortedSet α) : Bool := s.toList.all (· ∉ t)

/-- Whether every member of `s` is in `t`. -/
def isSubset (s t : SortedSet α) : Bool := s.toList.all (· ∈ t)

/-- How two sets relate by inclusion, if one includes the other. -/
def compareInclusion (s t : SortedSet α) : Option Ordering :=
  match s.isSubset t, t.isSubset s with
  | true, true => some .eq
  | true, false => some .lt
  | false, true => some .gt
  | false, false => none

/-- Erasing an element keeps all other members. -/
@[simp] theorem mem_erase {a x : α} {s : SortedSet α} : x ∈ s.erase a ↔ x ∈ s ∧ x ≠ a := by
  simp [erase]

@[simp] theorem mem_inter {x : α} {s t : SortedSet α} : x ∈ s ∩ t ↔ x ∈ s ∧ x ∈ t :=
  mem_filter.trans (by simp)

/-- The check for inclusion is right. -/
@[simp] theorem isSubset_iff {s t : SortedSet α} : s.isSubset t = true ↔ ∀ a ∈ s, a ∈ t := by
  simp [isSubset, mem_def]

/-- The check for common elements is right. -/
@[simp] theorem isDisjoint_iff {s t : SortedSet α} : s.isDisjoint t = true ↔ ∀ a ∈ s, a ∉ t := by
  simp [isDisjoint, mem_def]

end Decidable

/-! ## Insertion -/

/-- Put `a` at its place in an increasing list, unless it is there already. -/
def insertList (a : α) : List α → List α
  | [] => [a]
  | b :: l =>
    match compare a b with
    | .lt => a :: b :: l
    | .eq => b :: l
    | .gt => b :: insertList a l

/-- Putting an element into a list adds it and loses nothing. -/
theorem mem_insertList [Std.LawfulEqOrd α] {a x : α} {l : List α} :
    x ∈ insertList a l ↔ x = a ∨ x ∈ l := by
  induction l with
  | nil => simp [insertList]
  | cons b l ih =>
    rw [insertList]
    split
    · simp
    · next h => simp [Std.LawfulEqCmp.eq_of_compare h]
    · simp only [List.mem_cons, ih, or_left_comm]

/-- Putting an element into an increasing list leaves it increasing. -/
theorem increasing_insertList [Std.TransOrd α] [Std.LawfulEqOrd α] (a : α) {l : List α}
    (h : l.Pairwise (fun a b => compare a b = .lt)) :
    (insertList a l).Pairwise (fun a b => compare a b = .lt) := by
  induction l with
  | nil => simp [insertList]
  | cons b l ih =>
    obtain ⟨hb, hl⟩ := List.pairwise_cons.1 h
    rw [insertList]
    split
    · next hab =>
      refine List.pairwise_cons.2 ⟨fun x hx => ?_, h⟩
      rcases List.mem_cons.1 hx with rfl | hx
      · exact hab
      · exact Std.TransCmp.lt_trans hab (hb x hx)
    · exact h
    · next hab =>
      refine List.pairwise_cons.2 ⟨fun x hx => ?_, ih hl⟩
      -- what comes after `b` is the new element or was there before
      rcases mem_insertList.1 hx with rfl | hx
      · exact Std.OrientedCmp.gt_iff_lt.1 hab
      · exact hb x hx

section Insert

variable [Std.TransOrd α] [Std.LawfulEqOrd α]

/-- The set with `a` added. -/
def insert (a : α) (s : SortedSet α) : SortedSet α :=
  ⟨insertList a s.toList, increasing_insertList a s.increasing⟩

/-- The set with the elements of a list added. -/
def insertMany (s : SortedSet α) (l : List α) : SortedSet α := l.foldl (fun s a => s.insert a) s

/-- The set of the elements of a list. -/
def ofList (l : List α) : SortedSet α := (∅ : SortedSet α).insertMany l

/-- The members of either set. -/
def union (s t : SortedSet α) : SortedSet α := s.insertMany t.toList

instance : Union (SortedSet α) := ⟨union⟩

@[simp] theorem mem_insert {a x : α} {s : SortedSet α} : x ∈ s.insert a ↔ x = a ∨ x ∈ s :=
  mem_insertList

/-- Adding several elements adds each and loses nothing. -/
@[simp] theorem mem_insertMany {x : α} {l : List α} {s : SortedSet α} :
    x ∈ s.insertMany l ↔ x ∈ s ∨ x ∈ l := by
  induction l generalizing s with
  | nil => simp [insertMany]
  | cons a l ih =>
    rw [insertMany, List.foldl_cons, ← insertMany, ih, mem_insert, List.mem_cons, or_assoc,
      or_left_comm]

@[simp] theorem mem_ofList {x : α} {l : List α} : x ∈ ofList l ↔ x ∈ l := by
  simp [ofList]

@[simp] theorem mem_union {x : α} {s t : SortedSet α} : x ∈ s ∪ t ↔ x ∈ s ∨ x ∈ t :=
  mem_insertMany

end Insert

/-! ## Extensionality -/

/-- Increasing lists with the same elements are equal. -/
theorem increasing_ext [Std.TransOrd α] {l m : List α}
    (hl : l.Pairwise (fun a b => compare a b = .lt))
    (hm : m.Pairwise (fun a b => compare a b = .lt)) (h : ∀ a, a ∈ l ↔ a ∈ m) : l = m := by
  -- an increasing list does not repeat its head
  have irrefl : ∀ x : α, compare x x ≠ .lt := fun x => by simp [Std.ReflCmp.compare_self]
  induction l generalizing m with
  | nil =>
    cases m with
    | nil => rfl
    | cons b m => simpa using h b
  | cons a l ih =>
    cases m with
    | nil => simpa using h a
    | cons b m =>
      obtain ⟨ha, hl⟩ := List.pairwise_cons.1 hl
      obtain ⟨hb, hm'⟩ := List.pairwise_cons.1 hm
      have hab : a = b := by
        rcases List.mem_cons.1 ((h a).1 List.mem_cons_self) with hab | hab
        · exact hab
        · rcases List.mem_cons.1 ((h b).2 List.mem_cons_self) with hba | hba
          · exact hba.symm
          · exact absurd (Std.TransCmp.lt_trans (ha b hba) (hb a hab)) (irrefl a)
      subst hab
      refine congrArg _ (ih hl hm' fun x => ⟨fun hx => ?_, fun hx => ?_⟩)
      · rcases List.mem_cons.1 ((h x).1 (List.mem_cons_of_mem _ hx)) with rfl | hx'
        · exact absurd (ha x hx) (irrefl x)
        · exact hx'
      · rcases List.mem_cons.1 ((h x).2 (List.mem_cons_of_mem _ hx)) with rfl | hx'
        · exact absurd (hb x hx) (irrefl x)
        · exact hx'

/-- **Extensionality**: a set is determined by its members. -/
theorem ext_mem [Std.TransOrd α] {s t : SortedSet α} (h : ∀ a, a ∈ s ↔ a ∈ t) : s = t :=
  toList_inj.1 (increasing_ext s.increasing t.increasing h)

end SortedSet

end Interlock
