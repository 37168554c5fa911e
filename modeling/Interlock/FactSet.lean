import Interlock.Lattice

/-!
# Sets of numbered facts

The subsets of the numbers below `n`, as bit vectors of width `n`: the power-set
lattice, with union as join and intersection as meet.

- `FactSet.insert?`, `FactSet.erase?`: refuse a fact that is not below `n`.
- `FactSet.mem_insert`, `FactSet.mem_erase`, `FactSet.mem_union`,
  `FactSet.mem_inter`: the operations by membership.
-/

namespace Interlock

/-- A subset of the numbers below `n`. -/
structure FactSet (n : Nat) where
  bits : BitVec n
  deriving DecidableEq

namespace FactSet

variable {n : Nat}

instance : Membership Nat (FactSet n) := ⟨fun s i => s.bits.getLsbD i = true⟩

instance (i : Nat) (s : FactSet n) : Decidable (i ∈ s) :=
  inferInstanceAs (Decidable (s.bits.getLsbD i = true))

theorem mem_def {i : Nat} {s : FactSet n} : i ∈ s ↔ s.bits.getLsbD i = true := Iff.rfl

/-- No facts. -/
def empty : FactSet n := ⟨0#n⟩

/-- All facts below `n`. -/
def full : FactSet n := ⟨BitVec.allOnes n⟩

/-- The set with fact `i` added; a fact that is not below `n` changes nothing. -/
def insert (i : Nat) (s : FactSet n) : FactSet n := ⟨s.bits ||| BitVec.twoPow n i⟩

/-- The set without fact `i`. -/
def erase (i : Nat) (s : FactSet n) : FactSet n := ⟨s.bits &&& ~~~ BitVec.twoPow n i⟩

/-- The facts of either set. -/
def union (s t : FactSet n) : FactSet n := ⟨s.bits ||| t.bits⟩

/-- The facts of both sets. -/
def inter (s t : FactSet n) : FactSet n := ⟨s.bits &&& t.bits⟩

/-- Add a fact, if it is below `n`. -/
def insert? (i : Nat) (s : FactSet n) : Option (FactSet n) := if i < n then some (s.insert i) else none

/-- Remove a fact, if it is below `n`. -/
def erase? (i : Nat) (s : FactSet n) : Option (FactSet n) := if i < n then some (s.erase i) else none

/-- The set of the facts of a list, if all are below `n`. -/
def ofList? (n : Nat) (facts : List Nat) : Option (FactSet n) :=
  facts.foldlM (fun s i => s.insert? i) empty

/-- The facts in ascending order. -/
def toList (s : FactSet n) : List Nat := (List.range n).filter (· ∈ s)

/-- Whether every fact of `s` is in `t`. -/
def isSubset (s t : FactSet n) : Bool := decide (s.inter t = s)

/-- How two sets relate by inclusion, if one includes the other. -/
def compareInclusion (s t : FactSet n) : Option Ordering :=
  match s.isSubset t, t.isSubset s with
  | true, true => some .eq
  | true, false => some .lt
  | false, true => some .gt
  | false, false => none

instance : BoundedLattice (FactSet n) where
  bottom := empty
  join := union
  top := full
  meet := inter

instance : Height (FactSet n) := ⟨n⟩

/-- The set as `{0, 3, 4}`. -/
def render (s : FactSet n) : String :=
  "\x7b" ++ ", ".intercalate (s.toList.map Nat.repr) ++ "\x7d"

/-! ## Membership -/

@[simp] theorem not_mem_empty (i : Nat) : i ∉ (empty : FactSet n) := by simp [mem_def, empty]

/-- The full set has all facts below `n`. -/
@[simp] theorem mem_full {i : Nat} : i ∈ (full : FactSet n) ↔ i < n := by simp [mem_def, full]

/-- Facts are below `n`. -/
theorem lt_of_mem {i : Nat} {s : FactSet n} (h : i ∈ s) : i < n := BitVec.lt_of_getLsbD h

/-- Adding a fact below `n`. -/
@[simp] theorem mem_insert {i j : Nat} {s : FactSet n} :
    j ∈ s.insert i ↔ j ∈ s ∨ j = i ∧ i < n := by
  simp only [mem_def, insert, BitVec.getLsbD_or, BitVec.getLsbD_twoPow, Bool.or_eq_true,
    Bool.and_eq_true, decide_eq_true_eq]
  exact or_congr_right ⟨fun ⟨h, e⟩ => ⟨e.symm, h⟩, fun ⟨e, h⟩ => ⟨h, e.symm⟩⟩

/-- Removing a fact. -/
@[simp] theorem mem_erase {i j : Nat} {s : FactSet n} : j ∈ s.erase i ↔ j ∈ s ∧ j ≠ i := by
  simp only [mem_def, erase, BitVec.getLsbD_and, BitVec.getLsbD_not, BitVec.getLsbD_twoPow,
    Bool.and_eq_true, decide_eq_true_eq]
  constructor
  · rintro ⟨h, hj, hi⟩
    -- a fact that is kept is not the one whose bit is cleared
    refine ⟨h, ?_⟩
    rintro rfl
    simp [hj] at hi
  · rintro ⟨h, hne⟩
    exact ⟨h, lt_of_mem h, by simp [Ne.symm hne]⟩

@[simp] theorem mem_union {i : Nat} {s t : FactSet n} : i ∈ s.union t ↔ i ∈ s ∨ i ∈ t := by
  simp [mem_def, union]

@[simp] theorem mem_inter {i : Nat} {s t : FactSet n} : i ∈ s.inter t ↔ i ∈ s ∧ i ∈ t := by
  simp [mem_def, inter]

/-- The list has the facts of the set. -/
@[simp] theorem mem_toList {i : Nat} {s : FactSet n} : i ∈ s.toList ↔ i ∈ s := by
  simpa [toList] using fun h => lt_of_mem h

/-- **Extensionality**: a set of facts is determined by its members. -/
theorem ext_mem {s t : FactSet n} (h : ∀ i, i ∈ s ↔ i ∈ t) : s = t := by
  obtain ⟨a⟩ := s
  obtain ⟨b⟩ := t
  refine congrArg _ (BitVec.eq_of_getLsbD_eq fun i _ => ?_)
  exact Bool.eq_iff_iff.2 (h i)

end FactSet

end Interlock
