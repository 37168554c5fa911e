import Interlock.Proofs.Interfaces
import Mathlib.Data.List.Induction
import Mathlib.Data.List.Perm.Lattice

/-!
# Hierarchies of reordered records

What the hierarchy of given class and method records knows, and that the order of the
records makes no difference to it but for the order of the methods of a class.

- `Hierarchy.contains_of`, `Hierarchy.info_of`: the hierarchy of records.
- `Hierarchy.Reordered`: two hierarchies that differ in the order of methods only.
- `Hierarchy.reordered_of`: records with distinct class names in another order.
- `Hierarchy.Reordered.visibleMethods`, `Hierarchy.Reordered.classify`: visible methods come in
  another order, and contexts are the same.
-/

namespace Interlock

/-! ## Lists with distinct keys -/

section Keys

variable {α κ : Type} [DecidableEq κ] (key : α → κ) {l l' : List α}

/-- Under a key, the element with this key is found. -/
theorem find?_eq_some_iff_mem (hnodup : (l.map key).Nodup) {k : κ} {a : α} :
    l.find? (key · = k) = some a ↔ a ∈ l ∧ key a = k := by
  constructor
  · intro h
    have hkey := List.find?_some h
    exact ⟨List.mem_of_find?_eq_some h, by simpa using hkey⟩
  · rintro ⟨ha, rfl⟩
    have hsome : (l.find? (key · = key a)).isSome :=
      List.find?_isSome.2 ⟨a, ha, decide_eq_true rfl⟩
    obtain ⟨b, hb⟩ := Option.isSome_iff_exists.1 hsome
    have hkey : key b = key a := by simpa using List.find?_some hb
    rw [hb, List.inj_on_of_nodup_map hnodup (List.mem_of_find?_eq_some hb) ha hkey]

/-- The order makes no difference to what is found under a key. -/
theorem find?_eq_of_perm (hperm : l.Perm l') (hnodup : (l.map key).Nodup) (k : κ) :
    l.find? (key · = k) = l'.find? (key · = k) := by
  refine Option.ext fun a => ?_
  rw [find?_eq_some_iff_mem key hnodup,
    find?_eq_some_iff_mem key ((hperm.map key).nodup_iff.1 hnodup), hperm.mem_iff]

end Keys

namespace Hierarchy

/-! ## The hierarchy of records -/

section Of

variable (decls : List ClassDecl) (methods : List Method) (name : String)

/-- Without methods, the classes are those that are declared, and the first record counts. -/
theorem get?_of_nil : (Hierarchy.of decls []).classes.get? name
    = (decls.find? (·.name = name)).map fun d => ⟨d.superclasses, d.annotations, []⟩ := by
  -- the records are taken one by one from the left, so the last one is split off
  induction decls using List.reverseRecOn with
  | nil => rfl
  | append_singleton decls d ih =>
    have hstep : (Hierarchy.of (decls ++ [d]) []).classes = (Hierarchy.of decls []).classes.alter
        d.name (·.getD ⟨d.superclasses, d.annotations, []⟩) := by
      show List.foldl _ _ (decls ++ [d]) = _
      rw [List.foldl_append]
      rfl
    rw [hstep, SortedMap.get?_alter, List.find?_append]
    by_cases hname : name = d.name
    · subst hname
      rw [if_pos rfl, ih]
      cases decls.find? (·.name = d.name) <;> simp
    · rw [if_neg hname, ih]
      simp [Ne.symm hname]

/-- One more method is added to its class, which is made known by that. -/
theorem classes_of_concat (m : Method) : (Hierarchy.of decls (methods ++ [m])).classes
    = (Hierarchy.of decls methods).classes.alter m.declaringClass fun info =>
        { info.getD {} with methods := (info.getD {}).methods ++ [m] } := by
  show List.foldl _ _ (methods ++ [m]) = _
  rw [List.foldl_append]
  rfl

/-- A class is known if it is declared or if a method is declared in it. -/
theorem contains_of : (Hierarchy.of decls methods).classes.contains name
    = (decls.any (·.name = name) || methods.any (·.declaringClass = name)) := by
  induction methods using List.reverseRecOn with
  | nil =>
    rw [SortedMap.contains, get?_of_nil, Option.isSome_map, List.any_nil, Bool.or_false]
    exact List.isSome_find?
  | append_singleton methods m ih =>
    rw [SortedMap.contains] at ih ⊢
    rw [classes_of_concat, SortedMap.get?_alter, List.any_append, ← Bool.or_assoc, ← ih]
    by_cases hname : name = m.declaringClass
    · simp [hname]
    · simp [hname, Ne.symm hname]

/-- A class has what its first record says, and the methods that are declared in it. -/
theorem info_of : (Hierarchy.of decls methods).info name
    = { (Hierarchy.of decls []).info name with
        methods := methods.filter (·.declaringClass = name) } := by
  induction methods using List.reverseRecOn with
  | nil =>
    rw [info, get?_of_nil]
    cases decls.find? (·.name = name) <;> rfl
  | append_singleton methods m ih =>
    rw [info] at ih
    rw [info, classes_of_concat, SortedMap.get?_alter, List.filter_append]
    by_cases hname : name = m.declaringClass
    · subst hname
      simp [ih]
    · simp [hname, Ne.symm hname, ih]

end Of

/-! ## Another order -/

/-- `h.Reordered h'`: the classes are the same, and each has the same methods in some order. -/
structure Reordered (h h' : Hierarchy) : Prop extends h.SameClasses h' where
  declaredMethods : ∀ name, (h.declaredMethods name).Perm (h'.declaredMethods name)

/-- **Reordered records**: if class names are distinct, records in another order make a hierarchy
that differs in the order of methods only. -/
theorem reordered_of {decls decls' : List ClassDecl} {methods methods' : List Method}
    (hdecls : decls.Perm decls') (hnames : (decls.map (·.name)).Nodup)
    (hmethods : methods.Perm methods') :
    (Hierarchy.of decls methods).Reordered (Hierarchy.of decls' methods') := by
  -- of each name there is one record, so it does not matter which comes first
  have hdeclared : ∀ name,
      (Hierarchy.of decls []).info name = (Hierarchy.of decls' []).info name := by
    intro name
    rw [info, info, get?_of_nil, get?_of_nil, find?_eq_of_perm _ hdecls hnames]
  refine ⟨⟨fun name => ?_, fun name => ?_, fun name => ?_⟩, fun name => ?_⟩
  · rw [contains_of, contains_of, hdecls.any_eq, hmethods.any_eq]
  · rw [info_of, info_of decls', hdeclared]
  · rw [info_of, info_of decls', hdeclared]
  · rw [Hierarchy.declaredMethods, Hierarchy.declaredMethods, info_of, info_of decls']
    exact hmethods.filter _

namespace Reordered

variable {h h' : Hierarchy}

theorem symm (hs : h.Reordered h') : h'.Reordered h where
  contains name := (hs.contains name).symm
  superclasses name := (hs.superclasses name).symm
  annotations name := (hs.annotations name).symm
  declaredMethods name := (hs.declaredMethods name).symm

variable (hs : h.Reordered h')

include hs

/-- The same methods are visible. -/
theorem visibleMethods (name : String) :
    (h.visibleMethods name).Perm (h'.visibleMethods name) := by
  -- which methods are hidden is a matter of the names that occur, not of their order
  have hunhidden : ∀ owners seen seen', (∀ n, n ∈ seen ↔ n ∈ seen') →
      (h.unhidden seen owners).Perm (h'.unhidden seen' owners) := by
    intro owners
    induction owners with
    | nil => exact fun _ _ _ => .nil
    | cons owner owners ih =>
      intro seen seen' hseen
      have hfilter : (h.declaredMethods owner).filter (·.name ∉ seen)
          = (h.declaredMethods owner).filter (·.name ∉ seen') := by simp only [hseen]
      rw [unhidden, unhidden, hfilter]
      refine ((hs.declaredMethods owner).filter _).append (ih _ _ fun n => ?_)
      rw [List.mem_append, List.mem_append, hseen, ((hs.declaredMethods owner).map _).mem_iff]
  unfold Hierarchy.visibleMethods
  rw [hs.ancestors]
  exact hunhidden _ _ _ fun _ => Iff.rfl

/-- Whether a method overrides a shared one is not a matter of order. -/
theorem overridesShared (m : Method) : h.overridesShared m = h'.overridesShared m := by
  have hdeclares : ∀ a, (h.declaredMethods a).any (·.name = m.name)
      = (h'.declaredMethods a).any (·.name = m.name) :=
    fun a => (hs.declaredMethods a).any_eq
  simp only [Hierarchy.overridesShared, hs.ancestors, hs.capabilities, hdeclares]

/-- Methods run in the same contexts. -/
theorem classify (m : Method) : h.classify m = h'.classify m := by
  simp only [Hierarchy.classify, hs.overridesShared, hs.capabilities]

end Reordered

end Hierarchy

end Interlock
