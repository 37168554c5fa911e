import Interlock.Proofs.Ancestors

/-!
# Which methods are visible

Of methods with the same name, a class shows those of the first class that declares any:
the class itself, then its ancestors, the nearest first. So a class hides what classes
farther away declare under the same name. It is the distance that counts and not which
class extends which: where a class names a distant ancestor among its superclasses, the
methods of this ancestor hide those that override them on the longer way.

- `Hierarchy.mem_unhidden`: the methods of the owners in a list.
- `Hierarchy.mem_visibleMethods_of`: the visible methods, according to the records.
- `Hierarchy.visible_by_distance`: which methods are visible, and what nearer classes hide.
- `Hierarchy.overridden_visible_tray`: an overridden method that is visible.
-/

namespace Interlock

/-- Some method of the class has the name. -/
def Declares (methods : List Method) (c name : String) : Prop :=
  ∃ m ∈ methods, m.declaringClass = c ∧ m.name = name

/-- No chain of superclass edges leads from a class back to it. -/
def Acyclic (decls : List ClassDecl) (methods : List Method) : Prop :=
  ∀ c n, 0 < n → ¬ Lineage (Extends decls methods) c n c

namespace Hierarchy

/-! ## The methods of several owners -/

/-- A method is listed unless its name was seen or an owner before its own declares the name. -/
theorem mem_unhidden {h : Hierarchy} {m : Method} {seen owners : List String} :
    m ∈ h.unhidden seen owners ↔
      m.name ∉ seen ∧ ∃ owner ∈ owners, m ∈ h.declaredMethods owner ∧
        ∀ o ∈ owners.takeWhile (· ≠ owner), ∀ m' ∈ h.declaredMethods o, m'.name ≠ m.name := by
  induction owners generalizing seen with
  | nil => simp [unhidden]
  | cons first rest ih =>
    rw [unhidden, List.mem_append, List.mem_filter, ih, decide_eq_true_eq]
    constructor
    · rintro (⟨hm, hseen⟩ | ⟨hseen, owner, howner, hm, hbefore⟩)
      · exact ⟨hseen, first, List.mem_cons_self, hm, by simp⟩
      · rw [List.mem_append, not_or] at hseen
        refine ⟨hseen.1, owner, List.mem_cons_of_mem _ howner, hm, fun o ho m' hm' heq => ?_⟩
        rw [List.takeWhile_cons] at ho
        split at ho
        · rcases List.mem_cons.1 ho with rfl | hrest
          · exact hseen.2 (List.mem_map.2 ⟨m', hm', heq⟩)
          · exact hbefore o hrest m' hm' heq
        · cases ho
    · rintro ⟨hseen, owner, howner, hm, hbefore⟩
      -- the first owner hides the names that it declares from all after it
      by_cases hfirst : first = owner
      · subst hfirst
        exact .inl ⟨hm, hseen⟩
      · rw [List.takeWhile_cons, if_pos (decide_eq_true hfirst)] at hbefore
        refine .inr ⟨fun hmem => ?_, owner, ?_, hm, fun o ho => ?_⟩
        · rcases List.mem_append.1 hmem with hmem | hmem
          · exact hseen hmem
          · obtain ⟨m', hm', heq⟩ := List.mem_map.1 hmem
            exact hbefore first List.mem_cons_self m' hm' heq
        · exact (List.mem_cons.1 howner).resolve_left (Ne.symm hfirst)
        · exact hbefore o (List.mem_cons_of_mem _ ho)

/-- In a list that is sorted by a number, what has a smaller number than `g` stands before `g`. -/
theorem mem_takeWhile_of_lt {l : List String} {rank : String → Nat}
    (hsorted : l.Pairwise fun d e => rank d ≤ rank e) {b g : String} (hb : b ∈ l)
    (hlt : rank b < rank g) : b ∈ l.takeWhile (· ≠ g) := by
  induction l with
  | nil => cases hb
  | cons first rest ih =>
    obtain ⟨hfirst, hrest⟩ := List.pairwise_cons.1 hsorted
    have hne : first ≠ g := by
      rintro rfl
      rcases List.mem_cons.1 hb with rfl | hmem
      · exact Nat.lt_irrefl _ hlt
      · exact Nat.not_le_of_lt hlt (hfirst b hmem)
    rw [List.takeWhile_cons, if_pos (decide_eq_true hne)]
    rcases List.mem_cons.1 hb with rfl | hmem
    · exact List.mem_cons_self
    · exact List.mem_cons_of_mem _ (ih hrest hmem)

/-! ## Visible methods -/

variable {decls : List ClassDecl} {methods : List Method} {c : String} {m : Method}

theorem mem_declaredMethods_of : m ∈ (Hierarchy.of decls methods).declaredMethods c ↔
    m ∈ methods ∧ m.declaringClass = c := by
  rw [declaredMethods, info_of_record, List.mem_filter, decide_eq_true_eq]

/-- A method is visible if its class is among those looked at and none before it declares the
name. -/
theorem mem_visibleMethods_of : m ∈ (Hierarchy.of decls methods).visibleMethods c ↔
    m ∈ methods ∧ m.declaringClass ∈ c :: (Hierarchy.of decls methods).ancestors c ∧
      ∀ d ∈ (c :: (Hierarchy.of decls methods).ancestors c).takeWhile (· ≠ m.declaringClass),
        ¬ Declares methods d m.name := by
  simp only [visibleMethods, mem_unhidden, mem_declaredMethods_of]
  constructor
  · rintro ⟨-, owner, howner, ⟨hm, rfl⟩, hbefore⟩
    refine ⟨hm, howner, ?_⟩
    rintro d hd ⟨m', hm', hclass, hname⟩
    exact hbefore d hd m' ⟨hm', hclass⟩ hname
  · rintro ⟨hm, howner, hbefore⟩
    refine ⟨List.not_mem_nil, _, howner, ⟨hm, rfl⟩, ?_⟩
    rintro d hd m' ⟨hm', hclass⟩ hname
    exact hbefore d hd ⟨m', hm', hclass, hname⟩

/-- A class and its ancestors are sorted by their distances from the class. -/
theorem pairwise_owners (hc : IsKnown decls methods c) :
    (c :: (Hierarchy.of decls methods).ancestors c).Pairwise fun d e =>
      distance (Extends decls methods) c d ≤ distance (Extends decls methods) c e := by
  rw [← hasParent_of]
  refine List.pairwise_cons.2 ⟨fun d _ => ?_, (pairwise_ancestors (mem_classNames_of.2 hc)).imp
    And.right⟩
  rw [(isDistance_self _ c).distance_eq]
  exact Nat.zero_le _

/-- **Visible methods**: those of the class and its ancestors whose name no class before their own
declares, the nearest first. In particular, no method is visible if a nearer class declares one of
the same name. -/
theorem visible_by_distance (decls : List ClassDecl) (methods : List Method) {c : String}
    (hc : IsKnown decls methods c) :
    (∀ m, m ∈ (Hierarchy.of decls methods).visibleMethods c ↔
      m ∈ methods ∧ m.declaringClass ∈ c :: (Hierarchy.of decls methods).ancestors c ∧
        ∀ d ∈ (c :: (Hierarchy.of decls methods).ancestors c).takeWhile (· ≠ m.declaringClass),
          ¬ Declares methods d m.name) ∧
    ∀ b ∈ c :: (Hierarchy.of decls methods).ancestors c, ∀ g name,
      distance (Extends decls methods) c b < distance (Extends decls methods) c g →
      Declares methods b name →
      ∀ m ∈ (Hierarchy.of decls methods).visibleMethods c, m.declaringClass = g → m.name ≠ name := by
  refine ⟨fun m => mem_visibleMethods_of, ?_⟩
  rintro b hb g name hnear hdeclares m hm rfl rfl
  have hbefore := mem_takeWhile_of_lt (pairwise_owners hc) hb hnear
  exact (mem_visibleMethods_of.1 hm).2.2 b hbefore hdeclares

/-! ## An overridden method that is visible -/

/-- A tray is a stack, which is a list, which is a bag. The tray also names the bag itself. -/
def trays : List ClassDecl :=
  [{ name := "Tray", superclasses := ["Stack", "Bag"] },
    { name := "Stack", superclasses := ["List"] },
    { name := "List", superclasses := ["Bag"] },
    { name := "Bag" }]

/-- The size of a bag. -/
def bagSize : Method :=
  { id := ⟨0⟩, name := "size", declaringClass := "Bag", body := .ofBlocks [([], [])] }

/-- The size of a list, which overrides that of a bag. -/
def listSize : Method :=
  { id := ⟨1⟩, name := "size", declaringClass := "List", body := .ofBlocks [([], [])] }

theorem visible_by_distance_tray :
    IsKnown trays [bagSize, listSize] "Tray" ∧
    bagSize ∈ (Hierarchy.of trays [bagSize, listSize]).visibleMethods "Tray" ∧
    listSize ∉ (Hierarchy.of trays [bagSize, listSize]).visibleMethods "Tray" := by
  have hknown : IsKnown trays [bagSize, listSize] "Tray" := .inl ⟨_, List.mem_cons_self, rfl⟩
  have hancestors : (Hierarchy.of trays [bagSize, listSize]).ancestors "Tray"
      = ["Stack", "Bag", "List"] := by decide +kernel
  obtain ⟨hvisible, -⟩ := visible_by_distance _ _ hknown
  rw [hvisible, hvisible, hancestors]
  refine ⟨hknown, ⟨by decide, by decide, ?_⟩, ?_⟩
  · rintro d hd ⟨m, hm, rfl, -⟩
    revert hd
    revert m
    decide
  · rintro ⟨-, -, hbefore⟩
    exact hbefore "Bag" (by decide) ⟨bagSize, by decide, rfl, rfl⟩

/-- Each of the classes extends classes with smaller names only. -/
theorem acyclic_trays (methods : List Method) : Acyclic trays methods := by
  have hedge : ∀ c d, Extends trays methods c d → compare d c = .lt := by
    rintro c d ⟨⟨record, hrecord, hd⟩, -⟩
    have hname : record.name = c := by simpa using List.find?_some hrecord
    have hsmaller : ∀ record ∈ trays, ∀ d ∈ record.superclasses,
        compare d record.name = .lt := by decide +kernel
    exact hname ▸ hsmaller record (List.mem_of_find?_eq_some hrecord) d hd
  -- names fall along the edges, and so along chains
  have hchain : ∀ c n d, Lineage (Extends trays methods) c n d →
      n = 0 ∨ compare d c = .lt := by
    intro c n d h
    induction h with
    | self => exact .inl rfl
    | @step n d e hd hde ih =>
      right
      rcases ih with rfl | hlt
      · exact hd.eq_of_zero ▸ hedge d e hde
      · exact Std.TransCmp.lt_trans (hedge d e hde) hlt
  intro c n hn hcycle
  rcases hchain c n c hcycle with rfl | hlt
  · exact Nat.lt_irrefl 0 hn
  · have hself : compare c c = .eq := Std.ReflCmp.compare_self
    rw [hself] at hlt
    cases hlt

/-- **Overridden methods may be visible**: that a class hides what it overrides is not so for all
classes below it. A tray has the size of a bag, and not that of a list. -/
theorem overridden_visible_tray :
    ¬ ∀ (decls : List ClassDecl) (methods : List Method), Acyclic decls methods →
      ∀ c b g name, b ∈ c :: (Hierarchy.of decls methods).ancestors c →
        g ∈ c :: (Hierarchy.of decls methods).ancestors c →
        g ∈ (Hierarchy.of decls methods).ancestors b →
        Declares methods b name → Declares methods g name →
        ∀ m ∈ (Hierarchy.of decls methods).visibleMethods c,
          m.declaringClass = g → m.name ≠ name := by
  intro hhides
  exact hhides trays [bagSize, listSize] (acyclic_trays _) "Tray" "List" "Bag" "size"
    (by decide +kernel) (by decide +kernel) (by decide +kernel)
    ⟨listSize, by decide, rfl, rfl⟩ ⟨bagSize, by decide, rfl, rfl⟩
    bagSize (by decide +kernel) rfl rfl

end Hierarchy

end Interlock
