import Interlock.Proofs.ClassRecords
import Mathlib.Order.Lattice.Nat

/-!
# Ancestors

The ancestors of a class are the known classes that superclass edges lead to, each listed
once and the nearest first. They are found layer by layer: a layer holds the classes at one
distance, and the new ones among their parents are those at the next distance.

- `Lineage`, `distance`: chains of edges, and the length of the shortest ones.
- `Hierarchy.Layered`: what is known after some layers, and `Hierarchy.Layered.next`, that one
  more layer keeps it.
- `Hierarchy.mem_ancestors`, `Hierarchy.pairwise_ancestors`: which classes are ancestors, and in
  which order.
- `Hierarchy.walk`: the same search class by class, with a queue and no bound on its length.
- `Extends`, `Hierarchy.ancestors_exact`: ancestors and capabilities in terms of records.
-/

namespace Interlock

/-! ## Chains of edges -/

section Lineage

variable {α : Type} {r : α → α → Prop} {c d e : α} {k n : Nat}

/-- `Lineage r c n d`: a chain of `n` edges leads from `c` to `d`. -/
inductive Lineage (r : α → α → Prop) (c : α) : Nat → α → Prop
  | self : Lineage r c 0 c
  | step {n : Nat} {d e : α} : Lineage r c n d → r d e → Lineage r c (n + 1) e

/-- `IsDistance r c k d`: the shortest chains from `c` to `d` have `k` edges. -/
structure IsDistance (r : α → α → Prop) (c : α) (k : Nat) (d : α) : Prop where
  chain : Lineage r c k d
  least : ∀ n, Lineage r c n d → k ≤ n

/-- The number of edges of the shortest chains from one node to another, if there are any. -/
noncomputable def distance (r : α → α → Prop) (c d : α) : Nat := sInf {n | Lineage r c n d}

theorem Lineage.eq_of_zero (h : Lineage r c 0 d) : d = c := by
  cases h
  rfl

/-- If there is a chain at all, there is a shortest one. -/
theorem Lineage.isDistance (h : Lineage r c n d) : IsDistance r c (distance r c d) d where
  chain := by
    have hmem : distance r c d ∈ {n | Lineage r c n d} := Nat.sInf_mem ⟨n, h⟩
    exact hmem
  least _ hn := Nat.sInf_le hn

theorem IsDistance.distance_eq (h : IsDistance r c k d) : distance r c d = k :=
  le_antisymm (Nat.sInf_le h.chain) (h.least _ h.chain.isDistance.chain)

theorem isDistance_self (r : α → α → Prop) (c : α) : IsDistance r c 0 c :=
  ⟨.self, fun n _ => Nat.zero_le n⟩

/-- The nodes at the next distance are those that an edge leads to from this distance and that are
not as near. -/
theorem isDistance_succ_iff : IsDistance r c (k + 1) e ↔
    (∃ d, IsDistance r c k d ∧ r d e) ∧ ¬ ∃ n ≤ k, Lineage r c n e := by
  constructor
  · rintro ⟨hchain, hleast⟩
    refine ⟨?_, ?_⟩
    · cases hchain with
      | @step _ d _ hd hedge =>
        refine ⟨d, ⟨hd, fun n hn => ?_⟩, hedge⟩
        -- a shorter chain to `d` would give a shorter one to `e`
        have := hleast _ (hn.step hedge)
        omega
    · rintro ⟨n, hn, hshort⟩
      have := hleast n hshort
      omega
  · rintro ⟨⟨d, hd, hedge⟩, hfar⟩
    refine ⟨hd.chain.step hedge, fun n hn => ?_⟩
    by_contra hlt
    exact hfar ⟨n, by omega, hn⟩

/-- If no node is at some distance, then none is farther. -/
theorem le_of_not_isDistance (h : ∀ e, ¬ IsDistance r c (k + 1) e) (hn : Lineage r c n d) :
    ∃ n' ≤ k, Lineage r c n' d := by
  induction hn with
  | self => exact ⟨0, Nat.zero_le k, .self⟩
  | @step n d e _ hedge ih =>
    obtain ⟨n', hn', hd⟩ := ih
    by_cases hlt : n' < k
    · exact ⟨n' + 1, hlt, hd.step hedge⟩
    · by_contra hfar
      have hdistance := hd.isDistance
      have hle : distance r c d ≤ n' := hdistance.least _ hd
      -- `d` is at distance `k`, for else `e` would be nearer
      have heq : distance r c d = k := by
        by_contra hne
        exact hfar ⟨_, by omega, hdistance.chain.step hedge⟩
      rw [heq] at hdistance
      exact h e (isDistance_succ_iff.2 ⟨⟨d, hdistance, hedge⟩, hfar⟩)

end Lineage

namespace Hierarchy

/-! ## Layers -/

section Fresh

variable {seen seen' names : List String} {name : String}

/-- The new names are those that were not seen. -/
theorem mem_fresh : name ∈ fresh seen names ↔ name ∈ names ∧ name ∉ seen := by
  induction names generalizing seen with
  | nil => simp [fresh]
  | cons first rest ih =>
    rw [fresh]
    split
    · next hseen =>
      rw [ih, List.mem_cons]
      constructor
      · rintro ⟨hrest, hnew⟩
        exact ⟨.inr hrest, hnew⟩
      · rintro ⟨rfl | hrest, hnew⟩
        · exact absurd hseen hnew
        · exact ⟨hrest, hnew⟩
    · next hnew =>
      rw [List.mem_cons, ih, List.mem_cons, List.mem_cons]
      by_cases heq : name = first
      · simp [heq, hnew]
      · simp [heq]

theorem nodup_fresh (seen names : List String) : (fresh seen names).Nodup := by
  induction names generalizing seen with
  | nil => exact .nil
  | cons first rest ih =>
    rw [fresh]
    split
    · exact ih seen
    · refine List.nodup_cons.2 ⟨fun hmem => ?_, ih (first :: seen)⟩
      exact (mem_fresh.1 hmem).2 List.mem_cons_self

/-- Which names are new is a matter of those seen, not of their order. -/
theorem fresh_congr (h : ∀ name, name ∈ seen ↔ name ∈ seen') (names : List String) :
    fresh seen names = fresh seen' names := by
  induction names generalizing seen seen' with
  | nil => rfl
  | cons first rest ih =>
    have hcons : ∀ name, name ∈ first :: seen ↔ name ∈ first :: seen' := by
      intro name
      rw [List.mem_cons, List.mem_cons, h]
    rw [fresh, fresh, ih h, ih hcons, if_congr (h first) rfl rfl]

/-- Names in the second part are new if they are new after the first. -/
theorem fresh_append (seen names more : List String) :
    fresh seen (names ++ more) = fresh seen names ++ fresh (fresh seen names ++ seen) more := by
  induction names generalizing seen with
  | nil => rfl
  | cons first rest ih =>
    rw [List.cons_append, fresh, fresh]
    split
    · exact ih seen
    · rw [ih, List.cons_append, List.cons_append]
      congr 2
      refine fresh_congr (fun name => ?_) more
      simp only [List.mem_append, List.mem_cons]
      exact or_left_comm

end Fresh

variable {h : Hierarchy} {c d e : String} {k : Nat} {seen layer : List String}

/-- `h.HasParent c d`: the class `d` is a known superclass of `c`. -/
def HasParent (h : Hierarchy) (c d : String) : Prop := d ∈ h.parents c

/-- Parents are known classes. -/
theorem mem_classNames_of_parent (hparent : d ∈ h.parents c) : d ∈ h.classNames := by
  obtain ⟨info, hinfo⟩ := Option.isSome_iff_exists.1 (List.mem_filter.1 hparent).2
  exact SortedMap.mem_keys_iff.2 ⟨info, hinfo⟩

/-- What is known after the layers up to distance `k` from `c`: the last layer has the classes at
that distance, and all that are as near were seen. -/
structure Layered (h : Hierarchy) (c : String) (k : Nat) (seen layer : List String) : Prop where
  mem_seen : ∀ d, d ∈ seen ↔ ∃ n ≤ k, Lineage h.HasParent c n d
  mem_layer : ∀ d, d ∈ layer ↔ IsDistance h.HasParent c k d
  nodup : seen.Nodup
  known : ∀ d ∈ seen, d ∈ h.classNames

/-- At distance zero there is the class itself. -/
theorem layered_start (hc : c ∈ h.classNames) : h.Layered c 0 [c] [c] where
  mem_seen d := by
    rw [List.mem_singleton]
    constructor
    · rintro rfl
      exact ⟨0, le_refl 0, .self⟩
    · rintro ⟨n, hn, hchain⟩
      obtain rfl := Nat.le_zero.1 hn
      exact hchain.eq_of_zero
  mem_layer d := by
    rw [List.mem_singleton]
    constructor
    · rintro rfl
      exact isDistance_self _ d
    · intro hd
      exact hd.chain.eq_of_zero
  nodup := List.nodup_singleton c
  known d hd := List.mem_singleton.1 hd ▸ hc

/-- A layer that is not empty makes up for itself in the number of layers left. -/
theorem lt_of_fresh (h : Hierarchy) {fuel : Nat}
    (hsome : fresh seen (layer.flatMap h.parents) ≠ [])
    (hfuel : h.classes.size < fuel + 1 + seen.length) :
    h.classes.size < fuel + (fresh seen (layer.flatMap h.parents) ++ seen).length := by
  have hpos := List.length_pos_iff.2 hsome
  rw [List.length_append]
  omega

namespace Layered

variable (hl : h.Layered c k seen layer)

include hl

/-- The new parents of a layer are the classes at the next distance. -/
theorem mem_fresh_parents : e ∈ fresh seen (layer.flatMap h.parents) ↔
    IsDistance h.HasParent c (k + 1) e := by
  rw [mem_fresh, List.mem_flatMap, isDistance_succ_iff, hl.mem_seen]
  simp only [hl.mem_layer]
  rfl

/-- One more layer. -/
theorem next : h.Layered c (k + 1) (fresh seen (layer.flatMap h.parents) ++ seen)
    (fresh seen (layer.flatMap h.parents)) where
  mem_seen d := by
    rw [List.mem_append, hl.mem_fresh_parents, hl.mem_seen]
    constructor
    · rintro (hd | ⟨n, hn, hchain⟩)
      · exact ⟨k + 1, le_refl _, hd.chain⟩
      · exact ⟨n, Nat.le_succ_of_le hn, hchain⟩
    · rintro ⟨n, hn, hchain⟩
      by_cases hle : ∃ n ≤ k, Lineage h.HasParent c n d
      · exact .inr hle
      · -- it was not seen, so the chain is a shortest one
        refine .inl ⟨?_, fun j hj => ?_⟩
        · have heq : n = k + 1 := by
            by_contra hne
            exact hle ⟨n, by omega, hchain⟩
          exact heq ▸ hchain
        · by_contra hlt
          exact hle ⟨j, by omega, hj⟩
  mem_layer _ := hl.mem_fresh_parents
  nodup := by
    refine List.nodup_append.2 ⟨nodup_fresh _ _, hl.nodup, ?_⟩
    rintro d hd _ hd' rfl
    exact (mem_fresh.1 hd).2 hd'
  known d hd := by
    rcases List.mem_append.1 hd with hnew | hold
    · obtain ⟨_, -, hparent⟩ := List.mem_flatMap.1 (mem_fresh.1 hnew).1
      exact mem_classNames_of_parent hparent
    · exact hl.known d hold

/-- No more classes are seen than there are. -/
theorem length_seen_le : seen.length ≤ h.classes.size := by
  have hle := (hl.nodup.subperm hl.known).length_le
  rwa [classNames, SortedMap.keys, List.length_map] at hle

/-- If the next layer is empty, there are no classes farther away. -/
theorem not_isDistance_of_fresh (hnone : fresh seen (layer.flatMap h.parents) = []) {j : Nat}
    (hj : k < j) : ¬ IsDistance h.HasParent c j d := by
  intro hd
  have hempty : ∀ e, ¬ IsDistance h.HasParent c (k + 1) e := by
    intro e he
    rw [← hl.mem_fresh_parents, hnone] at he
    cases he
  obtain ⟨n, hn, hchain⟩ := le_of_not_isDistance hempty hd.chain
  have := hd.least n hchain
  omega

/-- The classes farther away, if there is one layer left for each class that was not seen. -/
theorem mem_ancestorLayers {fuel : Nat} (hfuel : h.classes.size < fuel + seen.length) :
    d ∈ h.ancestorLayers fuel seen layer ↔
      ∃ j, k < j ∧ IsDistance h.HasParent c j d := by
  induction fuel generalizing k seen layer with
  | zero =>
    have := hl.length_seen_le
    omega
  | succ fuel ih =>
    rw [ancestorLayers]
    split
    · next hnone =>
      refine iff_of_false List.not_mem_nil ?_
      rintro ⟨j, hj, hd⟩
      exact hl.not_isDistance_of_fresh hnone hj hd
    · next hsome =>
      have hfuel' := h.lt_of_fresh hsome hfuel
      rw [List.mem_append, hl.mem_fresh_parents, ih hl.next hfuel']
      constructor
      · rintro (hd | ⟨j, hj, hd⟩)
        · exact ⟨k + 1, Nat.lt_succ_self k, hd⟩
        · exact ⟨j, by omega, hd⟩
      · rintro ⟨j, hj, hd⟩
        rcases Nat.eq_or_lt_of_le (Nat.succ_le_of_lt hj) with rfl | hlt
        · exact .inl hd
        · exact .inr ⟨j, hlt, hd⟩

/-- What is listed was not seen before. -/
theorem not_mem_seen_of_farther {j : Nat} (hj : k < j)
    (hd : IsDistance h.HasParent c j d) : d ∉ seen := by
  rw [hl.mem_seen]
  rintro ⟨n, hn, hchain⟩
  have := hd.least n hchain
  omega

/-- The classes farther away are listed once each, the nearest first. -/
theorem pairwise_ancestorLayers {fuel : Nat} (hfuel : h.classes.size < fuel + seen.length) :
    (h.ancestorLayers fuel seen layer).Pairwise fun d e => d ≠ e ∧
      distance h.HasParent c d ≤ distance h.HasParent c e := by
  induction fuel generalizing k seen layer with
  | zero => exact .nil
  | succ fuel ih =>
    rw [ancestorLayers]
    split
    · exact .nil
    · next hsome =>
      have hfuel' := h.lt_of_fresh hsome hfuel
      -- within a layer the distance is the same, and later layers are farther away
      refine List.pairwise_append.2 ⟨?_, ih hl.next hfuel', fun d hd e he => ?_⟩
      · refine (nodup_fresh _ _).imp_of_mem fun {d e} hd he hne => ⟨hne, ?_⟩
        rw [(hl.mem_fresh_parents.1 hd).distance_eq, (hl.mem_fresh_parents.1 he).distance_eq]
      · obtain ⟨j, hj, he'⟩ := (hl.next.mem_ancestorLayers hfuel').1 he
        refine ⟨?_, ?_⟩
        · rintro rfl
          exact hl.next.not_mem_seen_of_farther hj he' (List.mem_append_left _ hd)
        · rw [(hl.mem_fresh_parents.1 hd).distance_eq, he'.distance_eq]
          exact hj.le

end Layered

/-! ## The ancestors of a class -/

section Ancestors

variable (hc : c ∈ h.classNames)

include hc

theorem mem_ancestors_iff_isDistance :
    d ∈ h.ancestors c ↔ ∃ j, 0 < j ∧ IsDistance h.HasParent c j d :=
  (layered_start hc).mem_ancestorLayers (Nat.lt_succ_self _)

/-- The ancestors of a class are the other classes that superclass edges lead to. -/
theorem mem_ancestors :
    d ∈ h.ancestors c ↔ d ≠ c ∧ ∃ n, 0 < n ∧ Lineage h.HasParent c n d := by
  rw [mem_ancestors_iff_isDistance hc]
  constructor
  · rintro ⟨j, hj, hd⟩
    refine ⟨?_, j, hj, hd.chain⟩
    rintro rfl
    have := hd.least 0 .self
    omega
  · rintro ⟨hne, n, -, hchain⟩
    refine ⟨_, Nat.pos_of_ne_zero fun hzero => ?_, hchain.isDistance⟩
    have hself := hchain.isDistance.chain
    rw [hzero] at hself
    exact hne hself.eq_of_zero

theorem pairwise_ancestors : (h.ancestors c).Pairwise fun d e =>
    d ≠ e ∧ distance h.HasParent c d ≤ distance h.HasParent c e :=
  (layered_start hc).pairwise_ancestorLayers (Nat.lt_succ_self _)

end Ancestors

/-! ## Class by class -/

/-- A search for ancestors under way. -/
structure Walk where
  /-- The classes whose parents are still to be looked at, those found first in front. -/
  waiting : List String
  seen : List String
  /-- The ancestors found so far. -/
  found : List String

/-- Look at the parents of a class; the new ones are found and wait. -/
def look (h : Hierarchy) (w : Walk) (c : String) : Walk :=
  let new := fresh w.seen (h.parents c)
  ⟨w.waiting ++ new, new ++ w.seen, w.found ++ new⟩

/-- Look at the parents of waiting classes until none waits. There is no answer if that never
happens. -/
def walkOut (h : Hierarchy) (w : Walk) : Option (List String) :=
  match w.waiting with
  | [] => some w.found
  | c :: rest => h |>.walkOut (h.look { w with waiting := rest } c)
partial_fixpoint

/-- The ancestors of a class as they are found with a queue, if the search comes to an end. -/
def walk (h : Hierarchy) (c : String) : Option (List String) := h.walkOut ⟨[c], [c], []⟩

/-- When the classes of a layer have had their turn, those of the next layer wait. -/
theorem walkOut_layer (h : Hierarchy) (layer early seen found : List String) :
    ∃ seen', (∀ d, d ∈ seen' ↔ d ∈ fresh seen (layer.flatMap h.parents) ++ seen) ∧
      h.walkOut ⟨layer ++ early, seen, found⟩
        = h.walkOut ⟨early ++ fresh seen (layer.flatMap h.parents), seen',
          found ++ fresh seen (layer.flatMap h.parents)⟩ := by
  induction layer generalizing early seen found with
  | nil =>
    refine ⟨seen, fun _ => Iff.rfl, ?_⟩
    rw [List.flatMap_nil, fresh, List.nil_append, List.append_nil, List.append_nil]
  | cons c layer ih =>
    -- the classes found go to the end of the queue, after those of this layer
    obtain ⟨seen', hseen', hwalk⟩ := ih (early ++ fresh seen (h.parents c))
      (fresh seen (h.parents c) ++ seen) (found ++ fresh seen (h.parents c))
    refine ⟨seen', fun d => ?_, ?_⟩
    · rw [hseen', List.flatMap_cons, fresh_append]
      simp only [List.mem_append]
      rw [or_assoc, or_left_comm]
    · rw [walkOut]
      show h.walkOut ⟨(layer ++ early) ++ fresh seen (h.parents c), _, _⟩ = _
      rw [List.append_assoc, hwalk, List.flatMap_cons, fresh_append, List.append_assoc,
        List.append_assoc]

/-- The walk over a layer and all that comes after it ends. -/
theorem Layered.walkOut_eq (hl : h.Layered c k seen layer) {fuel : Nat}
    (hfuel : h.classes.size < fuel + seen.length) {seen' : List String}
    (hseen' : ∀ d, d ∈ seen' ↔ d ∈ seen) (found : List String) :
    h.walkOut ⟨layer, seen', found⟩ = some (found ++ h.ancestorLayers fuel seen layer) := by
  induction fuel generalizing k seen layer seen' found with
  | zero =>
    have := hl.length_seen_le
    omega
  | succ fuel ih =>
    obtain ⟨seen'', hseen'', hwalk⟩ := h.walkOut_layer layer [] seen' found
    rw [fresh_congr hseen'] at hseen'' hwalk
    rw [List.append_nil, List.nil_append] at hwalk
    rw [hwalk, ancestorLayers]
    split
    · next hnone => rw [hnone, walkOut, List.append_nil]
    · next hsome =>
      have hfuel' := h.lt_of_fresh hsome hfuel
      rw [ih hl.next hfuel' (fun d => ?_), List.append_assoc]
      rw [hseen'', List.mem_append, List.mem_append, hseen']

/-- The search with a queue ends, and finds the ancestors in their order. -/
theorem walk_eq_ancestors (hc : c ∈ h.classNames) : h.walk c = some (h.ancestors c) :=
  (layered_start hc).walkOut_eq (Nat.lt_succ_self _) (fun _ => Iff.rfl) []

end Hierarchy

/-! ## In terms of records -/

section Records

variable (decls : List ClassDecl) (methods : List Method)

/-- A class is known if it is declared or if a method is declared in it. -/
def IsKnown (name : String) : Prop :=
  (∃ decl ∈ decls, decl.name = name) ∨ ∃ m ∈ methods, m.declaringClass = name

/-- The record that counts for a class: the first one of its name. -/
def recordOf? (name : String) : Option ClassDecl := decls.find? (·.name = name)

/-- `Extends decls methods c d`: the record of `c` names `d` as a superclass, and `d` is known. -/
def Extends (c d : String) : Prop :=
  (∃ record, recordOf? decls c = some record ∧ d ∈ record.superclasses) ∧ IsKnown decls methods d

end Records

namespace Hierarchy

variable {decls : List ClassDecl} {methods : List Method} {c d : String}

theorem contains_of_iff : (Hierarchy.of decls methods).classes.contains c = true ↔
    IsKnown decls methods c := by
  simp [contains_of, IsKnown]

theorem mem_classNames_of : c ∈ (Hierarchy.of decls methods).classNames ↔
    IsKnown decls methods c := by
  rw [classNames, SortedMap.mem_keys_iff, ← Option.isSome_iff_exists]
  exact contains_of_iff

/-- A class has the superclasses and annotations of its record, and none without one. -/
theorem info_of_record : (Hierarchy.of decls methods).info c =
    { superclasses := ((recordOf? decls c).map (·.superclasses)).getD []
      annotations := ((recordOf? decls c).map (·.annotations)).getD {}
      methods := methods.filter (·.declaringClass = c) } := by
  rw [info_of, info, get?_of_nil, recordOf?]
  cases decls.find? (·.name = c) <;> rfl

/-- Parents are the known superclasses that the record of a class names. -/
theorem hasParent_of : (Hierarchy.of decls methods).HasParent = Extends decls methods := by
  funext c d
  refine propext ?_
  rw [HasParent, parents, List.mem_filter, contains_of_iff, info_of_record, Extends]
  refine and_congr_left fun _ => ?_
  cases recordOf? decls c <;> simp

/-- Whether a class or one of its ancestors is annotated, according to the records. -/
theorem any_annotations_of (flag : ClassAnnotations → Bool) (hflag : flag {} = false)
    (classes : List String) :
    (classes.map fun c => ((Hierarchy.of decls methods).info c).annotations).any flag = true ↔
      ∃ d ∈ classes, ∃ record, recordOf? decls d = some record ∧ flag record.annotations = true := by
  rw [List.any_map, List.any_eq_true]
  refine exists_congr fun d => and_congr_right fun _ => ?_
  rw [Function.comp_apply, info_of_record]
  cases recordOf? decls d <;> simp [hflag]

/-- `ListsAncestors decls methods c l`: the list has the known classes other than `c` that
superclass edges lead to from `c`, each once, in the order of their distances. -/
structure ListsAncestors (decls : List ClassDecl) (methods : List Method) (c : String)
    (l : List String) : Prop where
  nodup : l.Nodup
  not_mem_self : c ∉ l
  mem_iff : ∀ d, d ∈ l ↔ d ≠ c ∧ ∃ n, 0 < n ∧ Lineage (Extends decls methods) c n d
  sorted : l.Pairwise fun d e =>
    distance (Extends decls methods) c d ≤ distance (Extends decls methods) c e

/-- **Ancestors**: for every known class, the search for ancestors ends. It lists exactly the
classes that superclass edges lead to, the nearest first, and the class is shared between threads,
or confined to one, if it or one of these is declared so. -/
theorem ancestors_exact (decls : List ClassDecl) (methods : List Method) {c : String}
    (hc : IsKnown decls methods c) :
    (Hierarchy.of decls methods).walk c = some ((Hierarchy.of decls methods).ancestors c) ∧
    ListsAncestors decls methods c ((Hierarchy.of decls methods).ancestors c) ∧
    (((Hierarchy.of decls methods).capabilities c).threadShared = true ↔
      ∃ d ∈ c :: (Hierarchy.of decls methods).ancestors c,
        ∃ record, recordOf? decls d = some record ∧ record.annotations.threadSafe = true) ∧
    (((Hierarchy.of decls methods).capabilities c).threadConfined = true ↔
      ∃ d ∈ c :: (Hierarchy.of decls methods).ancestors c,
        ∃ record, recordOf? decls d = some record ∧
          record.annotations.threadConfined = true) := by
  have hname := mem_classNames_of.2 hc
  have hsorted := pairwise_ancestors hname
  have hmem : ∀ d, d ∈ (Hierarchy.of decls methods).ancestors c ↔
      d ≠ c ∧ ∃ n, 0 < n ∧ Lineage (Extends decls methods) c n d := by
    intro d
    rw [← hasParent_of]
    exact mem_ancestors hname
  refine ⟨walk_eq_ancestors hname, ⟨hsorted.imp And.left, ?_, hmem, ?_⟩, ?_, ?_⟩
  · exact fun hself => ((hmem c).1 hself).1 rfl
  · rw [← hasParent_of]
    exact hsorted.imp And.right
  · exact any_annotations_of _ rfl _
  · exact any_annotations_of _ rfl _

/-- Classes that extend each other in a circle. One of them names a class twice and one that is not
known, another one is declared twice, and a class is known from its method only. -/
def tangle : List ClassDecl :=
  [{ name := "Leaf", superclasses := ["Mid", "Missing", "Root", "Mid"] },
    { name := "Mid", superclasses := ["Trunk"] },
    { name := "Root", superclasses := ["Leaf"], annotations := { threadConfined := true } },
    { name := "Mid", superclasses := ["Branch"], annotations := { threadSafe := true } }]

@[inherit_doc tangle]
def tangleMethods : List Method :=
  [{ id := ⟨0⟩, name := "grow", declaringClass := "Trunk", body := {} }]

theorem ancestors_exact_tangle :
    IsKnown tangle tangleMethods "Leaf" ∧
    (Hierarchy.of tangle tangleMethods).walk "Leaf" = some ["Mid", "Root", "Trunk"] ∧
    ListsAncestors tangle tangleMethods "Leaf" ["Mid", "Root", "Trunk"] ∧
    ∃ d ∈ ["Leaf", "Mid", "Root", "Trunk"], ∃ record, recordOf? tangle d = some record ∧
      record.annotations.threadConfined = true := by
  have hknown : IsKnown tangle tangleMethods "Leaf" := .inl ⟨_, List.mem_cons_self, rfl⟩
  obtain ⟨hwalk, hlists, -, hconfined⟩ := ancestors_exact _ _ hknown
  have hancestors : (Hierarchy.of tangle tangleMethods).ancestors "Leaf"
      = ["Mid", "Root", "Trunk"] := by decide +kernel
  rw [hancestors] at hwalk hlists hconfined
  exact ⟨hknown, hwalk, hlists, hconfined.1 (by decide +kernel)⟩

end Hierarchy

end Interlock
