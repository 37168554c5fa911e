import Interlock.Proofs.Condensation
import Interlock.Proofs.Search
import Interlock.Proofs.Sorted
import Interlock.Summary.Store

/-!
# Components of a call graph

What the summaries need to know about the call graph of a table of facts.

- `FactTable.Keyed`: facts are filed under the method that they are about.
- `CallGraph.mem_members`: the members of a component.
- `CallGraph.component_le_of_call`: a call never leads to a component with a larger
  number.
- `CallGraph.not_call_within`: the method of a component that is not cyclic calls
  nothing inside the component.
- `CallGraph.exists_call_of_member`: in a component, all methods but one call a member.
- `Builder.lt_of_call_outside`: a call out of a component leads to a smaller number.
- `calleeFirst_perm`: ordering methods callees first loses and repeats none.
-/

namespace Interlock

/-- Facts are filed under the method that they are about. -/
def FactTable.Keyed (facts : FactTable) : Prop := ∀ m f, facts.get? m = some f → f.method = m

namespace CallGraph

variable {facts : FactTable}

theorem mem_callEdges {methods : List MethodId} {e : Nat × Nat} :
    e ∈ callEdges facts methods ↔ ∃ f ∈ facts.values, ∃ callee ∈ f.callees, callee ∈ methods ∧
      e = (methods.idxOf f.method, methods.idxOf callee) := by
  simp only [callEdges, List.mem_flatMap, List.mem_map, List.mem_filter, decide_eq_true_eq]
  constructor
  · rintro ⟨f, hf, callee, ⟨hcallee, hmem⟩, rfl⟩
    exact ⟨f, hf, callee, hcallee, hmem, rfl⟩
  · rintro ⟨f, hf, callee, hcallee, hmem, rfl⟩
    exact ⟨f, hf, callee, ⟨hcallee, hmem⟩, rfl⟩

/-- Callers and callees are nodes of the graph. -/
theorem wellFormed_callEdges (hk : facts.Keyed) :
    (⟨facts.keys.length, callEdges facts facts.keys⟩ : Digraph).WellFormed := by
  intro e he
  obtain ⟨f, hf, callee, -, hcallee, rfl⟩ := mem_callEdges.1 he
  obtain ⟨m, hm⟩ := SortedMap.mem_values_iff.1 hf
  have hmethod : f.method ∈ facts.keys := by
    rw [hk m f hm]
    exact SortedMap.mem_keys_iff.2 ⟨f, hm⟩
  exact ⟨List.idxOf_lt_length_iff.2 hmethod, List.idxOf_lt_length_iff.2 hcallee⟩

/-- The component of a method is that of its place. -/
theorem componentOf?_eq_some {m : MethodId} {c : Nat} :
    (of facts).componentOf? m = some c ↔
      m ∈ facts.keys ∧ (of facts).condensation.componentOf (facts.keys.idxOf m) = c := by
  rw [componentOf?]
  show (if m ∈ facts.keys then some _ else none) = some c ↔ _
  split
  · next h => rw [Option.some_inj, and_iff_right h]; rfl
  · next h =>
    constructor
    · intro hnone
      cases hnone
    · intro hsome
      exact absurd hsome.1 h

/-- A method has a component if there are facts about it. -/
theorem exists_componentOf?_iff {m : MethodId} :
    (∃ c, (of facts).componentOf? m = some c) ↔ ∃ f, facts.get? m = some f := by
  rw [← SortedMap.mem_keys_iff]
  constructor
  · rintro ⟨c, hc⟩
    exact (componentOf?_eq_some.1 hc).1
  · intro hm
    exact ⟨_, componentOf?_eq_some.2 ⟨hm, rfl⟩⟩

section Keyed

variable (hk : facts.Keyed)

include hk

theorem componentOf?_lt {m : MethodId} {c : Nat} (h : (of facts).componentOf? m = some c) :
    c < (of facts).size := by
  obtain ⟨hm, rfl⟩ := componentOf?_eq_some.1 h
  exact Condensation.componentOf_lt (wellFormed_callEdges hk) (List.idxOf_lt_length_iff.2 hm)

/-- The members of a component are the methods that have its number. -/
theorem mem_members {m : MethodId} {c : Nat} :
    m ∈ (of facts).members c ↔ (of facts).componentOf? m = some c := by
  rw [members, List.mem_filterMap, componentOf?_eq_some]
  constructor
  · rintro ⟨v, hv, hm⟩
    obtain ⟨hlt, rfl⟩ := List.getElem?_eq_some_iff.1 hm
    have hidx : facts.keys.idxOf facts.keys[v] = v := facts.nodup_keys.idxOf_getElem v hlt
    refine ⟨List.getElem_mem hlt, ?_⟩
    show (of facts).condensation.componentOf (facts.keys.idxOf facts.keys[v]) = c
    rw [hidx]
    exact ((Condensation.mem_members_iff (wellFormed_callEdges hk)).1 hv).2
  · rintro ⟨hm, hc⟩
    have hlt := List.idxOf_lt_length_iff.2 hm
    exact ⟨facts.keys.idxOf m,
      (Condensation.mem_members_iff (wellFormed_callEdges hk)).2 ⟨hlt, hc⟩, List.getElem?_idxOf hm⟩

theorem lt_length_of_mem_members {c v : Nat} (hv : v ∈ (of facts).condensation.members c) :
    v < facts.keys.length :=
  ((Condensation.mem_members_iff (wellFormed_callEdges hk)).1 hv).1

theorem length_members (c : Nat) :
    ((of facts).members c).length = ((of facts).condensation.members c).length := by
  rw [members, List.filterMap_length_eq_length]
  intro v hv
  have hlt := lt_length_of_mem_members hk hv
  show (facts.keys[v]?).isSome
  rw [List.getElem?_eq_getElem hlt]
  rfl

/-- Members are listed once. -/
theorem nodup_members (c : Nat) : ((of facts).members c).Nodup := by
  by_cases hc : c < (of facts).size
  · obtain ⟨below, htop⟩ := Condensation.exists_isTop_members (wellFormed_callEdges hk) hc
    refine List.Nodup.filterMap (fun v w m hv hw => ?_) (htop.sorted.imp Nat.ne_of_lt)
    obtain ⟨hv, rfl⟩ := List.getElem?_eq_some_iff.1 hv
    obtain ⟨hw, heq⟩ := List.getElem?_eq_some_iff.1 hw
    exact ((List.Nodup.getElem_inj_iff facts.nodup_keys).1 heq).symm
  · have hnone : (of facts).condensation.members c = [] := by
      rw [Condensation.members, List.getElem?_eq_none (Nat.le_of_not_lt hc)]
      rfl
    rw [members, hnone]
    exact .nil

/-- A call between methods with facts is an edge between their places. -/
theorem edge_of_call {m callee : MethodId} {f : MethodFacts} (hf : facts.get? m = some f)
    (hcall : callee ∈ f.callees) (hcallee : callee ∈ facts.keys) :
    (facts.keys.idxOf m, facts.keys.idxOf callee) ∈ callEdges facts facts.keys := by
  refine mem_callEdges.2 ⟨f, SortedMap.mem_values_iff.2 ⟨m, hf⟩, callee, hcall, hcallee, ?_⟩
  rw [hk m f hf]

/-- **Numbers fall along calls**: a call never leads to a component with a larger number. -/
theorem component_le_of_call {m callee : MethodId} {f : MethodFacts} {c d : Nat}
    (hf : facts.get? m = some f) (hcall : callee ∈ f.callees)
    (hc : (of facts).componentOf? m = some c) (hd : (of facts).componentOf? callee = some d) :
    d ≤ c := by
  obtain ⟨-, rfl⟩ := componentOf?_eq_some.1 hc
  obtain ⟨hcallee, rfl⟩ := componentOf?_eq_some.1 hd
  exact Condensation.componentOf_le (wellFormed_callEdges hk) (edge_of_call hk hf hcall hcallee)

/-- A component is cyclic if it has several members or one that calls itself. -/
theorem isCyclic_iff {c : Nat} :
    (of facts).isCyclic c = true ↔ 1 < ((of facts).members c).length ∨
      ∃ m ∈ (of facts).members c, ∃ f, facts.get? m = some f ∧ m ∈ f.callees := by
  rw [length_members hk, isCyclic, Condensation.isCyclic, Bool.or_eq_true, decide_eq_true_eq]
  refine or_congr Iff.rfl ?_
  simp only [List.any_eq_true, Bool.and_eq_true, decide_eq_true_eq]
  constructor
  · rintro ⟨e, he, hmem, heq⟩
    obtain ⟨f, hf, callee, hcall, hcallee, rfl⟩ := mem_callEdges.1 he
    obtain ⟨m, hm⟩ := SortedMap.mem_values_iff.1 hf
    obtain rfl := hk m f hm
    have hkey : f.method ∈ facts.keys := SortedMap.mem_keys_iff.2 ⟨f, hm⟩
    obtain rfl : f.method = callee := (List.idxOf_inj hkey).1 heq
    refine ⟨f.method, ?_, f, hm, hcall⟩
    exact List.mem_filterMap.2 ⟨_, hmem, List.getElem?_idxOf hkey⟩
  · rintro ⟨m, hm, f, hf, hcall⟩
    have hcomponent := (mem_members hk).1 hm
    obtain ⟨hkey, hc⟩ := componentOf?_eq_some.1 hcomponent
    refine ⟨_, edge_of_call hk hf hcall hkey, ?_, rfl⟩
    exact (Condensation.mem_members_iff (wellFormed_callEdges hk)).2
      ⟨List.idxOf_lt_length_iff.2 hkey, hc⟩

/-- A method of a component that is not cyclic calls nothing inside the component. -/
theorem not_call_within {c : Nat} (hcyclic : (of facts).isCyclic c = false) {m callee : MethodId}
    {f : MethodFacts} (hm : m ∈ (of facts).members c) (hf : facts.get? m = some f)
    (hcall : callee ∈ f.callees) : callee ∉ (of facts).members c := by
  intro hcallee
  refine absurd ((isCyclic_iff hk).2 ?_) (by rw [hcyclic]; exact Bool.false_ne_true)
  -- a call to itself makes the component cyclic, and so does one to a second member
  by_cases heq : callee = m
  · exact .inr ⟨m, hm, f, hf, heq ▸ hcall⟩
  · exact .inl (one_lt_length_of_ne hcallee hm heq)

/-- In a component, all methods but one call a member. -/
theorem exists_call_of_member {c : Nat} (hc : c < (of facts).size) :
    ∃ r ∈ (of facts).members c, ∀ m ∈ (of facts).members c, m = r ∨
      ∃ f, facts.get? m = some f ∧ ∃ callee ∈ f.callees, callee ∈ (of facts).members c := by
  obtain ⟨below, htop⟩ := Condensation.exists_isTop_members (wellFormed_callEdges hk) hc
  obtain ⟨r, hr⟩ := List.exists_mem_of_ne_nil _ htop.nonempty
  -- nodes stand for methods by their place among the keys
  have hplace : ∀ v ∈ (of facts).condensation.members c,
      ∃ m ∈ (of facts).members c, facts.keys[v]? = some m := by
    intro v hv
    have hlt := lt_length_of_mem_members hk hv
    exact ⟨facts.keys[v], List.mem_filterMap.2 ⟨v, hv, List.getElem?_eq_getElem hlt⟩,
      List.getElem?_eq_getElem hlt⟩
  obtain ⟨root, hroot, hrplace⟩ := hplace r hr
  refine ⟨root, hroot, fun m hm => ?_⟩
  obtain ⟨v, hv, hvplace⟩ := List.mem_filterMap.1 hm
  by_cases heq : v = r
  · subst heq
    exact .inl (Option.some_inj.1 (hvplace.symm.trans hrplace))
  · -- an edge to another member, which has to be read as a call
    obtain ⟨u, hu, he⟩ :=
      Condensation.exists_edge_of_members (wellFormed_callEdges hk) hv hr heq
    obtain ⟨f, hf, callee, hcall, hcallee, heq⟩ := mem_callEdges.1 he
    obtain ⟨rfl, rfl⟩ := Prod.mk.inj heq
    obtain ⟨m', hm'⟩ := SortedMap.mem_values_iff.1 hf
    obtain rfl := hk m' f hm'
    have hkey : f.method ∈ facts.keys := SortedMap.mem_keys_iff.2 ⟨f, hm'⟩
    have hplaces : facts.keys[facts.keys.idxOf f.method]? = some m := hvplace
    rw [List.getElem?_idxOf hkey, Option.some_inj] at hplaces
    refine .inr ⟨f, hplaces ▸ hm', callee, hcall, ?_⟩
    exact List.mem_filterMap.2 ⟨_, hu, List.getElem?_idxOf hcallee⟩

end Keyed

end CallGraph

/-! ## Members with their facts -/

/-- The facts about the members of a component. -/
theorem Builder.mem_memberFacts {b : Builder} (hk : b.facts.Keyed) (hg : b.graph = .of b.facts)
    {c : Nat} {f : MethodFacts} : f ∈ b.memberFacts c ↔
      b.facts.get? f.method = some f ∧ b.graph.componentOf? f.method = some c := by
  rw [memberFacts, List.mem_filterMap, hg]
  constructor
  · rintro ⟨m, hm, hf⟩
    obtain rfl := hk m f hf
    exact ⟨hf, (CallGraph.mem_members hk).1 hm⟩
  · rintro ⟨hf, hc⟩
    exact ⟨f.method, (CallGraph.mem_members hk).2 hc, hf⟩

/-- Every member of a component has facts. -/
theorem Builder.map_method_memberFacts {b : Builder} (hk : b.facts.Keyed)
    (hg : b.graph = .of b.facts) (c : Nat) :
    (b.memberFacts c).map (·.method) = b.graph.members c := by
  rw [memberFacts, List.map_filterMap]
  refine (List.filterMap_congr fun m hm => ?_).trans List.filterMap_some
  rw [hg] at hm
  obtain ⟨f, hf⟩ := CallGraph.exists_componentOf?_iff.1 ⟨c, (CallGraph.mem_members hk).1 hm⟩
  rw [hf, Option.map_some, hk m f hf]

theorem Builder.nodup_memberFacts {b : Builder} (hk : b.facts.Keyed) (hg : b.graph = .of b.facts)
    (c : Nat) : ((b.memberFacts c).map (·.method)).Nodup := by
  rw [map_method_memberFacts hk hg, hg]
  exact CallGraph.nodup_members hk c

/-- The member of a component that is not cyclic calls no member. -/
theorem Builder.not_call_within_memberFacts {b : Builder} (hk : b.facts.Keyed)
    (hg : b.graph = .of b.facts) {c : Nat} (hcyclic : b.graph.isCyclic c = false) :
    ∀ f ∈ b.memberFacts c, ∀ callee ∈ f.callees, callee ∉ (b.memberFacts c).map (·.method) := by
  intro f hf callee hcallee
  obtain ⟨hfacts, hc⟩ := (mem_memberFacts hk hg).1 hf
  rw [map_method_memberFacts hk hg, hg]
  rw [hg] at hcyclic hc
  exact CallGraph.not_call_within hk hcyclic ((CallGraph.mem_members hk).2 hc) hfacts hcallee

/-- A call out of a component leads to one with a smaller number. -/
theorem Builder.lt_of_call_outside {b : Builder} (hk : b.facts.Keyed) (hg : b.graph = .of b.facts)
    {c d : Nat} {f : MethodFacts} (hf : f ∈ b.memberFacts c) {callee : MethodId}
    (hcallee : callee ∈ f.callees) (hout : callee ∉ (b.memberFacts c).map (·.method))
    (hd : b.graph.componentOf? callee = some d) : d < c := by
  obtain ⟨hfacts, hc⟩ := (mem_memberFacts hk hg).1 hf
  rw [map_method_memberFacts hk hg, hg, CallGraph.mem_members hk, ← hg] at hout
  have hne : d ≠ c := by
    rintro rfl
    exact hout hd
  have hle : d ≤ c := by
    rw [hg] at hc hd
    exact CallGraph.component_le_of_call hk hfacts hcallee hc hd
  exact Nat.lt_of_le_of_ne hle hne

/-! ## Callees first -/

section CalleeFirst

variable {fs : List MethodFacts}

/-- The callees among some methods are some of them. -/
theorem mem_of_mem_calleesAmong {m callee : MethodId} (h : callee ∈ calleesAmong fs m) :
    callee ∈ fs.map (·.method) := by
  rw [calleesAmong] at h
  split at h
  · obtain ⟨g, hg, heq⟩ := List.any_eq_true.1 (List.mem_filter.1 h).2
    exact List.mem_map.2 ⟨g, hg, of_decide_eq_true heq⟩
  · cases h

variable (hfs : (fs.map (·.method)).Nodup)

include hfs

/-- Facts are found by their method. -/
theorem find?_method {f : MethodFacts} (hf : f ∈ fs) :
    fs.find? (·.method = f.method) = some f := by
  induction fs with
  | nil => cases hf
  | cons d fs ih =>
    rw [List.map_cons, List.nodup_cons] at hfs
    rw [List.find?_cons]
    rcases List.mem_cons.1 hf with rfl | hf
    · rw [decide_eq_true rfl]
    · have hne : d.method ≠ f.method := fun heq =>
        hfs.1 (heq ▸ List.mem_map.2 ⟨f, hf, rfl⟩)
      rw [decide_eq_false hne]
      exact ih hfs.2 hf

/-- **Order in a component**: ordering methods callees first loses and repeats none. -/
theorem calleeFirst_perm : (calleeFirst fs).Perm fs := by
  have hnext : ∀ m ∈ fs.map (·.method), ∀ callee ∈ calleesAmong fs m,
      callee ∈ fs.map (·.method) := fun _ _ _ => mem_of_mem_calleesAmong
  have hsize : (fs.map (·.method)).length ≤ fs.length := Nat.le_of_eq (List.length_map _)
  have hfound : ∀ {m f}, fs.find? (·.method = m) = some f → f.method = m := by
    intro m f h
    have hdecide := List.find?_some h
    exact of_decide_eq_true hdecide
  -- the search finds each method once, and its facts are found by its number
  refine (List.perm_ext_iff_of_nodup ?_ (List.Nodup.of_map _ hfs)).2 fun f => ?_
  · refine List.Nodup.filterMap (fun m m' f hm hm' => ?_) (nodup_postOrder hnext hsize)
    rw [← hfound hm, ← hfound hm']
  · rw [calleeFirst, List.mem_filterMap]
    constructor
    · rintro ⟨m, -, hm⟩
      exact List.mem_of_find?_eq_some hm
    · intro hf
      exact ⟨f.method, (mem_postOrder hnext hsize).2 (List.mem_map.2 ⟨f, hf, rfl⟩),
        find?_method hfs hf⟩

end CalleeFirst

end Interlock
