import Interlock.Json.Text
import Interlock.Proofs.Json.Tokens

/-!
# Written values are read back

The tokens of a value are read back as the value, and no two numbers stand next to each
other among them; so the text of a value is read back as the value.

- `Json.inductionOn`: values are built from smaller ones.
- `Json.readsBack`: the tokens of a value are read back.
- `Json.separated_tokens`: the tokens can be told apart in a row.
- `Json.parse?_compact`: the text of a value is read back.
-/

namespace Interlock

namespace Json

/-- Induction over values: an array or an object is reached from the values inside. -/
@[elab_as_elim]
theorem inductionOn {P : Json → Prop} (v : Json) (null : P .null) (bool : ∀ b, P (.bool b))
    (num : ∀ n, P (.num n)) (str : ∀ s, P (.str s))
    (arr : ∀ items, (∀ v ∈ items, P v) → P (.arr items))
    (obj : ∀ members, (∀ m ∈ members, P m.2) → P (.obj members)) : P v :=
  match v with
  | .null => null
  | .bool b => bool b
  | .num n => num n
  | .str s => str s
  | .arr items => arr items fun v _ => inductionOn v null bool num str arr obj
  | .obj members => obj members fun m _ => inductionOn m.2 null bool num str arr obj
termination_by sizeOf v
decreasing_by
  · next hv =>
    have hlt := List.sizeOf_lt_of_mem hv
    simp only [Json.arr.sizeOf_spec]
    omega
  · next hm =>
    have hlt := List.sizeOf_lt_of_mem hm
    cases m
    simp only [Json.obj.sizeOf_spec, Prod.mk.sizeOf_spec] at hlt ⊢
    omega

/-! ## Reading tokens -/

/-- `v.ReadsBack`: the value is read back from its tokens, whatever follows; as many nested calls as
there are tokens are enough. -/
def ReadsBack (v : Json) : Prop :=
  ∀ (fuel : Nat) (rest : List Token), v.tokens.length ≤ fuel →
    readValue? fuel (v.tokens ++ rest) = some (v, rest)

/-- The tokens of a value do not start with a closing bracket. -/
theorem tokens_eq_cons (v : Json) : ∃ t ts, v.tokens = t :: ts ∧ t ≠ .closeBracket := by
  cases v with
  | arr items => cases items <;> exact ⟨_, _, by rw [tokens], by decide⟩
  | obj members => cases members <;> exact ⟨_, _, by rw [tokens], by decide⟩
  | _ => exact ⟨_, _, by rw [tokens], by simp⟩

/-- Values that are read back are read back as the items of an array. -/
theorem readItems?_tokens {v : Json} {items : List Json} (hv : v.ReadsBack)
    (hitems : ∀ w ∈ items, w.ReadsBack) (acc : List Json) (fuel : Nat) (rest : List Token)
    (hfuel : v.tokens.length + (itemsTokens items).length ≤ fuel) :
    readItems? fuel acc (v.tokens ++ (itemsTokens items ++ rest))
      = some (.arr (acc.reverse ++ v :: items), rest) := by
  induction items generalizing v acc fuel with
  | nil =>
    simp only [itemsTokens, List.length_singleton] at hfuel
    obtain ⟨fuel, rfl⟩ : ∃ n, fuel = n + 1 := ⟨fuel - 1, by omega⟩
    rw [readItems?, hv fuel _ (by omega)]
    simp [itemsTokens]
  | cons w items ih =>
    simp only [itemsTokens, List.length_cons, List.length_append] at hfuel
    obtain ⟨fuel, rfl⟩ : ∃ n, fuel = n + 1 := ⟨fuel - 1, by omega⟩
    rw [readItems?, hv fuel _ (by omega)]
    simp only [itemsTokens, List.cons_append, List.append_assoc]
    rw [ih (hitems w List.mem_cons_self) (fun u hu => hitems u (List.mem_cons_of_mem _ hu))
      (v :: acc) fuel (by omega)]
    simp

/-- Values that are read back are read back as the members of an object. -/
theorem readMembers?_tokens {k : Literal} {v : Json} {members : List (Literal × Json)}
    (hv : v.ReadsBack) (hmembers : ∀ m ∈ members, m.2.ReadsBack) (acc : List (Literal × Json))
    (fuel : Nat) (rest : List Token)
    (hfuel : v.tokens.length + (membersTokens members).length ≤ fuel) :
    readMembers? fuel acc (.str k :: .colon :: (v.tokens ++ (membersTokens members ++ rest)))
      = some (.obj (acc.reverse ++ (k, v) :: members), rest) := by
  induction members generalizing k v acc fuel with
  | nil =>
    simp only [membersTokens, List.length_singleton] at hfuel
    obtain ⟨fuel, rfl⟩ : ∃ n, fuel = n + 1 := ⟨fuel - 1, by omega⟩
    simp only [readMembers?]
    rw [hv fuel _ (by omega)]
    simp [membersTokens]
  | cons m members ih =>
    obtain ⟨k', w⟩ := m
    simp only [membersTokens, List.length_cons, List.length_append] at hfuel
    obtain ⟨fuel, rfl⟩ : ∃ n, fuel = n + 1 := ⟨fuel - 1, by omega⟩
    simp only [readMembers?]
    rw [hv fuel _ (by omega)]
    simp only [membersTokens, List.cons_append, List.append_assoc]
    have hw : w.ReadsBack := hmembers (k', w) List.mem_cons_self
    rw [ih hw (fun u hu => hmembers u (List.mem_cons_of_mem _ hu)) ((k, v) :: acc) fuel (by omega)]
    simp

/-- Every value is read back from its tokens. -/
theorem readsBack (v : Json) : v.ReadsBack := by
  induction v using inductionOn with
  | arr items ih =>
    intro fuel rest hfuel
    cases items with
    | nil =>
      obtain ⟨fuel, rfl⟩ : ∃ n, fuel = n + 1 := ⟨fuel - 1, by simp [tokens] at hfuel; omega⟩
      rfl
    | cons v items =>
      simp only [tokens, List.length_cons, List.length_append] at hfuel
      obtain ⟨fuel, rfl⟩ : ∃ n, fuel = n + 1 := ⟨fuel - 1, by omega⟩
      have hitems := readItems?_tokens (ih v List.mem_cons_self)
        (fun w hw => ih w (List.mem_cons_of_mem _ hw)) [] fuel rest (by omega)
      -- a closing bracket here would make the array an empty one
      obtain ⟨t, ts, hv, hclose⟩ := v.tokens_eq_cons
      simp only [tokens, List.cons_append, List.append_assoc]
      rw [hv, List.cons_append] at hitems ⊢
      cases t with
      | closeBracket => exact absurd rfl hclose
      | _ => exact hitems
  | obj members ih =>
    intro fuel rest hfuel
    cases members with
    | nil =>
      obtain ⟨fuel, rfl⟩ : ∃ n, fuel = n + 1 := ⟨fuel - 1, by simp [tokens] at hfuel; omega⟩
      rfl
    | cons m members =>
      obtain ⟨k, v⟩ := m
      simp only [tokens, List.length_cons, List.length_append] at hfuel
      obtain ⟨fuel, rfl⟩ : ∃ n, fuel = n + 1 := ⟨fuel - 1, by omega⟩
      have hv : v.ReadsBack := ih (k, v) List.mem_cons_self
      have hmembers := readMembers?_tokens (k := k) hv
        (fun m hm => ih m (List.mem_cons_of_mem _ hm)) [] fuel rest (by omega)
      simp only [tokens, List.cons_append, List.append_assoc]
      exact hmembers
  | _ =>
    intro fuel rest hfuel
    obtain ⟨fuel, rfl⟩ : ∃ n, fuel = n + 1 := ⟨fuel - 1, by simp [tokens] at hfuel; omega⟩
    rfl

/-! ## Telling tokens apart -/

/-- `Apart ts`: no two numbers stand next to each other, and no number comes first. -/
def Apart (ts : List Token) : Prop :=
  Token.Separated ts ∧ ∀ t ∈ ts.head?, t.isNumber = false

theorem Apart.cons {t : Token} {ts : List Token} (ht : t.isNumber = false)
    (h : Token.Separated ts) : Apart (t :: ts) := by
  refine ⟨List.isChain_cons.2 ⟨fun u _ hnumbers => ?_, h⟩, fun u hu => ?_⟩
  · rw [ht] at hnumbers
    exact absurd hnumbers.1 Bool.false_ne_true
  · obtain rfl := Option.some_inj.1 hu
    exact ht

/-- `v.KeepsApart`: the tokens of the value in front of others leave no two numbers next to each
other. -/
def KeepsApart (v : Json) : Prop := ∀ rest, Apart rest → Token.Separated (v.tokens ++ rest)

/-- Values of an array are kept apart by commas. -/
theorem apart_itemsTokens {items : List Json} (h : ∀ v ∈ items, v.KeepsApart) {rest : List Token}
    (hrest : Token.Separated rest) : Apart (itemsTokens items ++ rest) := by
  induction items with
  | nil => exact Apart.cons rfl hrest
  | cons v items ih =>
    rw [itemsTokens, List.cons_append, List.append_assoc]
    have hitems := ih fun w hw => h w (List.mem_cons_of_mem _ hw)
    exact Apart.cons rfl (h v List.mem_cons_self _ hitems)

/-- Values of an object are kept apart by commas and keys. -/
theorem apart_membersTokens {members : List (Literal × Json)} (h : ∀ m ∈ members, m.2.KeepsApart)
    {rest : List Token} (hrest : Token.Separated rest) : Apart (membersTokens members ++ rest) := by
  induction members with
  | nil => exact Apart.cons rfl hrest
  | cons m members ih =>
    obtain ⟨k, v⟩ := m
    simp only [membersTokens, List.cons_append, List.append_assoc]
    have hmembers := ih fun w hw => h w (List.mem_cons_of_mem _ hw)
    have hv := h (k, v) List.mem_cons_self _ hmembers
    exact Apart.cons rfl (Apart.cons rfl (Apart.cons rfl hv).1).1

/-- Every value does: it is a number by itself, or ends in something else. -/
theorem keepsApart (v : Json) : v.KeepsApart := by
  induction v using inductionOn with
  | num n => exact fun rest hrest => List.isChain_cons.2 ⟨fun u hu hnumbers => by
      rw [hrest.2 u hu] at hnumbers
      exact absurd hnumbers.2 Bool.false_ne_true, hrest.1⟩
  | arr items ih =>
    intro rest hrest
    cases items with
    | nil => exact (Apart.cons rfl (Apart.cons rfl hrest.1).1).1
    | cons v items =>
      rw [tokens, List.cons_append, List.append_assoc]
      have hitems := apart_itemsTokens (fun w hw => ih w (List.mem_cons_of_mem _ hw)) hrest.1
      exact (Apart.cons rfl (ih v List.mem_cons_self _ hitems)).1
  | obj members ih =>
    intro rest hrest
    cases members with
    | nil => exact (Apart.cons rfl (Apart.cons rfl hrest.1).1).1
    | cons m members =>
      obtain ⟨k, v⟩ := m
      simp only [tokens, List.cons_append, List.append_assoc]
      have hmembers := apart_membersTokens (fun w hw => ih w (List.mem_cons_of_mem _ hw)) hrest.1
      have hv := ih (k, v) List.mem_cons_self _ hmembers
      exact (Apart.cons rfl (Apart.cons rfl (Apart.cons rfl hv).1).1).1
  | _ => exact fun rest hrest => (Apart.cons rfl hrest.1).1

/-- No two numbers stand next to each other among the tokens of a value. -/
theorem separated_tokens (v : Json) : Token.Separated v.tokens := by
  have hapart : Apart [] := ⟨List.isChain_nil, fun t ht => nomatch ht⟩
  have h := v.keepsApart [] hapart
  rwa [List.append_nil] at h

/-! ## Whole texts -/

/-- **Values are read back**: the text of a value is read as the value. -/
theorem parse?_compact (v : Json) : Json.parse? v.compact = some v := by
  -- nothing follows the value in its text
  have hread := v.readsBack v.tokens.length [] (Nat.le_refl _)
  rw [List.append_nil] at hread
  rw [parse?, compact, String.toList_ofList, Token.scan?_flatMap_chars v.separated_tokens,
    Option.bind_some, ofTokens?, hread]

end Json

end Interlock
