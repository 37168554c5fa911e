import Interlock.Json.Numeral

/-!
# JSON values

The values of a JSON text, with enough detail to tell apart all that a reader of
such texts may want to refuse: an object keeps its members in order, repeated keys
included; a number that is not a plain row of digits is kept apart from those that
are; and a string literal whose escapes do not form Unicode text is kept as such.

- `Json.height`: how deeply a value is nested.
- `Json.isPlain`: whether every string is text and every number in range.
-/

namespace Interlock

/-- A string literal: the text, or `none` where a lone surrogate escape keeps it from being one. -/
abbrev Literal := Option String

/-- A JSON value. -/
inductive Json where
  | null
  | bool (value : Bool)
  | num (value : Numeral)
  | str (value : Literal)
  | arr (items : List Json)
  | obj (members : List (Literal × Json))
  deriving Repr

namespace Json

/-- A string value. -/
def ofString (s : String) : Json := .str (some s)

/-- A natural number. -/
def ofNat (n : Nat) : Json := .num (.natural n)

/-- An object with the given members. -/
def ofMembers (members : List (String × Json)) : Json :=
  .obj (members.map fun m => (some m.1, m.2))

mutual

/-- Levels of nesting: none for a scalar. -/
def height : Json → Nat
  | .arr items => itemsHeight items + 1
  | .obj members => membersHeight members + 1
  | _ => 0

/-- The greatest height in a list. -/
def itemsHeight : List Json → Nat
  | [] => 0
  | v :: rest => max v.height (itemsHeight rest)

/-- The greatest height among the members of an object. -/
def membersHeight : List (Literal × Json) → Nat
  | [] => 0
  | (_, v) :: rest => max v.height (membersHeight rest)

end

mutual

/-- Whether every string is text and every number fits a double. -/
def isPlain : Json → Bool
  | .num n => n.fitsDouble
  | .str s => s.isSome
  | .arr items => itemsPlain items
  | .obj members => membersPlain members
  | _ => true

/-- Whether every value of a list is plain. -/
def itemsPlain : List Json → Bool
  | [] => true
  | v :: rest => v.isPlain && itemsPlain rest

/-- Whether every key and every value of an object is plain. -/
def membersPlain : List (Literal × Json) → Bool
  | [] => true
  | (k, v) :: rest => k.isSome && v.isPlain && membersPlain rest

end

end Json

end Interlock
