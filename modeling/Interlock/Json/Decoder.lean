import Interlock.Json.Basic

/-!
# Reading typed values out of JSON

Records and tagged unions, read strictly. A record is an object, whose unknown keys
are ignored and whose known keys must not repeat, or an array of its fields in
order. A tagged union is an object with a tag among its keys, or an array that
starts with the tag.

Reading a tagged union means to look for its tag first and to keep the other
members until the tag is known. What is kept that way has to be representable:
text and numbers must be valid and the nesting must not be too deep. Inside kept
values, on the other hand, a tag may also be given by its number.

- `Place`: where a value stands.
- `Decoder`: a reader of values of one type.
- `Decoder.record`, `Decoder.union`: readers of records and tagged unions.
-/

namespace Interlock

/-- Where a value stands in a text. -/
structure Place where
  /-- How many more levels of nesting are allowed. -/
  room : Nat
  /-- Whether the value was kept before it is read. -/
  kept : Bool

namespace Place

/-- The place of a whole text: 127 levels are allowed. -/
def top : Place := ⟨127, false⟩

/-- The place of the values inside an array or object. -/
def enter? (p : Place) : Option Place :=
  match p.room with
  | 0 => none
  | room + 1 => some { p with room }

/-- The same place for a value that was kept. -/
def keep (p : Place) : Place := { p with kept := true }

/-- Whether a value at this place can be kept. -/
def canKeep (p : Place) (v : Json) : Bool := v.isPlain && v.height ≤ p.room

end Place

/-- A reader of values of one type. -/
abbrev Decoder (α : Type) := Place → Json → Option α

/-- The fields of a record in order, each with its value if it is present. -/
abbrev Fields := List (Option Json)

namespace Decoder

variable {α : Type}

/-! ## Scalars and lists -/

/-- A string. -/
def string : Decoder String
  | _, .str s => s
  | _, _ => none

/-- A truth value. -/
def bool : Decoder Bool
  | _, .bool b => some b
  | _, _ => none

/-- A number below `2 ^ 32`. -/
def uint32 : Decoder UInt32
  | _, .num (.natural n) => if n < UInt32.size then some (.ofNat n) else none
  | _, _ => none

/-- A number below `2 ^ 64`. -/
def uint64 : Decoder UInt64
  | _, .num (.natural n) => if n < UInt64.size then some (.ofNat n) else none
  | _, _ => none

/-- A list. -/
def list (item : Decoder α) : Decoder (List α)
  | p, .arr items => p.enter?.bind fun q => items.mapM (item q)
  | _, _ => none

/-- A value that may be `null`. -/
def optional (value : Decoder α) : Decoder (Option α)
  | _, .null => some none
  | p, v => (value p v).map some

/-! ## Records -/

/-- Whether every key of an object is text. -/
def keysAreText (members : List (Literal × Json)) : Bool := members.all (·.1.isSome)

/-- The value of a key that may be missing but must not repeat. -/
def single? (members : List (Literal × Json)) (key : String) : Option (Option Json) :=
  match members.filter (·.1 = some key) with
  | [] => some none
  | [m] => some (some m.2)
  | _ => none

/-- The members with another key. -/
def others (members : List (Literal × Json)) (key : String) : List (Literal × Json) :=
  members.filter (·.1 ≠ some key)

/-- The fields with the given names: of an object by key, of an array by position. -/
def fields? (names : List String) : Json → Option Fields
  | .obj members => if keysAreText members then names.mapM (single? members) else none
  | .arr items =>
    if items.length ≤ names.length then
      some (items.map some ++ List.replicate (names.length - items.length) none)
    else none
  | _ => none

/-- The value of a field that must be present. -/
def required (value : Decoder α) (p : Place) : Option Json → Option α
  | some v => value p v
  | none => none

/-- The value of a field that may be left out. -/
def withDefault (value : Decoder α) (default : α) (p : Place) : Option Json → Option α
  | some v => value p v
  | none => some default

/-- A record with the given field names. -/
def record (names : List String) (build : Place → Fields → Option α) : Decoder α := fun p v => do
  let q ← p.enter?
  build q (← fields? names v)

/-! ## Tagged unions -/

/-- One case of a tagged union: its tag, the names of its fields, and what they build. -/
structure Case (α : Type) where
  tag : String
  names : List String
  build : Place → Fields → Option α

/-- The case that a tag names. A kept tag may also be the number of the case. -/
def pick? (cases : List (Case α)) (p : Place) : Json → Option (Case α)
  | .str (some s) => cases.find? (·.tag = s)
  | .num (.natural i) => if p.kept then cases[i]? else none
  | _ => none

/-- A tagged union, with the tag under the key `tag`. -/
def union (tag : String) (cases : List (Case α)) : Decoder α
  | p, .obj members => do
    let q ← p.enter?
    guard (keysAreText members)
    let rest := others members tag
    guard (rest.all fun m => q.canKeep m.2)
    let c ← pick? cases p (← ← single? members tag)
    c.build q.keep (← fields? c.names (.obj rest))
  | p, .arr (t :: items) => do
    let q ← p.enter?
    guard (items.all q.canKeep)
    let c ← pick? cases p t
    guard (items.length = c.names.length)
    c.build q.keep (items.map some)
  | _, _ => none

end Decoder

end Interlock
