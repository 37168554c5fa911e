import Interlock.Json.Token

/-!
# JSON texts

Reading and writing of whole texts, by way of their tokens.

- `Json.parse?`: the value of a text.
- `Json.compact`: a value without blanks.
- `Json.pretty`: a value over several lines, indented by two blanks per level.
-/

namespace Interlock

namespace Json

/-! ## Reading -/

mutual

/-- The value that a list of tokens starts with, and what follows. The first argument bounds the
number of nested calls; the number of tokens is enough. -/
def readValue? : Nat → List Token → Option (Json × List Token)
  | 0, _ => none
  | fuel + 1, tokens =>
    match tokens with
    | .null :: rest => some (.null, rest)
    | .bool b :: rest => some (.bool b, rest)
    | .num n :: rest => some (.num n, rest)
    | .str s :: rest => some (.str s, rest)
    | .openBracket :: .closeBracket :: rest => some (.arr [], rest)
    | .openBracket :: rest => readItems? fuel [] rest
    | .openBrace :: .closeBrace :: rest => some (.obj [], rest)
    | .openBrace :: rest => readMembers? fuel [] rest
    | _ => none

/-- An array after its opening bracket or a comma, with the items before in reverse. -/
def readItems? : Nat → List Json → List Token → Option (Json × List Token)
  | 0, _, _ => none
  | fuel + 1, acc, tokens =>
    match readValue? fuel tokens with
    | some (v, .comma :: rest) => readItems? fuel (v :: acc) rest
    | some (v, .closeBracket :: rest) => some (.arr (v :: acc).reverse, rest)
    | _ => none

/-- An object after its opening brace or a comma, with the members before in reverse. -/
def readMembers? : Nat → List (Literal × Json) → List Token → Option (Json × List Token)
  | 0, _, _ => none
  | fuel + 1, acc, tokens =>
    match tokens with
    | .str k :: .colon :: rest =>
      match readValue? fuel rest with
      | some (v, .comma :: rest) => readMembers? fuel ((k, v) :: acc) rest
      | some (v, .closeBrace :: rest) => some (.obj ((k, v) :: acc).reverse, rest)
      | _ => none
    | _ => none

end

/-- The value of a list of tokens, all of which it uses. -/
def ofTokens? (tokens : List Token) : Option Json :=
  match readValue? tokens.length tokens with
  | some (v, []) => some v
  | _ => none

/-- The value of a text. -/
def parse? (text : String) : Option Json := (Token.scan? text.toList).bind ofTokens?

/-! ## Writing -/

mutual

/-- The tokens of a value. -/
def tokens : Json → List Token
  | .null => [.null]
  | .bool b => [.bool b]
  | .num n => [.num n]
  | .str s => [.str s]
  | .arr [] => [.openBracket, .closeBracket]
  | .arr (v :: rest) => .openBracket :: (v.tokens ++ itemsTokens rest)
  | .obj [] => [.openBrace, .closeBrace]
  | .obj ((k, v) :: rest) => .openBrace :: .str k :: .colon :: (v.tokens ++ membersTokens rest)

/-- The tokens of the items after the first, with the closing bracket. -/
def itemsTokens : List Json → List Token
  | [] => [.closeBracket]
  | v :: rest => .comma :: (v.tokens ++ itemsTokens rest)

/-- The tokens of the members after the first, with the closing brace. -/
def membersTokens : List (Literal × Json) → List Token
  | [] => [.closeBrace]
  | (k, v) :: rest => .comma :: .str k :: .colon :: (v.tokens ++ membersTokens rest)

end

/-- The text of a value without blanks. -/
def compact (v : Json) : String := String.ofList (v.tokens.flatMap Token.chars)

/-- A line break and the indentation of a level. -/
def newline (level : Nat) : List Char := '\n' :: List.replicate (2 * level) ' '

mutual

/-- The text of a value over several lines, inside `level` levels. -/
def prettyChars (level : Nat) : Json → List Char
  | .arr [] => ['[', ']']
  | .arr (v :: rest) =>
    '[' :: newline (level + 1) ++ prettyChars (level + 1) v ++ prettyItems level rest
  | .obj [] => ['{', '}']
  | .obj ((k, v) :: rest) =>
    '{' :: newline (level + 1) ++ Token.textChars k ++ [':', ' '] ++ prettyChars (level + 1) v
      ++ prettyMembers level rest
  | .null => Token.null.chars
  | .bool b => (Token.bool b).chars
  | .num n => (Token.num n).chars
  | .str s => (Token.str s).chars

/-- The items after the first. -/
def prettyItems (level : Nat) : List Json → List Char
  | [] => newline level ++ [']']
  | v :: rest => ',' :: newline (level + 1) ++ prettyChars (level + 1) v ++ prettyItems level rest

/-- The members after the first. -/
def prettyMembers (level : Nat) : List (Literal × Json) → List Char
  | [] => newline level ++ ['}']
  | (k, v) :: rest =>
    ',' :: newline (level + 1) ++ Token.textChars k ++ [':', ' '] ++ prettyChars (level + 1) v
      ++ prettyMembers level rest

end

/-- The text of a value over several lines. -/
def pretty (v : Json) : String := String.ofList (v.prettyChars 0)

end Json

end Interlock
