import Interlock.Json.Basic

/-!
# JSON tokens

The words of a JSON text: brackets, separators, and literals. A text is split into
tokens by `Token.scan?`, which skips blanks between them; `Token.chars` writes a
token back.

- `Piece`, `Piece.join?`: the characters of a string literal, where an escape may
  stand for half of a character.
- `Token.scanNumber?`, `Token.scanText?`: the two kinds of literal with a grammar
  of their own.
-/

namespace Interlock

/-- A token of a JSON text. -/
inductive Token where
  | openBrace
  | closeBrace
  | openBracket
  | closeBracket
  | comma
  | colon
  | null
  | bool (value : Bool)
  | num (value : Numeral)
  | str (value : Literal)
  deriving DecidableEq, Repr

/-! ## Characters of string literals -/

/-- A character of a string literal, or a surrogate escape: half of a character. -/
inductive Piece where
  | char (c : Char)
  | half (unit : Nat)
  deriving DecidableEq, Repr

namespace Piece

/-- Surrogates that open a pair. -/
def isLeading (unit : Nat) : Bool := 0xD800 ≤ unit && unit < 0xDC00

/-- Surrogates that close a pair. -/
def isTrailing (unit : Nat) : Bool := 0xDC00 ≤ unit && unit < 0xE000

/-- The piece that a `\u` escape stands for. -/
def ofUnit (unit : Nat) : Piece :=
  if isLeading unit || isTrailing unit then .half unit else .char (Char.ofNat unit)

/-- The character that a surrogate pair stands for. -/
def ofPair (lead trail : Nat) : Char :=
  Char.ofNat (0x10000 + (lead - 0xD800) * 0x400 + (trail - 0xDC00))

/-- The characters of a literal, if every half has its partner. -/
def join? : List Piece → Option (List Char)
  | [] => some []
  | .char c :: rest => (join? rest).map (c :: ·)
  | .half a :: .half b :: rest =>
    if isLeading a && isTrailing b then (join? rest).map (ofPair a b :: ·) else none
  | .half _ :: _ => none

end Piece

namespace Token

/-! ## Reading -/

/-- The characters that may stand between tokens. -/
def isBlank (c : Char) : Bool := c = ' ' || c = '\t' || c = '\n' || c = '\r'

/-- The value of a hexadecimal digit. -/
def hexDigit? (c : Char) : Option Nat :=
  if '0' ≤ c && c ≤ '9' then some (c.toNat - '0'.toNat)
  else if 'a' ≤ c && c ≤ 'f' then some (c.toNat - 'a'.toNat + 10)
  else if 'A' ≤ c && c ≤ 'F' then some (c.toNat - 'A'.toNat + 10)
  else none

/-- The value of four hexadecimal digits. -/
def hexUnit? (a b c d : Char) : Option Nat := do
  let a ← hexDigit? a
  let b ← hexDigit? b
  let c ← hexDigit? c
  let d ← hexDigit? d
  return ((a * 16 + b) * 16 + c) * 16 + d

/-- The character that a one-letter escape stands for. -/
def unescape? : Char → Option Char
  | '"' => some '"'
  | '\\' => some '\\'
  | '/' => some '/'
  | 'b' => some '\x08'
  | 'f' => some '\x0c'
  | 'n' => some '\n'
  | 'r' => some '\r'
  | 't' => some '\t'
  | _ => none

/-- The pieces of a string literal up to its closing quote, and what follows. Control characters
must be escaped. -/
def scanPieces? (acc : List Piece) : List Char → Option (List Piece × List Char)
  | [] => none
  | '"' :: rest => some (acc.reverse, rest)
  | '\\' :: 'u' :: a :: b :: c :: d :: rest =>
    match hexUnit? a b c d with
    | some unit => scanPieces? (.ofUnit unit :: acc) rest
    | none => none
  | '\\' :: e :: rest =>
    match unescape? e with
    | some c => scanPieces? (.char c :: acc) rest
    | none => none
  | c :: rest => if c < ' ' || c = '\\' then none else scanPieces? (.char c :: acc) rest

/-- A string literal after its opening quote, and what follows. -/
def scanText? (cs : List Char) : Option (Literal × List Char) :=
  (scanPieces? [] cs).map fun (pieces, rest) => ((Piece.join? pieces).map String.ofList, rest)

/-- The number that a row of digits stands for. -/
def digitsValue (ds : List Char) : Nat := ds.foldl (fun n d => n * 10 + (d.toNat - '0'.toNat)) 0

/-- A row of at least one digit, and what follows. -/
def scanDigits? (cs : List Char) : Option (List Char × List Char) :=
  match cs.takeWhile Char.isDigit with
  | [] => none
  | ds => some (ds, cs.dropWhile Char.isDigit)

/-- The digits before the point: no zero stands in front of another digit. -/
def scanWhole? (cs : List Char) : Option (List Char × List Char) :=
  match scanDigits? cs with
  | some ('0' :: _ :: _, _) => none
  | found => found

/-- The digits after the point, if there is one. -/
def scanFraction? : List Char → Option (List Char × List Char)
  | '.' :: rest => scanDigits? rest
  | rest => some ([], rest)

/-- The exponent, if there is one. -/
def scanExponent? : List Char → Option (Option Int × List Char)
  | [] => some (none, [])
  | c :: rest =>
    if c = 'e' || c = 'E' then
      match rest with
      | '-' :: rest => (scanDigits? rest).map fun (ds, rest) => (some (-(digitsValue ds : Int)), rest)
      | '+' :: rest => (scanDigits? rest).map fun (ds, rest) => (some (digitsValue ds : Int), rest)
      | rest => (scanDigits? rest).map fun (ds, rest) => (some (digitsValue ds : Int), rest)
    else some (none, c :: rest)

/-- The number with the given parts. -/
def numeral (negative : Bool) (whole fraction : List Char) (exponent : Option Int) : Numeral :=
  if !negative && fraction.isEmpty && exponent.isNone then .natural (digitsValue whole)
  else .decimal negative (digitsValue (whole ++ fraction)) (exponent.getD 0 - fraction.length)

/-- A number literal without its sign, and what follows. -/
def scanMagnitude? (negative : Bool) (cs : List Char) : Option (Numeral × List Char) := do
  let (whole, cs) ← scanWhole? cs
  let (fraction, cs) ← scanFraction? cs
  let (exponent, cs) ← scanExponent? cs
  return (numeral negative whole fraction exponent, cs)

/-- A number literal, and what follows. -/
def scanNumber? : List Char → Option (Numeral × List Char)
  | '-' :: rest => scanMagnitude? true rest
  | rest => scanMagnitude? false rest

/-- The token at the start of a text, and what follows. -/
def scanOne? : List Char → Option (Token × List Char)
  | '{' :: rest => some (.openBrace, rest)
  | '}' :: rest => some (.closeBrace, rest)
  | '[' :: rest => some (.openBracket, rest)
  | ']' :: rest => some (.closeBracket, rest)
  | ',' :: rest => some (.comma, rest)
  | ':' :: rest => some (.colon, rest)
  | 'n' :: 'u' :: 'l' :: 'l' :: rest => some (.null, rest)
  | 't' :: 'r' :: 'u' :: 'e' :: rest => some (.bool true, rest)
  | 'f' :: 'a' :: 'l' :: 's' :: 'e' :: rest => some (.bool false, rest)
  | '"' :: rest => (scanText? rest).map fun (s, rest) => (.str s, rest)
  | rest => (scanNumber? rest).map fun (n, rest) => (.num n, rest)

/-- The tokens of a text, after those in `acc`, which are held in reverse. The first argument
bounds the number of tokens and blanks; the length of the text is enough. -/
def scanFrom? : Nat → List Token → List Char → Option (List Token)
  | _, acc, [] => some acc.reverse
  | 0, _, _ :: _ => none
  | fuel + 1, acc, c :: rest =>
    if isBlank c then scanFrom? fuel acc rest
    else
      match scanOne? (c :: rest) with
      | some (t, rest) => scanFrom? fuel (t :: acc) rest
      | none => none

/-- The tokens of a text. -/
def scan? (cs : List Char) : Option (List Token) := scanFrom? cs.length [] cs

/-! ## Writing -/

/-- The digits of a number below 16. -/
def hexDigit (n : Nat) : Char := if n < 10 then Char.ofNat ('0'.toNat + n) else Char.ofNat ('a'.toNat + n - 10)

/-- A character of a string literal: quote, backslash and control characters are escaped. -/
def escape (c : Char) : List Char :=
  if c = '"' then ['\\', '"']
  else if c = '\\' then ['\\', '\\']
  else if c = '\x08' then ['\\', 'b']
  else if c = '\x0c' then ['\\', 'f']
  else if c = '\n' then ['\\', 'n']
  else if c = '\r' then ['\\', 'r']
  else if c = '\t' then ['\\', 't']
  else if c < ' ' then ['\\', 'u', '0', '0', hexDigit (c.toNat / 16), hexDigit (c.toNat % 16)]
  else [c]

/-- A string literal. One that is not text is written as a lone surrogate. -/
def textChars : Literal → List Char
  | some s => '"' :: s.toList.flatMap escape ++ ['"']
  | none => "\"\\ud800\"".toList

/-- A number literal. -/
def numeralChars : Numeral → List Char
  | .natural n => Nat.toDigits 10 n
  | .decimal negative digits exponent =>
    (if negative then ['-'] else []) ++ Nat.toDigits 10 digits ++ 'e' ::
      match exponent with
      | .ofNat e => Nat.toDigits 10 e
      | .negSucc e => '-' :: Nat.toDigits 10 (e + 1)

/-- The text of a token. -/
def chars : Token → List Char
  | .openBrace => ['{']
  | .closeBrace => ['}']
  | .openBracket => ['[']
  | .closeBracket => [']']
  | .comma => [',']
  | .colon => [':']
  | .null => "null".toList
  | .bool true => "true".toList
  | .bool false => "false".toList
  | .num n => numeralChars n
  | .str s => textChars s

end Token

end Interlock
