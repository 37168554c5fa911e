/-!
# Number literals

The numbers of a JSON text, and the test whether one is in the range of a double.

A number is evaluated in doubles: as many of its leading digits as fit in 64 bits are
rounded to a double, which is multiplied by the double nearest to the power of ten
that is left. Digits after those count as zeros. The number is in range if the
product is. Close to the greatest double this is coarser than rounding the exact
number once, in both directions.

- `Numeral`: a number literal.
- `roundToDouble`: the double nearest to a natural number.
- `leadingDigits`: the digits that are looked at.
- `Numeral.fitsDouble`: whether a number is in range.
-/

namespace Interlock

/-- A number literal. -/
inductive Numeral where
  /-- A row of digits. -/
  | natural (value : Nat)
  /-- Any other literal: its sign, and its magnitude as `digits * 10 ^ exponent`. -/
  | decimal (negative : Bool) (digits : Nat) (exponent : Int)
  deriving DecidableEq, Repr

/-- A natural number rounded to 53 binary digits; halfway between two such numbers it goes to the
even one. Without a bound on the exponent, this is the nearest double. -/
def roundToDouble (n : Nat) : Nat :=
  let unit := Nat.pow 2 (n.log2 - 52)
  let below := n / unit
  let twice := 2 * (n % unit)
  if unit < twice ∨ unit = twice ∧ below % 2 = 1 then (below + 1) * unit else below * unit

/-- The longest row of leading digits that fits in 64 bits, and the number of digits after it. Any
19 digits fit, and no more than 20 do. -/
def leadingDigits (n : Nat) : Nat × Nat :=
  let dropped := (Nat.toDigits 10 n).length - 20
  let head := n / Nat.pow 10 dropped
  if head < UInt64.size then (head, dropped) else (head / 10, dropped + 1)

namespace Numeral

/-- The least magnitude that rounds to no double: a half unit above the greatest one. -/
def doubleRange : Nat := (Nat.pow 2 54 - 1) * Nat.pow 2 970

/-- Whether `digits * 10 ^ exponent` evaluates to a double. The product of two doubles is one if it
stays below `doubleRange`; a power of ten that is no double itself is too large for all digits but
zero, and a division never leaves the range. -/
def magnitudeFits (digits : Nat) (exponent : Int) : Bool :=
  let (head, dropped) := leadingDigits digits
  match exponent + dropped with
  | .ofNat e =>
    head = 0 || e ≤ 308 && roundToDouble head * roundToDouble (Nat.pow 10 e) < doubleRange
  | .negSucc _ => true

/-- Whether the number is in the range of a double. -/
def fitsDouble : Numeral → Bool
  | natural n => magnitudeFits n 0
  | decimal _ digits exponent => magnitudeFits digits exponent

end Numeral

end Interlock
