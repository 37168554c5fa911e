import Interlock.Json.Token
import Mathlib.Data.List.Chain

/-!
# Written tokens are read back

Every token can be written and read back from the front of a text, if what follows does
not extend it. Only a number can be extended, so a list of tokens is read back if no two
numbers stand next to each other.

- `Token.scanPieces?_escape`, `Token.scanOne?_textChars`: string literals, escapes included.
- `Token.scanOne?_numeralChars`: number literals.
- `Token.scanOne?_chars`: one token, `Token.scan?_flatMap_chars`: a list of tokens.
-/

namespace Interlock

namespace Token

/-! ## String literals -/

theorem hexDigit?_hexDigit {n : Nat} (h : n < 16) : hexDigit? (hexDigit n) = some n := by
  have hall : ∀ n : Fin 16, hexDigit? (hexDigit n) = some n.val := by decide
  exact hall ⟨n, h⟩

/-- The escape of a control character stands for it. -/
theorem hexUnit?_control {n : Nat} (h : n < 32) :
    hexUnit? '0' '0' (hexDigit (n / 16)) (hexDigit (n % 16)) = some n := by
  have hzero : hexDigit? '0' = some 0 := by decide
  have hhigh : hexDigit? (hexDigit (n / 16)) = some (n / 16) := hexDigit?_hexDigit (by omega)
  have hlow : hexDigit? (hexDigit (n % 16)) = some (n % 16) := hexDigit?_hexDigit (by omega)
  simp only [hexUnit?, hzero, hhigh, hlow, Option.bind_eq_bind, Option.bind_some, Option.pure_def]
  congr 1
  omega

/-- A control character is not half of a pair of code units. -/
theorem ofUnit_toNat {c : Char} (h : c < ' ') : Piece.ofUnit c.toNat = .char c := by
  have hlt : c.toNat < 32 := h
  have hhalf : (Piece.isLeading c.toNat || Piece.isTrailing c.toNat) = false := by
    simp only [Piece.isLeading, Piece.isTrailing, Bool.or_eq_false_iff, Bool.and_eq_false_iff,
      decide_eq_false_iff_not]
    omega
  rw [Piece.ofUnit, hhalf, if_neg Bool.false_ne_true, Char.ofNat_toNat]

/-- A character that needs no escape stands for itself. -/
theorem scanPieces?_plain {acc : List Piece} {c : Char} {rest : List Char} (hquote : c ≠ '"')
    (hslash : c ≠ '\\') (hcontrol : ¬ c < ' ') :
    scanPieces? acc (c :: rest) = scanPieces? (.char c :: acc) rest := by
  simp [scanPieces?, hslash, hcontrol]

/-- A `u` after a backslash brings in the digits of a code unit. -/
theorem scanPieces?_unit {acc : List Piece} {a b c d : Char} {rest : List Char} {unit : Nat}
    (h : hexUnit? a b c d = some unit) :
    scanPieces? acc ('\\' :: 'u' :: a :: b :: c :: d :: rest)
      = scanPieces? (.ofUnit unit :: acc) rest := by
  rw [scanPieces?, h]

/-- Each character is read back from the way it is written. -/
theorem scanPieces?_escape (acc : List Piece) (c : Char) (rest : List Char) :
    scanPieces? acc (escape c ++ rest) = scanPieces? (.char c :: acc) rest := by
  unfold escape
  split
  · next h => subst h; rfl
  split
  · next h => subst h; rfl
  split
  · next h => subst h; rfl
  split
  · next h => subst h; rfl
  split
  · next h => subst h; rfl
  split
  · next h => subst h; rfl
  split
  · next h => subst h; rfl
  split
  · next hcontrol =>
    -- the seven short escapes are done; what is left below the blank has a number
    have hunit := hexUnit?_control (n := c.toNat) hcontrol
    rw [← ofUnit_toNat hcontrol]
    exact scanPieces?_unit hunit
  · next hquote hslash _ _ _ _ _ hcontrol => exact scanPieces?_plain hquote hslash hcontrol

/-- Several characters are read back up to the closing quote. -/
theorem scanPieces?_flatMap_escape (acc : List Piece) (cs rest : List Char) :
    scanPieces? acc (cs.flatMap escape ++ '"' :: rest)
      = some (acc.reverse ++ cs.map .char, rest) := by
  induction cs generalizing acc with
  | nil => simp [scanPieces?]
  | cons c cs ih =>
    rw [List.flatMap_cons, List.append_assoc, scanPieces?_escape, ih]
    simp

theorem join?_chars (cs : List Char) : Piece.join? (cs.map .char) = some cs := by
  induction cs with
  | nil => rfl
  | cons c cs ih => simp [Piece.join?, ih]

/-- A string literal is read back, also one that is not text. -/
theorem scanOne?_textChars (s : Literal) (rest : List Char) :
    scanOne? (textChars s ++ rest) = some (.str s, rest) := by
  cases s with
  | none => rfl
  | some s =>
    have hpieces : scanPieces? [] (s.toList.flatMap escape ++ '"' :: rest)
        = some (s.toList.map .char, rest) := scanPieces?_flatMap_escape [] s.toList rest
    show (scanText? (s.toList.flatMap escape ++ ['"'] ++ rest)).map _ = _
    rw [List.append_assoc, List.singleton_append, scanText?, hpieces]
    simp [join?_chars]

/-! ## Number literals -/

/-- The digits of a number stand for it. -/
theorem digitsValue_toDigits (n : Nat) : digitsValue (Nat.toDigits 10 n) = n := by
  have hvalue : digitsValue = fun ds => Nat.ofDigitChars 10 ds 0 := by
    funext ds
    simp only [digitsValue, Nat.ofDigitChars, Nat.mul_comm]
  rw [hvalue]
  exact Nat.ofDigitChars_ten_toDigits

theorem isDigit_of_mem {n : Nat} {c : Char} (h : c ∈ Nat.toDigits 10 n) : c.isDigit = true :=
  Nat.isDigit_of_mem_toDigits (by decide) (by decide) h

/-- There is a first digit. -/
theorem toDigits_eq_cons (n : Nat) :
    ∃ d ds, Nat.toDigits 10 n = d :: ds ∧ d.isDigit = true := by
  cases hdigits : Nat.toDigits 10 n with
  | nil => exact absurd hdigits Nat.toDigits_ne_nil
  | cons d ds => exact ⟨d, ds, rfl, isDigit_of_mem (hdigits ▸ List.mem_cons_self)⟩

/-- `Ends p rest`: the text does not go on with a character of the given kind. -/
def Ends (p : Char → Bool) (rest : List Char) : Prop := ∀ c ∈ rest.head?, p c = false

/-- The digits of a number are read up to the first character that is no digit. -/
theorem scanDigits?_toDigits (n : Nat) {rest : List Char} (h : Ends Char.isDigit rest) :
    scanDigits? (Nat.toDigits 10 n ++ rest) = some (Nat.toDigits 10 n, rest) := by
  have hdigits : ∀ c ∈ Nat.toDigits 10 n, c.isDigit = true := fun c hc => isDigit_of_mem hc
  have hrest : rest.takeWhile Char.isDigit = [] ∧ rest.dropWhile Char.isDigit = rest := by
    cases rest with
    | nil => exact ⟨rfl, rfl⟩
    | cons c cs => simp [h c rfl]
  rw [scanDigits?, List.takeWhile_append_of_pos hdigits, List.dropWhile_append_of_pos hdigits,
    hrest.1, hrest.2, List.append_nil]
  split
  · next hnil => exact absurd hnil Nat.toDigits_ne_nil
  · rfl

/-- Numbers are written without leading zeros. -/
theorem toDigits_ne_zero_cons (n : Nat) (c : Char) (cs : List Char) :
    Nat.toDigits 10 n ≠ '0' :: c :: cs := by
  induction n using Nat.strongRecOn generalizing c cs with
  | _ n ih =>
    rw [Nat.toDigits_eq_if (by decide)]
    split
    · simp
    · next hle =>
      intro heq
      -- the leading digit is that of the number without its last digit
      have hvalue := digitsValue_toDigits (n / 10)
      cases hdigits : Nat.toDigits 10 (n / 10) with
      | nil => exact absurd hdigits Nat.toDigits_ne_nil
      | cons d ds =>
        rw [hdigits, List.cons_append] at heq
        obtain ⟨rfl, htail⟩ := List.cons.inj heq
        cases ds with
        | nil =>
          rw [hdigits] at hvalue
          have hzero : digitsValue ['0'] = 0 := by decide
          omega
        | cons d ds => exact ih (n / 10) (by omega) d ds hdigits

/-- So the part before a point or exponent is taken for what it is. -/
theorem scanWhole?_toDigits (n : Nat) {rest : List Char} (h : Ends Char.isDigit rest) :
    scanWhole? (Nat.toDigits 10 n ++ rest) = some (Nat.toDigits 10 n, rest) := by
  rw [scanWhole?, scanDigits?_toDigits n h]
  split
  · next heq =>
    exact absurd (Prod.mk.inj (Option.some_inj.1 heq)).1 (toDigits_ne_zero_cons n _ _)
  · rfl

/-- The characters that a number may go on with. -/
def extendsNumber (c : Char) : Bool := c.isDigit || c = '.' || c = 'e' || c = 'E'

theorem Ends.isDigit {rest : List Char} (h : Ends extendsNumber rest) : Ends Char.isDigit rest := by
  intro c hc
  have hnot := h c hc
  simp only [extendsNumber, Bool.or_eq_false_iff] at hnot
  exact hnot.1.1.1

theorem scanFraction?_of_ends {rest : List Char} (h : Ends extendsNumber rest) :
    scanFraction? rest = some ([], rest) := by
  cases rest with
  | nil => rfl
  | cons c cs =>
    have hdot : c ≠ '.' := by
      have hnot := h c rfl
      simp only [extendsNumber, Bool.or_eq_false_iff, decide_eq_false_iff_not] at hnot
      exact hnot.1.1.2
    simp [scanFraction?, hdot]

theorem scanExponent?_of_ends {rest : List Char} (h : Ends extendsNumber rest) :
    scanExponent? rest = some (none, rest) := by
  cases rest with
  | nil => rfl
  | cons c cs =>
    have hnot := h c rfl
    simp only [extendsNumber, Bool.or_eq_false_iff, decide_eq_false_iff_not] at hnot
    simp [scanExponent?, hnot.1.2, hnot.2]

/-- The digits of an exponent, with its sign. -/
def exponentChars : Int → List Char
  | .ofNat e => Nat.toDigits 10 e
  | .negSucc e => '-' :: Nat.toDigits 10 (e + 1)

/-- An exponent is read back with its sign. -/
theorem scanExponent?_exponentChars (exponent : Int) {rest : List Char}
    (h : Ends Char.isDigit rest) :
    scanExponent? ('e' :: (exponentChars exponent ++ rest)) = some (some exponent, rest) := by
  cases exponent with
  | ofNat e =>
    obtain ⟨d, ds, hdigits, hd⟩ := toDigits_eq_cons e
    have hscan := scanDigits?_toDigits e h
    have hminus : d ≠ '-' := fun heq => by simp [heq] at hd
    have hplus : d ≠ '+' := fun heq => by simp [heq] at hd
    rw [exponentChars]
    rw [hdigits, List.cons_append] at hscan ⊢
    rw [scanExponent?, if_pos (by decide), hscan, Option.map_some]
    · rw [← hdigits]
      show some (some ((digitsValue (Nat.toDigits 10 e) : Nat) : Int), rest) = _
      rw [digitsValue_toDigits]
      rfl
    · exact fun _ heq => hminus (List.cons.inj heq).1
    · exact fun _ heq => hplus (List.cons.inj heq).1
  | negSucc e =>
    show (scanDigits? (Nat.toDigits 10 (e + 1) ++ rest)).map _ = _
    rw [scanDigits?_toDigits (e + 1) h]
    simp [digitsValue_toDigits, Int.negSucc_eq]

/-- A decimal is written without a point, its digits and the exponent only. -/
theorem scanMagnitude?_decimal (negative : Bool) (digits : Nat) (exponent : Int) {rest : List Char}
    (h : Ends Char.isDigit rest) :
    scanMagnitude? negative (Nat.toDigits 10 digits ++ 'e' :: (exponentChars exponent ++ rest))
      = some (.decimal negative digits exponent, rest) := by
  have hends : Ends Char.isDigit ('e' :: (exponentChars exponent ++ rest)) := by
    intro c hc
    obtain rfl := Option.some_inj.1 hc
    decide
  have hfraction : scanFraction? ('e' :: (exponentChars exponent ++ rest))
      = some ([], 'e' :: (exponentChars exponent ++ rest)) := rfl
  simp [scanMagnitude?, scanWhole?_toDigits digits hends, hfraction,
    scanExponent?_exponentChars exponent h, numeral, digitsValue_toDigits]

theorem scanMagnitude?_natural (n : Nat) {rest : List Char} (h : Ends extendsNumber rest) :
    scanMagnitude? false (Nat.toDigits 10 n ++ rest) = some (.natural n, rest) := by
  simp [scanMagnitude?, scanWhole?_toDigits n h.isDigit, scanFraction?_of_ends h,
    scanExponent?_of_ends h, numeral, digitsValue_toDigits]

theorem numeralChars_decimal (negative : Bool) (digits : Nat) (exponent : Int) :
    numeralChars (.decimal negative digits exponent)
      = (if negative then ['-'] else [])
        ++ (Nat.toDigits 10 digits ++ 'e' :: exponentChars exponent) := by
  cases exponent <;> simp [numeralChars, exponentChars]

/-- A number is not read as another token. -/
theorem scanOne?_of_isDigit {c : Char} (h : c.isDigit = true ∨ c = '-') (cs : List Char) :
    scanOne? (c :: cs) = (scanNumber? (c :: cs)).map fun x => (.num x.1, x.2) := by
  unfold scanOne?
  split
  case h_11 => rfl
  all_goals
    next heq =>
      obtain ⟨rfl, -⟩ := List.cons.inj heq
      exact absurd h (by decide)

/-- A number literal is read back, if what follows does not extend it. -/
theorem scanOne?_numeralChars (n : Numeral) {rest : List Char} (h : Ends extendsNumber rest) :
    scanOne? (numeralChars n ++ rest) = some (.num n, rest) := by
  -- without a sign, the number is its magnitude
  have hunsigned : ∀ (m : Nat) (tail : List Char), scanNumber? (Nat.toDigits 10 m ++ tail)
      = scanMagnitude? false (Nat.toDigits 10 m ++ tail) := by
    intro m tail
    obtain ⟨d, ds, hdigits, hd⟩ := toDigits_eq_cons m
    have hminus : d ≠ '-' := fun heq => by simp [heq] at hd
    rw [hdigits, List.cons_append]
    simp [scanNumber?, hminus]
  have hone : ∀ (m : Nat) (tail : List Char), scanOne? (Nat.toDigits 10 m ++ tail)
      = (scanNumber? (Nat.toDigits 10 m ++ tail)).map fun x => (.num x.1, x.2) := by
    intro m tail
    obtain ⟨d, ds, hdigits, hd⟩ := toDigits_eq_cons m
    rw [hdigits, List.cons_append]
    exact scanOne?_of_isDigit (.inl hd) _
  cases n with
  | natural n => rw [numeralChars, hone, hunsigned, scanMagnitude?_natural n h, Option.map_some]
  | decimal negative digits exponent =>
    have hmagnitude := scanMagnitude?_decimal negative digits exponent h.isDigit
    rw [numeralChars_decimal]
    cases negative with
    | false =>
      rw [if_neg Bool.false_ne_true, List.nil_append, List.append_assoc, List.cons_append, hone,
        hunsigned, hmagnitude, Option.map_some]
    | true =>
      rw [if_pos rfl, List.singleton_append, List.cons_append, List.append_assoc,
        List.cons_append, scanOne?_of_isDigit (.inr rfl)]
      show (scanMagnitude? true _).map _ = _
      rw [hmagnitude, Option.map_some]

/-! ## Lists of tokens -/

/-- Whether the token is a number. -/
def isNumber : Token → Bool
  | .num _ => true
  | _ => false

/-- A token is read back, if it is no number or what follows does not extend it. -/
theorem scanOne?_chars (t : Token) {rest : List Char}
    (h : t.isNumber = true → Ends extendsNumber rest) :
    scanOne? (t.chars ++ rest) = some (t, rest) := by
  cases t with
  | num n => exact scanOne?_numeralChars n (h rfl)
  | str s => exact scanOne?_textChars s rest
  | bool value => cases value <;> rfl
  | _ => rfl

/-- The text of a token starts with a character that is not blank and extends no number, unless the
token is one itself. -/
theorem chars_eq_cons (t : Token) : ∃ c cs, t.chars = c :: cs ∧ isBlank c = false ∧
    (t.isNumber = false → extendsNumber c = false) := by
  have hdigit : ∀ c : Char, c.isDigit = true → isBlank c = false := by
    intro c hc
    simp only [isBlank, Bool.or_eq_false_iff, decide_eq_false_iff_not]
    refine ⟨⟨⟨?_, ?_⟩, ?_⟩, ?_⟩ <;> rintro rfl <;> revert hc <;> decide
  cases t with
  | num n =>
    cases n with
    | natural n =>
      obtain ⟨d, ds, hdigits, hd⟩ := toDigits_eq_cons n
      exact ⟨d, ds, hdigits, hdigit d hd, fun h => nomatch h⟩
    | decimal negative digits exponent =>
      obtain ⟨d, ds, hdigits, hd⟩ := toDigits_eq_cons digits
      rw [chars, numeralChars_decimal, hdigits]
      cases negative with
      | false => exact ⟨d, _, rfl, hdigit d hd, fun h => nomatch h⟩
      | true => exact ⟨'-', _, rfl, rfl, fun h => nomatch h⟩
  | str s =>
    cases s with
    | none => exact ⟨_, _, rfl, by decide, fun _ => by decide⟩
    | some s => exact ⟨_, _, rfl, by decide, fun _ => by decide⟩
  | bool value => cases value <;> exact ⟨_, _, rfl, by decide, fun _ => by decide⟩
  | _ => exact ⟨_, _, rfl, by decide, fun _ => by decide⟩

/-- No two numbers stand next to each other. -/
def Separated : List Token → Prop :=
  List.IsChain fun t u => ¬ (t.isNumber = true ∧ u.isNumber = true)

/-- What follows a number does not extend it. -/
theorem Separated.ends {t : Token} {ts : List Token} (h : Separated (t :: ts))
    (ht : t.isNumber = true) : Ends extendsNumber (ts.flatMap chars) := by
  intro c hc
  cases ts with
  | nil => cases hc
  | cons u ts =>
    obtain ⟨d, ds, hchars, -, hends⟩ := u.chars_eq_cons
    rw [List.flatMap_cons, hchars, List.cons_append, List.head?_cons] at hc
    obtain rfl := Option.some_inj.1 hc
    refine hends ?_
    have hnot := (List.isChain_cons_cons.1 h).1
    simpa [ht] using hnot

/-- Tokens are read back from their texts in a row. -/
theorem scanFrom?_flatMap_chars {ts : List Token} (h : Separated ts) {fuel : Nat}
    (hfuel : ts.length ≤ fuel) (acc : List Token) :
    scanFrom? fuel acc (ts.flatMap chars) = some (acc.reverse ++ ts) := by
  induction ts generalizing fuel acc with
  | nil =>
    rw [List.flatMap_nil, List.append_nil]
    cases fuel <;> rfl
  | cons t ts ih =>
    cases fuel with
    | zero => exact absurd hfuel (by simp)
    | succ fuel =>
      -- texts start with no blank, so there is nothing to skip
      have hone := scanOne?_chars t h.ends
      obtain ⟨c, cs, hchars, hblank, -⟩ := t.chars_eq_cons
      rw [List.flatMap_cons]
      rw [hchars, List.cons_append] at hone ⊢
      rw [scanFrom?, hblank, if_neg Bool.false_ne_true, hone]
      show scanFrom? fuel (t :: acc) (ts.flatMap chars) = _
      rw [ih (List.isChain_cons.1 h).2 (Nat.le_of_succ_le_succ hfuel), List.reverse_cons,
        List.append_assoc, List.singleton_append]

theorem length_le_flatMap_chars (ts : List Token) : ts.length ≤ (ts.flatMap chars).length := by
  induction ts with
  | nil => exact Nat.le_refl 0
  | cons t ts ih =>
    obtain ⟨c, cs, hchars, -⟩ := t.chars_eq_cons
    rw [List.flatMap_cons, hchars]
    simp only [List.length_cons, List.length_append]
    omega

/-- **Tokens are read back**: tokens of which no two numbers stand next to each other are read from
their texts in a row. -/
theorem scan?_flatMap_chars {ts : List Token} (h : Separated ts) :
    scan? (ts.flatMap chars) = some ts :=
  scanFrom?_flatMap_chars h (length_le_flatMap_chars ts) []

end Token

end Interlock
