import PiecewiseNet.Text.Numeral

/-!
# Reading decimal numbers

A decimal number is an optional sign, digits with an optional point (at least one digit), and an
optional exponent; or one of the words for infinity and for no number, in any case of letters.

## Main definitions

- `Literal`: what a text says before it is rounded.
- `literal?`: the literal that a text spells.
- `Literal.toFloat`: the nearest floating-point number, ties to even.
- `readFloat`: reads a floating-point number.
-/

namespace PiecewiseNet.Decimal

open PiecewiseNet.Text

/-- A number as it is spelled: a sign and a magnitude. -/
inductive Literal where
  /-- `digits * 10 ^ exponent`, with its sign. -/
  | finite (negative : Bool) (digits : Nat) (exponent : Int)
  | infinite (negative : Bool)
  | notANumber
deriving DecidableEq, Repr

/-- The digits in front of a text, as a number and a count, and what follows them. -/
def leadingDigits : Nat → Nat → List Char → Nat × Nat × List Char
  | n, count, [] => (n, count, [])
  | n, count, c :: r =>
    match digit? c with
    | some d => leadingDigits (10 * n + d) (count + 1) r
    | none => (n, count, c :: r)

/-- The exponent behind the digits: nothing, or a mark, an optional sign and digits to the end. -/
def exponent? : List Char → Option Int
  | [] => some 0
  | c :: r =>
    if c == 'e' || c == 'E' then
      let (negative, r) :=
        match r with
        | '-' :: r => (true, r)
        | '+' :: r => (false, r)
        | r => (false, r)
      match leadingDigits 0 0 r with
      | (n, count, []) => if count == 0 then none else some (if negative then -n else n)
      | _ => none
    else
      none

/-- The magnitude that a text without its sign spells. -/
def magnitude? (negative : Bool) (s : List Char) : Option Literal :=
  let word := s.map Char.toLower
  if word = ['i', 'n', 'f'] ∨ word = ['i', 'n', 'f', 'i', 'n', 'i', 't', 'y'] then
    some (.infinite negative)
  else if word = ['n', 'a', 'n'] then
    some .notANumber
  else
    let (whole, wholeCount, r) := leadingDigits 0 0 s
    let (digits, places, r) :=
      match r with
      | '.' :: r => leadingDigits whole 0 r
      | r => (whole, 0, r)
    if wholeCount + places == 0 then
      none
    else
      (exponent? r).map fun e => .finite negative digits (e - places)

/-- The literal that a text spells, if it spells one. -/
def literal? : List Char → Option Literal
  | '-' :: r => magnitude? true r
  | '+' :: r => magnitude? false r
  | s => magnitude? false s

/-- The number nearest to `digits * 10 ^ exponent`. Magnitudes far outside the range of 64-bit
numbers are settled by the count of their digits. -/
def roundedFloat (digits : Nat) (exponent : Int) : Float :=
  if digits == 0 then
    0.0
  else
    let lead := exponent + (toString digits).length
    -- The greatest number has 309 digits, and below 1e-325 everything rounds to zero.
    if 400 < lead then
      1.0 / 0.0
    else if lead < -400 then
      0.0
    else
      Float.ofScientific digits (exponent < 0) exponent.natAbs

/-- The number that a literal stands for. -/
def Literal.toFloat : Literal → Float
  | .finite negative digits exponent =>
    if negative then -roundedFloat digits exponent else roundedFloat digits exponent
  | .infinite negative => if negative then -1.0 / 0.0 else 1.0 / 0.0
  | .notANumber => 0.0 / 0.0

/-- Reads a floating-point number. -/
def readFloat (s : List Char) : Except NumeralError Float :=
  if s.isEmpty then
    .error .noDecimal
  else
    match literal? s with
    | some l => .ok l.toFloat
    | none => .error .badDecimal

end PiecewiseNet.Decimal
