/-!
# Numerals for natural numbers

Counts and indices are written in decimal digits. The reader accepts one leading plus sign and
refuses numbers above a limit.

## Main definitions

- `NumeralError`: why a text is no number.
- `readNat`: reads a natural number up to a limit.
- `indexLimit`, `byteLimit`: the limits of an index and of a one-byte code.
-/

namespace PiecewiseNet.Text

/-- Why a text is no number. -/
inductive NumeralError where
  /-- An integer was expected and the text is empty. -/
  | noInteger
  /-- A character of the integer is no decimal digit. -/
  | badDigit
  /-- The integer is above the limit of its type. -/
  | tooLarge
  /-- A decimal number was expected and the text is empty. -/
  | noDecimal
  /-- The text is no decimal number. -/
  | badDecimal
deriving DecidableEq, Repr

/-- The wording of a numeral error. -/
def NumeralError.message : NumeralError → String
  | .noInteger => "cannot parse integer from empty string"
  | .badDigit => "invalid digit found in string"
  | .tooLarge => "number too large to fit in target type"
  | .noDecimal => "cannot parse float from empty string"
  | .badDecimal => "invalid float literal"

/-- The greatest index: 64 bits. -/
def indexLimit : Nat := 0xFFFFFFFFFFFFFFFF

/-- The greatest one-byte code. -/
def byteLimit : Nat := 255

/-- The value of a decimal digit. -/
def digit? (c : Char) : Option Nat :=
  if '0' ≤ c ∧ c ≤ '9' then some (c.toNat - '0'.toNat) else none

/-- Reads digits behind a number already read; the first fault from the left is reported. -/
def readDigits (limit : Nat) : Nat → List Char → Except NumeralError Nat
  | n, [] => .ok n
  | n, c :: r =>
    match digit? c with
    | none => .error .badDigit
    | some d => if limit < 10 * n + d then .error .tooLarge else readDigits limit (10 * n + d) r

/-- Reads a natural number up to `limit`. -/
def readNat (limit : Nat) : List Char → Except NumeralError Nat
  | [] => .error .noInteger
  | '+' :: [] => .error .badDigit
  | '+' :: c :: r => readDigits limit 0 (c :: r)
  | c :: r => readDigits limit 0 (c :: r)

/-- A natural number in decimal digits with at least `width` of them, zeros in front. -/
def padded (width : Nat) (n : Nat) : String :=
  let s := toString n
  String.ofList (List.replicate (width - s.length) '0') ++ s

end PiecewiseNet.Text
