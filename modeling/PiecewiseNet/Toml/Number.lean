import PiecewiseNet.Decimal.Reader
import PiecewiseNet.Text.Scan

/-!
# Numbers of a settings text

An integer is written in decimal digits with an optional sign, or without one behind a mark for
another base; a floating-point number has a fraction, an exponent or both. Single underscores may
stand between digits, and no decimal number starts with a needless zero.

## Main definitions

- `scanInteger`: reads an integer of 64 bits.
- `scanFloat`: reads a floating-point number.
-/

namespace PiecewiseNet.Toml

open Text Scan

/-- The digits behind a first one, without the underscores between them, and what follows. -/
def moreDigits (p : Char → Bool) : List Char → List Char × List Char
  | '_' :: c :: r =>
    if p c then
      let (digits, rest) := moreDigits p r
      (c :: digits, rest)
    else
      ([], '_' :: c :: r)
  | c :: r =>
    if p c then
      let (digits, rest) := moreDigits p r
      (c :: digits, rest)
    else
      ([], c :: r)
  | [] => ([], [])

/-- A run of digits, without the underscores between them. -/
def scanDigits (p : Char → Bool) : Scan (List Char) := do
  let c ← next
  if p c then
    let rest ← modifyGet (moreDigits p)
    return c :: rest
  else
    failure

/-- An optional sign. -/
def scanSign : Scan (List Char) := do
  if ← accept ['-'] then return ['-'] else
  if ← accept ['+'] then return ['+'] else return []

/-- The decimal digits of an integer: a zero, or digits that start with another one. -/
def scanWhole : Scan (List Char) := do
  if ← accept ['0'] then return ['0'] else scanDigits Char.isDigit

/-- A decimal integer with an optional sign, as it is written but for the underscores. -/
def scanDecimal : Scan (List Char) := do
  let sign ← scanSign
  let digits ← scanWhole
  return sign ++ digits

/-- The value of digits in a base. -/
def valueOf (base : Nat) (digits : List Char) : Nat :=
  digits.foldl (fun n c => base * n + (hexDigit? c).getD 0) 0

/-- The greatest integer of 64 bits. -/
def integerLimit : Nat := 0x7FFFFFFFFFFFFFFF

/-- A non-negative integer in another base; its mark is read. -/
def scanBase (base : Nat) : Scan Int := do
  let digits ← scanDigits fun c => (hexDigit? c).any (· < base)
  let n := valueOf base digits
  if n ≤ integerLimit then return (n : Int) else failure

/-- An integer of 64 bits. -/
def scanInteger : Scan Int := do
  if ← accept ['0', 'x'] then scanBase 16
  else if ← accept ['0', 'o'] then scanBase 8
  else if ← accept ['0', 'b'] then scanBase 2
  else
    let negative := (← scanSign) == ['-']
    let n := valueOf 10 (← scanWhole)
    if negative && n ≤ integerLimit + 1 then return -n
    else if n ≤ integerLimit then return (n : Int)
    else failure

/-- The point and the places behind it, if there are any. -/
def scanPlaces : Scan (List Char) := do
  if ← accept ['.'] then
    let digits ← scanDigits Char.isDigit
    return '.' :: digits
  else
    return []

/-- The exponent of a floating-point number, if there is one. -/
def scanExponent : Scan (List Char) := do
  let mark ← span fun c => c == 'e' || c == 'E'
  match mark with
  | [] => return []
  | [_] =>
    let sign ← scanSign
    let digits ← scanDigits Char.isDigit
    return 'e' :: sign ++ digits
  | _ => failure

/-- A floating-point number in digits. One that is greater than all of 64 bits is refused; one that
is less than all of them stands for negative infinity. -/
def scanFinite : Scan Float := do
  let whole ← scanDecimal
  let fraction ← scanPlaces
  let exponent ← scanExponent
  if fraction.isEmpty && exponent.isEmpty then
    failure
  else
    match Decimal.literal? (whole ++ fraction ++ exponent) with
    | none => failure
    | some l => if l.toFloat.isInf && 0 < l.toFloat then failure else return l.toFloat

/-- Infinity or no number, with an optional sign. -/
def scanWord : Scan Float := do
  let negative := (← scanSign) == ['-']
  if ← accept ['i', 'n', 'f'] then
    return (Decimal.Literal.infinite negative).toFloat
  else if ← accept ['n', 'a', 'n'] then
    return Decimal.Literal.notANumber.toFloat
  else
    failure

/-- A floating-point number. -/
def scanFloat : Scan Float :=
  scanFinite <|> scanWord

end PiecewiseNet.Toml
