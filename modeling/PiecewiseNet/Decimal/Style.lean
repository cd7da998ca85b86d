import PiecewiseNet.Decimal.Shortest

/-!
# Written forms of a floating-point number

A number is written with its shortest digits, laid out by a style, or with a fixed number of
places.

## Main definitions

- `Style`: where positional notation ends, and how integers and exponents look.
- `Style.write`: the text of a number in a style.
- `fixed`: the text with a fixed number of places, rounded from the exact value.
- `plain`, `pointed`: the styles that reports use.
-/

namespace PiecewiseNet.Decimal

/-- The layout decisions for a number with known digits. -/
structure Style where
  /-- The least decimal exponent of the leading digit that is written positionally. -/
  plainFrom : Int
  /-- The first decimal exponent of the leading digit that is no longer written positionally. -/
  plainBelow : Int
  /-- An integral positional number ends in a point and a zero. -/
  pointZero : Bool
  /-- A non-negative exponent carries a plus sign. -/
  plusExponent : Bool
  /-- Which of two equally near shortest decimals is written. -/
  tie : Tie

/-- Zeros as text. -/
def zeros (n : Nat) : String :=
  String.ofList (List.replicate n '0')

/-- Digits times a power of ten, written positionally. -/
def positional (digits : String) (exponent : Int) (pointZero : Bool) : String :=
  if 0 ≤ exponent then
    digits ++ zeros exponent.toNat ++ (if pointZero then ".0" else "")
  else
    let places := (-exponent).toNat
    let n := digits.length
    if places < n then
      String.ofList (digits.toList.take (n - places)) ++ "." ++
        String.ofList (digits.toList.drop (n - places))
    else
      "0." ++ zeros (places - n) ++ digits

/-- Digits times a power of ten, one digit before the point and an exponent behind it. -/
def scientific (digits : String) (exponent : Int) (plusExponent : Bool) : String :=
  let lead := exponent + digits.length - 1
  let mantissa :=
    match digits.toList with
    | [] => ""
    | [c] => String.ofList [c]
    | c :: r => String.ofList (c :: '.' :: r)
  let sign := if lead < 0 then "-" else if plusExponent then "+" else ""
  mantissa ++ "e" ++ sign ++ toString lead.natAbs

/-- The text of a positive decimal in a style. -/
def Style.layout (style : Style) (d : Dec) : String :=
  let digits := toString d.digits
  let lead := d.exponent + digits.length - 1
  if style.plainFrom ≤ lead ∧ lead < style.plainBelow then
    positional digits d.exponent style.pointZero
  else
    scientific digits d.exponent style.plusExponent

/-- The sign bit is set. -/
def isNegative (x : Float) : Bool :=
  x.toBits >>> 63 == 1

/-- The text of a number in a style: its shortest digits, with a minus sign also on negative
zero. -/
def Style.write (style : Style) (x : Float) : String :=
  if x.isNaN then
    "NaN"
  else
    let sign := if isNegative x then "-" else ""
    if x.isInf then
      sign ++ "inf"
    else
      let b := Binary.ofBits x.toBits
      if b.significand == 0 then
        sign ++ (if style.pointZero then "0.0" else "0")
      else
        sign ++ style.layout (b.shortest style.tie)

/-- Every number is written positionally, an integral one without a point. The exponents of
64-bit numbers lie well inside the range. -/
def plain : Style where
  plainFrom := -1000
  plainBelow := 1000
  pointZero := false
  plusExponent := false
  tie := .upward

/-- Every number shows that it is no integer, by a point or by an exponent; from 1e16 on and
below 1e-4 by an exponent. -/
def pointed : Style where
  plainFrom := -4
  plainBelow := 16
  pointZero := true
  plusExponent := false
  tie := .upward

/-- The text of a number with `places` digits behind the point, rounded from its exact value with
ties to even. -/
def fixed (places : Nat) (x : Float) : String :=
  if x.isNaN then
    "NaN"
  else
    let sign := if isNegative x then "-" else ""
    if x.isInf then
      sign ++ "inf"
    else
      let (num, den) := (Binary.ofBits x.toBits).quotient (-(places : Int))
      let digits := toString (roundedQuotient .toEven num den)
      let padded := zeros (places + 1 - digits.length) ++ digits
      sign ++ (if places == 0 then padded else positional padded (-(places : Int)) false)

end PiecewiseNet.Decimal
