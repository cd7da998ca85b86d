import PiecewiseNet.Text.Numeral

/-!
# Reading JSON numbers

A number without fraction and exponent is an integer if 64 bits hold it. Every other number is read
in one rounding step or two: as many leading digits as fit into 64 bits are taken as an integer, and
that is multiplied or divided by a power of ten. So the result may differ from the nearest
floating-point number in the last bit.

## Main definitions

- `Number`: an integer or a floating-point number.
- `scaled?`: an integer times a power of ten.
- `Number.read?`: reads a number.
-/

namespace PiecewiseNet.Json

open Text

/-- A number as it is read. -/
inductive Number where
  /-- An integer of 64 bits, with or without a sign. -/
  | integer (n : Int)
  | float (x : Float)

/-- The floating-point number nearest to an integer of 64 bits. -/
def nearestFloat (n : Nat) : Float :=
  n.toUInt64.toFloat

/-- The index that a number is. -/
def Number.index? : Number → Option Nat
  | integer n => if 0 ≤ n then some n.toNat else none
  | float _ => none

/-- The floating-point number that a number is. -/
def Number.toFloat : Number → Float
  | integer n => if 0 ≤ n then nearestFloat n.natAbs else -nearestFloat n.natAbs
  | float x => x

/-- The floating-point number nearest to a power of ten. -/
def powerOfTen (e : Nat) : Float :=
  Float.ofScientific 1 false e

/-- The greatest exponent of a power of ten among the floating-point numbers. -/
def greatestPower : Nat := 308

/-- A number divided by a power of ten, in steps that floating-point numbers can make. -/
def dividedBy (x : Float) (e : Nat) : Float :=
  if e ≤ greatestPower then
    x / powerOfTen e
  else if x == 0 then
    x
  else
    dividedBy (x / powerOfTen greatestPower) (e - greatestPower)
termination_by e
decreasing_by simp only [greatestPower] at *; omega

/-- An integer times a power of ten, if that is finite. -/
def scaled? (significand : Nat) (exponent : Int) : Option Float :=
  let x := nearestFloat significand
  if exponent < 0 then
    some (dividedBy x exponent.natAbs)
  else if exponent.natAbs ≤ greatestPower then
    let y := x * powerOfTen exponent.natAbs
    if y.isInf then none else some y
  else if x == 0 then
    some x
  else
    none

/-- Leading digits that fit into 64 bits, and a power of ten. -/
structure Accumulator where
  /-- The digits taken, as one number. -/
  significand : Nat
  /-- The power of ten. -/
  exponent : Int

/-- The digit fits behind the digits taken. -/
def Accumulator.fits (a : Accumulator) (d : Nat) : Bool :=
  10 * a.significand + d ≤ indexLimit

/-- Takes digits in front of the point. From the first that does not fit on they only count. -/
def Accumulator.addWhole (a : Accumulator) : Bool → List Nat → Accumulator
  | _, [] => a
  | full, d :: ds =>
    if full || !a.fits d then
      Accumulator.addWhole { a with exponent := a.exponent + 1 } true ds
    else
      Accumulator.addWhole { a with significand := 10 * a.significand + d } false ds

/-- Takes digits behind the point, up to the first that does not fit. -/
def Accumulator.addPlaces (a : Accumulator) : List Nat → Accumulator
  | [] => a
  | d :: ds =>
    if a.fits d then
      Accumulator.addPlaces
        { significand := 10 * a.significand + d, exponent := a.exponent - 1 } ds
    else
      a

/-- The parts of a number. -/
structure NumberParts where
  /-- There is a minus sign. -/
  negative : Bool
  /-- The digits in front of the point. -/
  whole : List Nat
  /-- The digits behind the point. -/
  places : List Nat
  exponent : Option Int

/-- The greatest exponent that is taken as it stands. -/
def exponentLimit : Nat := 0x7FFFFFFF

/-- An exponent outside 32 bits. -/
def isExtreme (e : Int) : Bool :=
  exponentLimit < e.natAbs

/-- An exponent kept within 32 bits. -/
def saturated (e : Int) : Int :=
  max (-(exponentLimit : Int) - 1) (min exponentLimit e)

/-- The floating-point number with the given parts, if it is finite. -/
def NumberParts.toFloat? (p : NumberParts) : Option Float :=
  let a := (Accumulator.addWhole ⟨0, 0⟩ false p.whole).addPlaces p.places
  let magnitude :=
    match p.exponent with
    | none => scaled? a.significand a.exponent
    | some e =>
      -- Beyond 32 bits only zero stays what it is.
      if isExtreme e then
        if a.significand ≠ 0 ∧ 0 < e then none else some 0
      else
        scaled? a.significand (saturated (a.exponent + e))
  magnitude.map fun x => if p.negative then -x else x

/-- The integer with the given parts, if 64 bits hold it. Minus zero is no integer. -/
def NumberParts.integer? (p : NumberParts) : Option Int :=
  if p.places.isEmpty && p.exponent.isNone then
    let n : Nat := p.whole.foldl (fun n d => 10 * n + d) 0
    if p.negative then
      if 0 < n ∧ n ≤ 0x8000000000000000 then some (-(n : Int)) else none
    else
      if n ≤ indexLimit then some (n : Int) else none
  else
    none

/-- The number with the given parts, if it is finite. -/
def NumberParts.number? (p : NumberParts) : Option Number :=
  match p.integer? with
  | some n => some (.integer n)
  | none => p.toFloat?.map .float

end PiecewiseNet.Json
