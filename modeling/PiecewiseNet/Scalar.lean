import PiecewiseNet.Decimal.Reader
import PiecewiseNet.Decimal.Style

/-!
# Scalars

The numbers that networks are computed over. Every computation of this library is generic in its
scalars: it runs on 64-bit floating-point numbers, and the same definitions over the rational
numbers say what it means in exact arithmetic.

## Main definitions

- `Scalar`: arithmetic, comparison and decimal literals.
- `larger`, `smaller`, `positivePart`, `magnitude`: the piecewise-linear operations.
- `isFinite`: tells infinities from numbers.
- `Numeral`: the written form of a scalar.

## Design notes

The class asks for operations only, since floating-point arithmetic satisfies few laws. `larger`
and `smaller` pass over a value that is not equal to itself. Two equal scalars can differ in the
sign of zero, so it matters that both take the second of them.
-/

namespace PiecewiseNet

open Text

/-- Numbers with arithmetic, decidable comparison and decimal literals. -/
class Scalar (α : Type) extends Zero α, One α, NatCast α, OfScientific α, Add α, Sub α, Mul α,
    Div α, Neg α, BEq α, LT α, LE α where
  decLt : DecidableLT α
  decLe : DecidableLE α

attribute [reducible, instance] Scalar.decLt Scalar.decLe

instance : Scalar Float where
  zero := 0.0
  one := 1.0
  natCast := Float.ofNat
  decLt := Float.decLt
  decLe := Float.decLe

instance : Scalar Rat where
  zero := 0
  one := 1
  decLt := inferInstance
  decLe := inferInstance

namespace Scalar

variable {α : Type} [Scalar α]

/-- The greater of two scalars; the second of two equal ones. -/
def larger (a b : α) : α :=
  if a == a then (if a ≤ b then b else a) else b

/-- The smaller of two scalars; the second of two equal ones. -/
def smaller (a b : α) : α :=
  if a == a then (if b ≤ a then b else a) else b

/-- The scalar itself where it is positive, and zero elsewhere. -/
def positivePart (a : α) : α :=
  if 0 < a then a else 0

/-- The absolute value. -/
def magnitude (a : α) : α :=
  if a < 0 then -a else a

/-- The scalar is finite: it cancels against itself. -/
def isFinite (a : α) : Bool :=
  a - a == 0

end Scalar

/-- Scalars with a written form. -/
class Numeral (α : Type) where
  write : α → String
  read : List Char → Except NumeralError α

instance : Numeral Float where
  write := Decimal.plain.write
  read := Decimal.readFloat

end PiecewiseNet
