/-!
# Binary values

A finite 64-bit floating-point number is `significand * 2 ^ exponent` up to its sign. This module
reads the two off the bits and says which decimals round to the value.

## Main definitions

- `Binary`: the magnitude of a finite number, with the width of the gap below it.
- `Binary.ofBits`: the magnitude that a bit pattern stands for.
- `Binary.readsBack`: whether a decimal rounds to the value (to nearest, ties to even).
-/

namespace PiecewiseNet.Decimal

/-- The magnitude `significand * 2 ^ exponent` of a finite floating-point number. -/
structure Binary where
  significand : Nat
  /-- The power of two. -/
  exponent : Int
  /-- The neighbour below is half as far away as the neighbour above. -/
  narrowBelow : Bool
deriving DecidableEq, Repr

/-- The magnitude of the finite number with the given bits. -/
def Binary.ofBits (b : UInt64) : Binary :=
  let e := ((b >>> 52) &&& 0x7FF).toNat
  let f := (b &&& 0xFFFFFFFFFFFFF).toNat
  -- Without an exponent the leading bit is zero, and all gaps have the same width.
  if e == 0 then ⟨f, -1074, false⟩ else ⟨0x10000000000000 + f, (e : Int) - 1075, f == 0 && 1 < e⟩

/-- A decimal `digits * 10 ^ exponent`. -/
structure Dec where
  /-- The digits, as one number. -/
  digits : Nat
  /-- The power of ten. -/
  exponent : Int
deriving DecidableEq, Repr

/-- Compares `a * 10 ^ i` with `n * 2 ^ j` in exact arithmetic. -/
def compareScaled (a : Nat) (i : Int) (n : Nat) (j : Int) : Ordering :=
  compare (a * Nat.pow 10 i.toNat * Nat.pow 2 (-j).toNat)
    (n * Nat.pow 2 j.toNat * Nat.pow 10 (-i).toNat)

/-- The decimal lies among the reals that round to the value: from halfway to the neighbour below
to halfway to the neighbour above, the ends included exactly for an even significand. -/
def Binary.readsBack (x : Binary) (d : Dec) : Bool :=
  -- Counted in quarters of the gap above, halfway up is two quarters away.
  let low := if x.narrowBelow then 4 * x.significand - 1 else 4 * x.significand - 2
  let high := 4 * x.significand + 2
  let closed := x.significand % 2 == 0
  let atLow := compareScaled d.digits d.exponent low (x.exponent - 2)
  let atHigh := compareScaled d.digits d.exponent high (x.exponent - 2)
  (atLow == .gt || (closed && atLow == .eq)) && (atHigh == .lt || (closed && atHigh == .eq))

/-- The value divided by `10 ^ grid`, as a numerator and a denominator. -/
def Binary.quotient (x : Binary) (grid : Int) : Nat × Nat :=
  (x.significand * Nat.pow 2 x.exponent.toNat * Nat.pow 10 (-grid).toNat,
   Nat.pow 2 (-x.exponent).toNat * Nat.pow 10 grid.toNat)

end PiecewiseNet.Decimal
