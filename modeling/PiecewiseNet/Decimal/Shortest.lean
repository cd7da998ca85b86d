import PiecewiseNet.Decimal.Binary
import PiecewiseNet.Decimal.Rounding

/-!
# Shortest decimals

The decimal with the fewest digits that rounds to a given binary value; among those the nearest.
Two can be equally near: 2 ^ 50 + 1 / 4 lies halfway between two decimals with one place that both
read back. A rule for ties decides between them.

## Main definitions

- `Binary.scale`: the number of digits in front of the decimal point.
- `Binary.atGrid`: the decimal on one decimal grid that reads back, if there is one.
- `Binary.shortest`: the first hit over ever finer grids.
-/

namespace PiecewiseNet.Decimal

/-- The least `k` with `x < 10 ^ k`, for a positive `x`. The binary logarithm gives it up to a step
or two, and exact comparison settles the rest. -/
def Binary.scale (x : Binary) : Int :=
  -- The factor approximates the decimal logarithm of two.
  let guess := ((x.significand.log2 + x.exponent) * 30103).fdiv 100000
  let fits := fun k : Int => compareScaled 1 k x.significand x.exponent == .gt
  match [guess, guess + 1, guess + 2].find? fits with
  | some k => k
  | none => guess + 3

/-- The multiple of `10 ^ grid` next to `x` that reads back: of the two neighbours of `x` the
nearer. -/
def Binary.atGrid (x : Binary) (tie : Tie) (grid : Int) : Option Dec :=
  let (num, den) := x.quotient grid
  let low : Dec := ⟨num / den, grid⟩
  let high : Dec := ⟨num / den + 1, grid⟩
  match x.readsBack low, x.readsBack high with
  | true, true => some (if roundsUp tie num den then high else low)
  | true, false => some low
  | false, true => some high
  | false, false => none

/-- Moves the trailing zeros of the digits into the exponent, at most `fuel` of them. -/
def Dec.stripped (d : Dec) : Nat → Dec
  | 0 => d
  | fuel + 1 =>
    if d.digits % 10 == 0 then Dec.stripped ⟨d.digits / 10, d.exponent + 1⟩ fuel else d

/-- The decimal with the fewest digits that rounds to the positive value `x`. Seventeen digits
suffice for 64-bit numbers; beyond them the exact value stands in. -/
def Binary.shortest (x : Binary) (tie : Tie) : Dec :=
  let k := x.scale
  match (List.range 17).findSome? fun n => x.atGrid tie (k - (n + 1 : Nat)) with
  | some d => d.stripped 20
  | none =>
    if 0 ≤ x.exponent then ⟨x.significand * Nat.pow 2 x.exponent.toNat, 0⟩
    else ⟨x.significand * Nat.pow 5 (-x.exponent).toNat, x.exponent⟩

end PiecewiseNet.Decimal
