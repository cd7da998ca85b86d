/-!
# Rounding to a neighbour

A quotient of natural numbers lies between two neighbouring integers. It is rounded to the nearer
one; halfway between them a rule for ties decides.

## Main definitions

- `Tie`: which of two equally near neighbours is taken.
- `roundsUp`: whether the upper neighbour of a quotient is taken.
- `roundedQuotient`: the neighbour that is taken.
-/

namespace PiecewiseNet.Decimal

/-- Which of two equally near neighbours is taken. -/
inductive Tie where
  /-- The greater one. -/
  | upward
  /-- The even one. -/
  | toEven
deriving DecidableEq, Repr

/-- The upper of two equally near neighbours is taken, where `low` is the lower one. -/
def Tie.takesUpper (low : Nat) : Tie → Bool
  | upward => true
  | toEven => low % 2 == 1

/-- The upper neighbour of a quotient is taken. -/
def roundsUp (tie : Tie) (num den : Nat) : Bool :=
  match compare (2 * (num % den)) den with
  | .lt => false
  | .gt => true
  | .eq => tie.takesUpper (num / den)

/-- A quotient rounded to the nearest integer. -/
def roundedQuotient (tie : Tie) (num den : Nat) : Nat :=
  if roundsUp tie num den then num / den + 1 else num / den

end PiecewiseNet.Decimal
