import PiecewiseNet.Scalar

/-!
# Intervals

An interval of scalars, closed where it has an end and unbounded where it has none.

## Main definitions

- `Interval`: two ends, each possibly absent.
- `Interval.narrowed`: the intersection with another pair of ends.
- `Interval.isEmpty`, `Interval.fixedValue?`, `Interval.contains`: what the ends say.
- `Interval.Holds`: the value lies in the interval.
-/

namespace PiecewiseNet

/-- An interval of scalars; an absent end does not bound it. -/
structure Interval (α : Type) where
  lower : Option α := none
  upper : Option α := none
deriving DecidableEq, Repr

namespace Interval

variable {α : Type}

/-- The interval without ends. -/
def unbounded : Interval α :=
  ⟨none, none⟩

/-- The interval that holds one value. -/
def fixed (value : α) : Interval α :=
  ⟨some value, some value⟩

/-- The end that is given; of two given ends the one that `choose` takes. -/
def mergeEnds (choose : α → α → α) : Option α → Option α → Option α
  | some a, some b => some (choose a b)
  | some a, none => some a
  | none, b => b

section

variable [Scalar α]

/-- The one value that the interval holds, when its ends coincide. -/
def fixedValue? (i : Interval α) : Option α :=
  match i.lower, i.upper with
  | some l, some u => if l == u then some l else none
  | _, _ => none

/-- The intersection with the interval from `lower` to `upper`. -/
def narrowed (i : Interval α) (lower upper : Option α) : Interval α :=
  ⟨mergeEnds Scalar.larger i.lower lower, mergeEnds Scalar.smaller i.upper upper⟩

/-- The ends exclude each other. -/
def isEmpty (i : Interval α) : Bool :=
  match i.lower, i.upper with
  | some l, some u => decide (u < l)
  | _, _ => false

/-- The value lies in the interval, up to a tolerance at both ends. -/
def contains (i : Interval α) (value tolerance : α) : Bool :=
  (match i.lower with
    | some l => decide (l - tolerance ≤ value)
    | none => true) &&
  (match i.upper with
    | some u => decide (value ≤ u + tolerance)
    | none => true)

/-- The value lies in the interval. -/
def Holds (i : Interval α) (value : α) : Prop :=
  (∀ l, i.lower = some l → l ≤ value) ∧ (∀ u, i.upper = some u → value ≤ u)

end

/-- The text of an interval; an absent end is written as a signed infinity. -/
def text [Numeral α] (i : Interval α) : String :=
  let ending := fun (e : Option α) (absent : String) =>
    match e with
    | some v => Numeral.write v
    | none => absent
  "[" ++ ending i.lower "-inf" ++ ", " ++ ending i.upper "+inf" ++ "]"

end Interval

end PiecewiseNet
