import PiecewiseNet.Equation
import PiecewiseNet.OrderedMap

/-!
# Query files

A query file lists a satisfiability question over numbered variables: bounds, linear equations and
piecewise-linear constraints, with designated inputs and outputs.

## Main definitions

- `IpqEquation`, `IpqConstraint`: the records of equations and constraints.
- `IpqFile`: the contents of a query file.
- `IpqFile.fixedVariables`: the variables whose bounds coincide.
- `IpqFile.Solves`: values of the variables that satisfy every record.
-/

namespace PiecewiseNet

/-- A sum of scaled variables compared with a number. -/
structure IpqEquation (α : Type) where
  comparator : Comparator
  /-- The number it is compared with. -/
  scalar : α
  /-- The variables with their coefficients. -/
  addends : List (Nat × α)
deriving DecidableEq, BEq, Repr

/-- A piecewise-linear constraint. -/
inductive IpqConstraint where
  /-- `f` is the positive part of `b`. -/
  | relu (f b : Nat)
  /-- `f` is the absolute value of `b`. -/
  | abs (f b : Nat)
  /-- `f` is the greatest of the inputs. -/
  | max (f : Nat) (inputs : List Nat)
deriving DecidableEq, BEq, Repr

/-- The name of a constraint's kind. -/
def IpqConstraint.kindName : IpqConstraint → String
  | relu _ _ => "relu"
  | abs _ _ => "absoluteValue"
  | max _ _ => "max"

/-- The contents of a query file. -/
structure IpqFile (α : Type) where
  variableCount : Nat
  inputs : List Nat
  outputs : List Nat
  lowerBounds : VarMap α
  upperBounds : VarMap α
  equations : List (IpqEquation α)
  constraints : List IpqConstraint
deriving DecidableEq, BEq

namespace IpqFile

variable {α : Type}

/-- The variables whose lower and upper bound coincide, in ascending order. -/
def fixedVariables [BEq α] (f : IpqFile α) : List Nat :=
  (f.lowerBounds.entries.filter fun e => (f.upperBounds.get? e.1).any (· == e.2)).map (·.1)

end IpqFile

section

variable {α : Type} [Scalar α]

/-- The value of a sum of scaled variables, summed from the left. -/
def IpqEquation.sum (v : Nat → α) (e : IpqEquation α) : α :=
  e.addends.foldl (fun acc a => acc + v a.1 * a.2) 0

/-- The values satisfy an equation. -/
def IpqEquation.Holds (v : Nat → α) (e : IpqEquation α) : Prop :=
  e.comparator.Holds (e.sum v) e.scalar

/-- The values satisfy a constraint. -/
def IpqConstraint.Holds (v : Nat → α) : IpqConstraint → Prop
  | .relu f b => v f = Scalar.positivePart (v b)
  | .abs f b => v f = Scalar.magnitude (v b)
  | .max f inputs => (∃ i ∈ inputs, v f = v i) ∧ ∀ i ∈ inputs, v i ≤ v f

/-- The values satisfy every bound, equation and constraint of the file. -/
structure IpqFile.Solves (f : IpqFile α) (v : Nat → α) : Prop where
  lower : ∀ e ∈ f.lowerBounds.entries, e.2 ≤ v e.1
  upper : ∀ e ∈ f.upperBounds.entries, v e.1 ≤ e.2
  equations : ∀ e ∈ f.equations, e.Holds v
  constraints : ∀ c ∈ f.constraints, c.Holds v

end

end PiecewiseNet
