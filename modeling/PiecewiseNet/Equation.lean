import PiecewiseNet.Arena

/-!
# Linear equations

An equation compares a sum of scaled nodes with a number.

## Main definitions

- `Comparator`: at most, equal, at least.
- `Equation`: a sum, a comparator and a right-hand side.
- `Equation.text`: the equation over the labels of its nodes.
-/

namespace PiecewiseNet

/-- How a sum compares with a number. -/
inductive Comparator where
  | le
  | eq
  | ge
deriving DecidableEq, Repr

/-- The sign of a comparator. -/
def Comparator.text : Comparator → String
  | .le => "<="
  | .eq => "="
  | .ge => ">="

/-- The comparison itself. -/
def Comparator.Holds {α : Type} [Scalar α] (c : Comparator) (left right : α) : Prop :=
  match c with
  | .le => left ≤ right
  | .eq => left = right
  | .ge => right ≤ left

/-- A sum of scaled nodes compared with a number. -/
structure Equation (α : Type) where
  terms : Terms α
  comparator : Comparator
  /-- The number it is compared with. -/
  scalar : α
deriving DecidableEq, Repr

namespace Equation

variable {α : Type}

/-- The nodes of the equation, in order. -/
def nodes (e : Equation α) : List NodeId :=
  e.terms.nodes

/-- The same equation over other nodes. -/
def redirect (e : Equation α) (f : NodeId → NodeId) : Equation α :=
  { e with terms := e.terms.redirect f }

/-- The equation in words, over the labels of its nodes. -/
def text [Numeral α] (a : Arena α) (e : Equation α) : Except (GraphError α) String :=
  match e.nodes.find? fun id => !a.holds id with
  | some id => .error (.misuse (.foreignNode id))
  | none =>
    let left := e.terms.map fun t => Numeral.write t.1 ++ "*" ++ a.name t.2
    .ok (" + ".intercalate left ++ " " ++ e.comparator.text ++ " " ++ Numeral.write e.scalar)

end Equation

end PiecewiseNet
