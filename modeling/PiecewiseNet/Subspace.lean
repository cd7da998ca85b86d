import PiecewiseNet.Query
import PiecewiseNet.Text.Numeral

/-!
# Subspaces

A subspace of the input box is named by a string of digits. Each group of digits, one for each
input, is a round: every input keeps one of equally wide slices of its interval.

## Main definitions

- `subspaceDigits`: the digits of a name.
- `splitInput`: the slice of one input.
- `applySubspace`: narrows the inputs of a query to a subspace.
-/

namespace PiecewiseNet

open Text

variable {α : Type}

/-- The digits of a name from position `position` on, each below `splits`. -/
def subspaceDigits (splits : Nat) : Nat → List Char → Except (GraphError α) (List Nat)
  | _, [] => .ok []
  | position, c :: cs =>
    match (digit? c).filter (· < splits) with
    | none => .error (.outOfRange .subspaceDigit position splits)
    | some d =>
      match subspaceDigits splits (position + 1) cs with
      | .error e => .error e
      | .ok ds => .ok (d :: ds)

/-- Narrows an input to slice `d` of its interval. -/
def splitInput [Scalar α] (splits : Nat) (input : NodeId) (d : Nat) :
    Edit (GraphError α) α Unit := do
  let bounds := (← Edit.node input).bounds
  match bounds.lower, bounds.upper with
  | some lower, some upper =>
    let slice := (upper - lower) / (splits : α)
    let start := lower + (d : α) * slice
    Edit.limit input (some start) (some (start + slice))
  | _, _ => throw (.unsplittable ((← Edit.arena).name input))

/-- Narrows the inputs by the digits, round after round; `turn` holds the inputs that are still due
in this round. -/
def splitRounds [Scalar α] (splits : Nat) (inputs : List NodeId) :
    List NodeId → List Nat → Edit (GraphError α) α Unit
  | _, [] => pure ()
  | input :: turn, d :: ds => do
    splitInput splits input d
    splitRounds splits inputs turn ds
  -- The round is over; the next one starts with the first input.
  | [], d :: ds => do
    match inputs with
    | [] => pure ()
    | input :: turn =>
      splitInput splits input d
      splitRounds splits inputs turn ds

/-- Narrows the inputs of a query to a subspace. -/
def applySubspace [Scalar α] (q : Query α) (digits : String) (splits : Nat) :
    Edit (GraphError α) α Unit := do
  let width := q.inputs.length
  if width = 0 ∨ digits.utf8ByteSize % width ≠ 0 then
    throw (.outOfRange .subspaceLength digits.utf8ByteSize width)
  else
    let ds ← Edit.ofExcept (subspaceDigits splits 0 digits.toList)
    splitRounds splits q.inputs q.inputs ds

end PiecewiseNet
