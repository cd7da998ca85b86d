import PiecewiseNet.Evaluation.System

/-!
# Propagation

Values spread from the inputs by two rules: an equality with exactly one unassigned term is solved
for it, and a rectifier with an assigned input assigns its output. The second rule is tried only
when the first has nothing left to do. An over-determined query may get values that violate some
equation, so the result is to be validated.

## Main definitions

- `Assignment`: the value of each variable, if it has one.
- `ConstraintSystem.solvePass`, `ConstraintSystem.rectifyPass`: one pass of each rule.
- `ConstraintSystem.propagate`: the rules in turn until neither applies.
- `ConstraintSystem.forward`: propagation from the inputs and the fixed variables.
-/

namespace PiecewiseNet

variable {α : Type}

/-- The value of each variable, if it has one. -/
abbrev Assignment (α : Type) := Array (Option α)

namespace Assignment

/-- The value of a variable, if it has one. -/
def value? (v : Assignment α) (i : Nat) : Option α :=
  v[i]?.getD none

/-- The assignment with a value for a variable. -/
def assign (v : Assignment α) (i : Nat) (x : α) : Assignment α :=
  v.setIfInBounds i (some x)

/-- The variables without a value, in ascending order. -/
def unassigned (v : Assignment α) : List Nat :=
  (List.range v.size).filter fun i => (v.value? i).isNone

/-- Every variable has a value. -/
def isComplete (v : Assignment α) : Bool :=
  v.all Option.isSome

end Assignment

namespace ConstraintSystem

/-- A running sum with one more term, if the term is assigned. -/
def addAssigned [Scalar α] (v : Assignment α) (acc : α) (t : Nat × α) : α :=
  match v.value? t.1 with
  | some x => acc + x * t.2
  | none => acc

/-- The sum of the assigned terms, from the left. -/
def assignedSum [Scalar α] (v : Assignment α) (terms : List (Nat × α)) : α :=
  terms.foldl (addAssigned v) 0

/-- The unassigned terms. -/
def unassignedTerms (v : Assignment α) (terms : List (Nat × α)) : List (Nat × α) :=
  terms.filter fun t => (v.value? t.1).isNone

/-- One pass over the constraints, from number `i` on: every equality with one unassigned term is
solved for it. The flag tells whether one was. -/
def solvePass [Scalar α] (s : ConstraintSystem α) :
    Nat → List (Constraint α) → Assignment α → Except (EvalError α) (Assignment α × Bool)
  | _, [], v => .ok (v, false)
  | i, c :: cs, v =>
    if c.kind = .eq then
      match unassignedTerms v c.terms with
      | [(x, coefficient)] =>
        if coefficient == 0 then
          .error (.degenerate i (s.name x))
        else
          -- Later constraints of the same pass see this value.
          let value := -(assignedSum v c.terms - c.scalar) / coefficient
          match s.solvePass (i + 1) cs (v.assign x value) with
          | .error e => .error e
          | .ok (v, _) => .ok (v, true)
      | _ => s.solvePass (i + 1) cs v
    else
      s.solvePass (i + 1) cs v

/-- One pass over the rectifiers: every one with an assigned input and an unassigned output assigns
it. The flag tells whether one did. -/
def rectifyPass [Scalar α] : List Rectifier → Assignment α → Assignment α × Bool
  | [], v => (v, false)
  | r :: rs, v =>
    match v.value? r.input, v.value? r.output with
    | some x, none => ((rectifyPass rs (v.assign r.output (Scalar.positivePart x))).1, true)
    | _, _ => rectifyPass rs v

/-- The rules in turn until neither applies, for at most so many rounds. -/
def propagate [Scalar α] (s : ConstraintSystem α) :
    Nat → Assignment α → Except (EvalError α) (Assignment α)
  | 0, v => .ok v
  | rounds + 1, v =>
    match s.solvePass 0 s.constraints v with
    | .error e => .error e
    | .ok (v, true) => s.propagate rounds v
    | .ok (v, false) =>
      match rectifyPass s.relus v with
      | (v, true) => s.propagate rounds v
      | (v, false) => .ok v

/-- The input values; of two values for one input the later one counts. -/
def given (s : ConstraintSystem α) (inputs : List α) : Assignment α :=
  let start : Assignment α := Array.replicate s.size none
  (s.inputs.zip inputs).foldl (fun v p => v.assign p.1 p.2) start

/-- The input values, and in their place the values of the variables whose bounds coincide. -/
def seed [Scalar α] (s : ConstraintSystem α) (inputs : List α) : Assignment α :=
  (s.given inputs).mapIdx fun i x =>
    match s.bounds[i]? with
    | some ⟨some l, some u⟩ => if l == u then some u else x
    | _ => x

/-- Propagates the input values. Every round but the last assigns a variable, so a round more than
there are unassigned variables suffices. -/
def forward [Scalar α] (s : ConstraintSystem α) (inputs : List α) :
    Except (EvalError α) (Assignment α) :=
  if inputs.length ≠ s.inputs.length then
    .error (.inputCount s.inputs.length inputs.length)
  else
    let start := s.seed inputs
    match s.propagate (start.unassigned.length + 1) start with
    | .error e => .error e
    | .ok v =>
      match v.unassigned with
      | [] => .ok v
      | i :: is => .error (.incomplete (is.length + 1) (s.name i))

end ConstraintSystem

end PiecewiseNet
