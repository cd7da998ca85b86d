import PiecewiseNet.Evaluation.Propagation
import PiecewiseNet.OrderedMap

/-!
# Validation

An assignment is valid when every variable has a value, the values lie within their bounds and
satisfy the constraints up to a small tolerance, and every rectifier's value is exactly the
positive part of its argument.

## Main definitions

- `tolerance`: how far a bound or a constraint may be missed.
- `ConstraintSystem.validate`: reports the first violation.
- `ConstraintSystem.evaluate`, `ConstraintSystem.evaluateChecked`: propagation and validation.
- `ConstraintSystem.assignmentOf`, `ConstraintSystem.outputValues`: values by member and of the
  outputs.
-/

namespace PiecewiseNet

variable {α : Type}

/-- How far a bound or a constraint may be missed. -/
def tolerance [Scalar α] : α :=
  1e-13

namespace ConstraintSystem

/-- The value that violates a bound of the variable with this name, if it does. -/
def boundViolation? [Scalar α] (name : String) (x : α) (b : Interval α) : Option (Violation α) :=
  let below := b.lower.bind fun l =>
    if x < l - tolerance then some (Violation.below name x l) else none
  let above := b.upper.bind fun u =>
    if u + tolerance < x then some (Violation.above name x u) else none
  below.or above

/-- The sum of scaled values, from the left. -/
def weightedSum [Scalar α] (value : Nat → α) (terms : List (Nat × α)) : α :=
  terms.foldl (fun acc t => acc + value t.1 * t.2) 0

/-- The residual of a constraint is within the tolerance. -/
def residualHolds [Scalar α] (kind : Comparator) (residual : α) : Bool :=
  match kind with
  | .eq => decide (Scalar.magnitude residual < tolerance)
  | .ge => decide (-tolerance ≤ residual)
  | .le => decide (residual ≤ tolerance)

/-- The violation of a constraint, if the values violate it. -/
def constraintViolation? [Scalar α] (value : Nat → α) (c : Constraint α) (i : Nat) :
    Option (Violation α) :=
  let residual := weightedSum value c.terms - c.scalar
  if residualHolds c.kind residual then none else some (.constraint i c.kind residual)

/-- The violation of a rectifier, if the values violate it. -/
def reluViolation? [Scalar α] (s : ConstraintSystem α) (value : Nat → α) (r : Rectifier) :
    Option (Violation α) :=
  if value r.output == Scalar.positivePart (value r.input) then none
  else some (.relu (s.name r.output) (value r.output) (s.name r.input) (value r.input))

/-- Reports the first violation: a missing value, a bound, a constraint, a rectifier. -/
def validate [Scalar α] (s : ConstraintSystem α) (v : Assignment α) :
    Except (Violation α) Unit :=
  if v.size ≠ s.size then
    .error (.size v.size s.size)
  else
    match v.unassigned with
    | i :: _ => .error (.unassigned (s.name i))
    | [] =>
      -- No variable is unassigned here, so the default is never taken.
      let value := fun i => (v.value? i).getD 0
      let bounds := s.bounds.zipIdx.findSome? fun p => boundViolation? (s.name p.2) (value p.2) p.1
      let constraints := s.constraints.zipIdx.findSome? fun p => constraintViolation? value p.1 p.2
      let relus := s.relus.findSome? (s.reluViolation? value)
      match (bounds.or constraints).or relus with
      | some violation => .error violation
      | none => .ok ()

/-- Propagates the input values and validates the result. -/
def evaluate [Scalar α] (s : ConstraintSystem α) (inputs : List α) :
    Except (EvalError α) (Assignment α) :=
  match s.forward inputs with
  | .error e => .error e
  | .ok v =>
    match s.validate v with
    | .error violation => .error (.invalid violation)
    | .ok () => .ok v

/-- Propagates the input values and tells whether the result is valid. -/
def evaluateChecked [Scalar α] (s : ConstraintSystem α) (inputs : List α) :
    Except (EvalError α) (Bool × Assignment α) :=
  match s.forward inputs with
  | .error e => .error e
  | .ok v =>
    match s.validate v with
    | .error _ => .ok (false, v)
    | .ok () => .ok (true, v)

/-- The assignment that gives each member its value; members without one stay unassigned. -/
def assignmentOf (s : ConstraintSystem α) (values : VarMap α) : Assignment α :=
  (s.ids.map values.get?).toArray

/-- The value of a member. -/
def valueOf? (s : ConstraintSystem α) (v : Assignment α) (id : NodeId) : Option α :=
  (s.indexOf? id).bind v.value?

/-- The values of the outputs, if all have one. -/
def outputValues? (s : ConstraintSystem α) (v : Assignment α) : Option (List α) :=
  s.outputs.mapM v.value?

end ConstraintSystem

end PiecewiseNet
