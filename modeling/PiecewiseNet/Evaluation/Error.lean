import PiecewiseNet.Equation

/-!
# Errors of evaluation

Why a query cannot be evaluated, and what an assignment violates.

## Main definitions

- `Violation`: the first condition that an assignment does not meet.
- `EvalError`: the causes, with their wording in `EvalError.message`.
-/

namespace PiecewiseNet

/-- A condition that an assignment does not meet. -/
inductive Violation (α : Type) where
  /-- The assignment has another number of variables. -/
  | size (assigned expected : Nat)
  | unassigned (name : String)
  /-- A value is below its lower bound. -/
  | below (name : String) (value bound : α)
  /-- A value is above its upper bound. -/
  | above (name : String) (value bound : α)
  /-- A constraint does not hold. -/
  | constraint (index : Nat) (kind : Comparator) (residual : α)
  /-- A rectifier's value is not the positive part of its argument. -/
  | relu (output : String) (value : α) (input : String) (argument : α)
deriving DecidableEq, Repr

/-- The name of a comparator in a violation. -/
def Comparator.label : Comparator → String
  | .le => "Le"
  | .eq => "Eq"
  | .ge => "Ge"

/-- The wording of a violation. -/
def Violation.message {α : Type} [Numeral α] : Violation α → String
  | size assigned expected =>
    "assignment has " ++ toString assigned ++ " variable(s), query has " ++ toString expected
  | unassigned name => "'" ++ name ++ "' has no value"
  | below name value bound =>
    "'" ++ name ++ "' = " ++ Numeral.write value ++ " below lower bound " ++ Numeral.write bound
  | above name value bound =>
    "'" ++ name ++ "' = " ++ Numeral.write value ++ " above upper bound " ++ Numeral.write bound
  | constraint index kind residual =>
    "constraint #" ++ toString index ++ " (" ++ kind.label ++ ") violated with residual " ++
      Numeral.write residual
  | relu output value input argument =>
    "relu '" ++ output ++ "' = " ++ Numeral.write value ++ " but input '" ++ input ++ "' = " ++
      Numeral.write argument

/-- Why a query cannot be evaluated. -/
inductive EvalError (α : Type) where
  /-- A node is of a kind that cannot be evaluated. -/
  | unsupportedKind (kind node : String)
  /-- Variables are left without a value. -/
  | incomplete (unassigned : Nat) (first : String)
  /-- An equation has coefficient zero on the variable that it should define. -/
  | degenerate (equation : Nat) (name : String)
  /-- An assignment does not satisfy the query. -/
  | invalid (violation : Violation α)
  /-- The number of values differs from the number of inputs. -/
  | inputCount (expected actual : Nat)
  /-- The query is refused. -/
  | graph (cause : GraphError α)
deriving DecidableEq, Repr

/-- The wording of an error. -/
def EvalError.message {α : Type} [Numeral α] : EvalError α → String
  | unsupportedKind kind node =>
    "unsupported constraint kind '" ++ kind ++ "' on node '" ++ node ++ "'"
  | incomplete unassigned first =>
    "evaluation incomplete: " ++ toString unassigned ++ " variable(s) unassigned, first '" ++
      first ++ "'"
  | degenerate equation name =>
    "degenerate equation #" ++ toString equation ++ ": zero coefficient on '" ++ name ++ "'"
  | invalid violation => "validation failed: " ++ violation.message
  | inputCount expected actual =>
    "expected " ++ toString expected ++ " input value(s), got " ++ toString actual
  | graph cause => "ir error: " ++ cause.message

/-- The wording of what is behind an error, if something is. -/
def EvalError.cause? {α : Type} [Numeral α] : EvalError α → Option String
  | graph cause => some cause.message
  | _ => none

end PiecewiseNet
