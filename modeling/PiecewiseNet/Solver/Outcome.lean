import PiecewiseNet.FileError
import PiecewiseNet.OrderedMap

/-!
# Outcomes of a solver

## Main definitions

- `SolverOutcome`: a verdict, with a witness if there is one.
- `SolverOutcome.requireDefinite`: refuses an outcome without a verdict.
-/

namespace PiecewiseNet

/-- The outcome of a solver run. -/
inductive SolverOutcome (α : Type) where
  /-- The witness satisfies the query. -/
  | sat (witness : VarMap α)
  /-- Nothing satisfies the query. -/
  | unsat
  /-- The solver gave up. -/
  | timeout

namespace SolverOutcome

variable {α : Type}

/-- The query is satisfied. -/
def isSat : SolverOutcome α → Bool
  | sat _ => true
  | _ => false

/-- The witness, without entries unless the query is satisfied. -/
def witness : SolverOutcome α → VarMap α
  | sat w => w
  | _ => OrderedMap.empty

/-- Refuses an outcome without a verdict. -/
def requireDefinite : SolverOutcome α → Except (FileError α) (SolverOutcome α)
  | timeout => .error .timeout
  | outcome => .ok outcome

end SolverOutcome

end PiecewiseNet
