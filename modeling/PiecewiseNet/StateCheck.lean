import PiecewiseNet.Comparison

/-!
# State checks

A state check asks for an input on which a neuron leaves the phase it is claimed to be stuck in.
In strict mode an answer "none" proves the claim; otherwise a true claim always gets that answer.

## Main definitions

- `Phase`: the two phases of a rectifier.
- `stateEquation`: the inequality that denies a phase.
- `stateCheck`: the query for a neuron of the last layer.
-/

namespace PiecewiseNet

variable {α : Type}

/-- The phase of a rectifier. -/
inductive Phase where
  /-- The pre-activation is positive and passes through. -/
  | active
  /-- The pre-activation is negative and the output zero. -/
  | inactive
deriving DecidableEq, Repr

/-- The inequality on a pre-activation that denies a phase, with a margin for or against it. -/
def stateEquation [Scalar α] (phase : Phase) (strict : Bool) (margin : α) (id : NodeId) :
    Equation α :=
  match phase, strict with
  | .inactive, false => { terms := [(1, id)], comparator := .ge, scalar := margin }
  | .inactive, true => { terms := [(1, id)], comparator := .ge, scalar := -margin }
  | .active, false => { terms := [(1, id)], comparator := .le, scalar := -margin }
  | .active, true => { terms := [(1, id)], comparator := .le, scalar := margin }

/-- The query for an input on which a neuron of the last layer, cut at its pre-activation, is not
in the given phase. -/
def stateCheck [Scalar α] (net : Network) (neuron : Nat) (phase : Phase) (strict : Bool)
    (margin : α) (a : Arena α) : Except (GraphError α) (Query α) := do
  let kept ← net.keepOutputs [neuron] a
  match ← kept.chain (kept.layerCount - 1) 0 with
  | [id] =>
    let q ← Query.new kept.nodes kept.inputs [id] [stateEquation phase strict margin id]
    q.checkIntegrity a
    return q
  | c => .error (.notLone c.length)

end PiecewiseNet
