import PiecewiseNet.Network

/-!
# Linear relaxation

On an interval around zero a rectifier is replaced by the line through the middle of the triangle
that encloses it.

## Main definitions

- `relaxationError`: the greatest distance between the line and the rectifier.
- `relaxationValue`: the line.
- `relaxationEquation`: the line as an equation between two nodes.
- `Network.relaxedQuery`: a query in which a free neuron lies on its line.
-/

namespace PiecewiseNet

variable {α : Type} [Scalar α]

/-- The greatest distance between the line and the rectifier on the interval. -/
def relaxationError (lower upper : α) : α :=
  -lower * upper / ((1 + 1) * (upper - lower))

/-- The value of the line. -/
def relaxationValue (lower upper x : α) : α :=
  upper / (upper - lower) * x + relaxationError lower upper

/-- The line as an equation between a pre-activation and the node that stands for its output. -/
def relaxationEquation (pre post : NodeId) (lower upper : α) :
    Except (GraphError α) (Equation α) :=
  if lower < upper then
    .ok { terms := [(1, post), (-(upper / (upper - lower)), pre)], comparator := .eq,
          scalar := relaxationError lower upper }
  else
    .error (.emptyBounds ("relaxation of " ++ NodeId.text pre) lower upper)

/-- The query for a run of the network in which a neuron whose output was set free lies on its
line. -/
def Network.relaxedQuery (net : Network) (layer neuron : Nat) (lower upper : α) (a : Arena α) :
    Except (GraphError α) (Query α) := do
  match ← net.chain layer neuron with
  | [pre, post] =>
    let n ← a.node post
    if n.kind.isPlain then
      let q ← net.toQuery
      let e ← relaxationEquation pre post lower upper
      let q ← q.pushEquation e
      q.checkIntegrity a
      return q
    else
      .error (.notFree layer neuron)
  | _ => .error (.notFree layer neuron)

end PiecewiseNet
