import PiecewiseNet.Join

/-!
# Comparisons

Queries that ask for an input on which an altered copy of a network puts out something else.

## Main definitions

- `Network.keepOutputs`: a network with only some of its output neurons.
- `compareExact`: one output moves by at least a margin in one direction.
- `compareMinimum`: an output that wins in the base loses against another in the altered copy.
-/

namespace PiecewiseNet

variable {α : Type}

/-- The chains at the given indices of a layer. -/
def pickChains (l : Layer) : List Nat → Except (GraphError α) Layer
  | [] => .ok []
  | i :: is =>
    match l[i]? with
    | none => .error (.outOfRange .output i l.length)
    | some c =>
      match pickChains l is with
      | .error e => .error e
      | .ok cs => .ok (c :: cs)

namespace Network

/-- The network with its last layer reduced to the chains at the given indices. -/
def keepOutputs (net : Network) (keep : List Nat) (a : Arena α) : Except (GraphError α) Network :=
  match net.layers.getLast? with
  | none => .error (.misuse .noLayers)
  | some last =>
    match pickChains last keep with
    | .error e => .error e
    | .ok chains => Network.new (net.layers.dropLast ++ [chains]) a

/-- The tail of an output neuron. -/
def output (net : Network) (index : Nat) : Except (GraphError α) NodeId := do
  let last := net.layerCount - 1
  let l ← net.layer last
  match l[index]? with
  | none => .error (.outOfRange .output index (net.layerSize last))
  | some c =>
    match c.getLast? with
    | some id => .ok id
    | none => .error (.misuse .emptyChain)

end Network

/-- The direction of a difference between outputs. -/
inductive Direction where
  /-- The base exceeds the altered copy. -/
  | gt
  /-- The altered copy exceeds the base. -/
  | lt
deriving DecidableEq, Repr

/-- How far the value in the base and the value in the altered copy differ in a direction. -/
def Direction.gap [Sub α] (d : Direction) (base altered : α) : α :=
  match d with
  | .gt => base - altered
  | .lt => altered - base

/-- One node exceeds another by at least a margin. -/
def exceeds [Scalar α] (greater smaller : NodeId) (margin : α) : Equation α :=
  { terms := [(1, greater), (-1, smaller)], comparator := .ge, scalar := margin }

/-- The difference of two nodes, taken in a direction, is at least a margin. -/
def differs [Scalar α] (d : Direction) (base altered : NodeId) (margin : α) : Equation α :=
  match d with
  | .gt => { terms := [(1, base), (-1, altered)], comparator := .ge, scalar := margin }
  | .lt => { terms := [(-1, base), (-(-1), altered)], comparator := .ge, scalar := margin }

/-- The query for an input on which output `index` moves by at least `margin` in direction `d`. -/
def compareExact [Scalar α] (base altered : Network) (overrides : Overrides) (d : Direction)
    (index : Nat) (margin : α) : Edit (GraphError α) α (Query α) := do
  let joined ← join base altered overrides
  let kept ← Edit.reading (joined.base.keepOutputs [index])
  let keptAltered ← Edit.reading (joined.altered.keepOutputs [index])
  let o ← Edit.ofExcept (kept.output 0)
  let m ← Edit.ofExcept (keptAltered.output 0)
  let q ← Edit.ofExcept (Query.new
    (kept.nodes ++ JoinedNetworks.tailNodes keptAltered joined.boundary) kept.inputs [o, m]
    [differs d o m margin])
  finished q

/-- The equations that make one output exceed every other one. -/
def winnerEquations [Scalar α] (winner : NodeId) (index : Nat) (margin : α)
    (outputs : List NodeId) : List (Equation α) :=
  (outputs.zipIdx.filter (·.2 != index)).map fun p => exceeds winner p.1 margin

/-- The query for an input on which output `index` exceeds every other output of the base by
`margin`, and output `counter` of the altered copy exceeds its output `index` by `margin`. -/
def compareMinimum [Scalar α] (base altered : Network) (overrides : Overrides)
    (index counter : Nat) (margin : α) : Edit (GraphError α) α (Query α) := do
  if index = counter then
    throw (.sameOutput index counter)
  else
    let joined ← join base altered overrides
    let outputs := joined.base.outputs
    let winner ← Edit.ofExcept (joined.base.output index)
    let keptAltered ← Edit.reading (joined.altered.keepOutputs [index, counter])
    -- The kept outputs are numbered in the order in which they were asked for.
    let loser ← Edit.ofExcept (keptAltered.output 0)
    let counterNode ← Edit.ofExcept (keptAltered.output 1)
    let q ← Edit.ofExcept (Query.new
      (joined.base.nodes ++ JoinedNetworks.tailNodes keptAltered joined.boundary)
      joined.base.inputs (outputs ++ [loser, counterNode])
      (winnerEquations winner index margin outputs ++ [exceeds counterNode loser margin]))
    finished q

end PiecewiseNet
