import PiecewiseNet.Query

/-!
# Layered networks

A network is a list of layers, a layer a list of neurons, and a neuron a chain of nodes, its head
(the pre-activation) first. Read layer by layer and chain by chain, every node comes after the
nodes it reads.

## Main definitions

- `Network`: the layers.
- `Network.nodes`, `Network.inputs`, `Network.outputs`: the nodes in canonical order, the heads of
  the first layer and the tails of the last.
- `Network.checkIntegrity`: every node is listed once and reads earlier nodes only.
- `Network.duplicate`: a copy on new nodes.
- `Network.toQuery`: the query that asks for any run of the network.
-/

namespace PiecewiseNet

/-- The nodes of one neuron, its head first. -/
abbrev Chain := List NodeId

/-- The neurons of one layer. -/
abbrev Layer := List Chain

/-- A network as layers of neurons. -/
structure Network where
  /-- The layers, the input layer first. -/
  layers : List Layer
deriving DecidableEq, Repr

namespace Network

variable {α : Type}

/-- The number of layers. -/
def layerCount (net : Network) : Nat :=
  net.layers.length

/-- The number of neurons of a layer, zero for a layer that does not exist. -/
def layerSize (net : Network) (layer : Nat) : Nat :=
  (net.layers[layer]?.getD []).length

/-- A layer by its index. -/
def layer (net : Network) (layer : Nat) : Except (GraphError α) Layer :=
  match net.layers[layer]? with
  | some l => .ok l
  | none => .error (.outOfRange .layer layer net.layerCount)

/-- A neuron by its layer and its index there. -/
def chain (net : Network) (layer neuron : Nat) : Except (GraphError α) Chain := do
  let l ← net.layer layer
  match l[neuron]? with
  | some c => .ok c
  | none => .error (.outOfRange .neuron neuron l.length)

/-- All nodes, layer by layer and chain by chain. -/
def nodes (net : Network) : List NodeId :=
  net.layers.flatten.flatten

/-- The heads of the first layer. -/
def inputs (net : Network) : List NodeId :=
  (net.layers.head?.getD []).filterMap List.head?

/-- The tails of the last layer. -/
def outputs (net : Network) : List NodeId :=
  (net.layers.getLast?.getD []).filterMap List.getLast?

/-- Adds the nodes of a chain to those seen: each is in the arena and was not seen before. -/
def checkChain (a : Arena α) : List NodeId → Chain → Except (GraphError α) (List NodeId)
  | seen, [] => .ok seen
  | seen, id :: ids =>
    if !a.holds id then .error (.foreign id)
    else if seen.contains id then .error (.repeated (a.name id))
    else checkChain a (id :: seen) ids

/-- Adds the nodes of a layer to those seen; no chain is empty. -/
def checkLayer (a : Arena α) (layer : Nat) :
    Nat → List NodeId → Layer → Except (GraphError α) (List NodeId)
  | _, seen, [] => .ok seen
  | neuron, seen, c :: cs =>
    if c.isEmpty then .error (.emptyNeuron layer neuron)
    else
      match checkChain a seen c with
      | .error err => .error err
      | .ok seen => checkLayer a layer (neuron + 1) seen cs

/-- Adds the nodes of all layers to those seen. -/
def checkLayers (a : Arena α) : Nat → List NodeId → List Layer → Except (GraphError α) (List NodeId)
  | _, seen, [] => .ok seen
  | layer, seen, l :: ls =>
    match checkLayer a layer 0 seen l with
    | .error err => .error err
    | .ok seen => checkLayers a (layer + 1) seen ls

/-- Refuses the first target that does not come earlier. -/
def checkTargets (a : Arena α) (all earlier : List NodeId) (id : NodeId) :
    List NodeId → Except (GraphError α) Unit
  | [] => .ok ()
  | target :: targets =>
    if earlier.contains target then checkTargets a all earlier id targets
    else if all.contains target then .error (.notBefore (a.name id) (a.name target))
    else .error (.outside (a.name id) target)

/-- Every node reads earlier ones only. -/
def checkOrder (a : Arena α) (all : List NodeId) :
    List NodeId → List NodeId → Except (GraphError α) Unit
  | _, [] => .ok ()
  | earlier, id :: ids =>
    match checkTargets a all earlier id (((a.get? id).map Node.references).getD []) with
    | .error err => .error err
    | .ok () => checkOrder a all (id :: earlier) ids

/-- The network has a layer, no neuron is empty, every node is in the arena and listed once, and
every node reads nodes listed before it. -/
def checkIntegrity (net : Network) (a : Arena α) : Except (GraphError α) Unit :=
  if net.layers.isEmpty then
    .error .noLayers
  else
    match checkLayers a 0 [] net.layers with
    | .error err => .error err
    | .ok _ => checkOrder a net.nodes [] net.nodes

/-- A network that passes the integrity check. -/
def new (layers : List Layer) (a : Arena α) : Except (GraphError α) Network :=
  let net : Network := ⟨layers⟩
  match net.checkIntegrity a with
  | .error err => .error err
  | .ok () => .ok net

/-- The same shape over other nodes. -/
def redirect (net : Network) (f : NodeId → NodeId) : List Layer :=
  net.layers.map fun l => l.map fun c => c.map f

/-- Copies nodes one after the other and records each copy. -/
def copyNodes (suffix : String) :
    List NodeId → Substitution → Edit (GraphError α) α Substitution
  | [], table => pure table
  | id :: ids, table => do
    let copy ← Edit.copyNode id suffix
    copyNodes suffix ids (table.insert id copy)

/-- A copy of the network on new nodes. The nodes are copied first and still read the nodes of the
source; then every copy is made to read copies. -/
def duplicate (net : Network) (suffix : String) : Edit (GraphError α) α Network := do
  let table ← copyNodes suffix net.nodes Substitution.empty
  -- Only now does every node have a copy to read.
  net.nodes.forM fun id => Edit.redirect table (table.apply id)
  Edit.reading (Network.new (net.redirect table.apply))

/-- The query that asks for any run of the network. -/
def toQuery (net : Network) : Except (GraphError α) (Query α) :=
  Query.new net.nodes net.inputs net.outputs []

/-- The kinds along a chain. -/
def shape (a : Arena α) (c : Chain) : String :=
  "+".intercalate (c.map fun id => ((a.get? id).map (·.kind.name)).getD "")

/-- One line for a layer: its size and how often each shape occurs, in order of appearance. -/
def layerSummary (a : Arena α) (index : Nat) (l : Layer) : String :=
  let shapes := l.map (shape a)
  let counted := shapes.eraseDups.map fun s => s ++ " x" ++ toString (shapes.count s)
  "  [" ++ toString index ++ "] " ++ toString l.length ++ " neurons: " ++
    ", ".intercalate counted ++ "\n"

/-- The size of the network and one line for each layer. -/
def summary (net : Network) (a : Arena α) : Except (GraphError α) String :=
  match net.nodes.find? fun id => !a.holds id with
  | some id => .error (.misuse (.foreignNode id))
  | none =>
    .ok ("LayeredNetwork: " ++ toString net.layerCount ++ " layers, " ++
      toString net.nodes.length ++ " nodes\n" ++
      String.join (net.layers.mapIdx (layerSummary a)))

end Network

end PiecewiseNet
