import PiecewiseNet.Network

/-!
# Shapes of networks

Conditions on how a network is laid out that the builders of networks keep and that analyses rely
on.

## Main definitions

- `Network.Accepted`: the network passes its integrity check.
- `Network.FreeAtInputs`: the free nodes are exactly the lone nodes of the first layer.
- `Network.ReadsEarlier`, `Network.ReadsPrevious`: nodes read their own neuron, and otherwise only
  earlier layers, or only the layer directly before.
- `Network.ShortChains`: no neuron has more than two nodes.
-/

namespace PiecewiseNet

namespace Network

variable {α : Type}

/-- The network passes its integrity check. -/
def Accepted (net : Network) (a : Arena α) : Prop :=
  net.checkIntegrity a = .ok ()

/-- The node at a place is a free value. -/
def IsFree (a : Arena α) (id : NodeId) : Prop :=
  ∃ n, a.get? id = some n ∧ n.kind = .plain

/-- The nodes that the node at a place reads. -/
def references (a : Arena α) (id : NodeId) : List NodeId :=
  ((a.get? id).map Node.references).getD []

/-- The node belongs to this neuron, and the neuron to the layer with this index. -/
def Lies (net : Network) (layer : Nat) (c : Chain) (id : NodeId) : Prop :=
  ∃ l, net.layers[layer]? = some l ∧ c ∈ l ∧ id ∈ c

/-- The free nodes of the network are exactly the neurons of one node in its first layer. -/
def FreeAtInputs (net : Network) (a : Arena α) : Prop :=
  ∀ id ∈ net.nodes, IsFree a id ↔ ∃ l, net.layers.head? = some l ∧ [id] ∈ l

/-- A node reads its own neuron or earlier layers. -/
def ReadsEarlier (net : Network) (a : Arena α) : Prop :=
  ∀ layer c id, net.Lies layer c id → ∀ target ∈ references a id,
    target ∈ c ∨ ∃ earlier d, earlier < layer ∧ net.Lies earlier d target

/-- A node reads its own neuron or the layer directly before it. -/
def ReadsPrevious (net : Network) (a : Arena α) : Prop :=
  ∀ layer c id, net.Lies layer c id → ∀ target ∈ references a id,
    target ∈ c ∨ ∃ earlier d, earlier + 1 = layer ∧ net.Lies earlier d target

/-- No neuron has more than two nodes. -/
def ShortChains (net : Network) : Prop :=
  ∀ l ∈ net.layers, ∀ c ∈ l, c.length ≤ 2

/-- What only reads the layer before also only reads earlier layers. -/
theorem ReadsPrevious.readsEarlier {net : Network} {a : Arena α} (h : net.ReadsPrevious a) :
    net.ReadsEarlier a := by
  intro layer c id hid target ht
  rcases h layer c id hid target ht with hown | ⟨earlier, d, he, hd⟩
  · exact .inl hown
  · exact .inr ⟨earlier, d, by omega, hd⟩

end Network

end PiecewiseNet
