import PiecewiseNet.Network
import PiecewiseNet.OrderedMap

/-!
# Overrides

An override replaces the activation of one neuron: by the identity, by the constant zero, or by a
free value within the bounds of the old output. All consumers of the old output read the new one.

## Main definitions

- `OverrideKind`: what replaces an activation.
- `Overrides`: the overridden neurons, by layer and index.
- `Network.override`: applies overrides, changing the nodes of the network in place.
-/

namespace PiecewiseNet

/-- What replaces the activation of a neuron. -/
inductive OverrideKind where
  /-- The identity: the neuron puts out its pre-activation. -/
  | active
  /-- The constant zero. -/
  | inactive
  /-- A free value within the bounds of the old output. -/
  | nofunc
deriving DecidableEq, Repr

namespace OverrideKind

/-- The name of a kind. -/
def text : OverrideKind → String
  | active => "active"
  | inactive => "inactive"
  | nofunc => "nofunc"

/-- The kind with a name. -/
def ofText? (s : String) : Option OverrideKind :=
  if s = "active" then some active
  else if s = "inactive" then some inactive
  else if s = "nofunc" then some nofunc
  else none

/-- The kind with a name, or the error that there is none. -/
def parse {α : Type} (s : String) : Except (GraphError α) OverrideKind :=
  match ofText? s with
  | some k => .ok k
  | none => .error (.unknownOverride s)

end OverrideKind

/-- The overridden neurons, by layer and index. -/
abbrev Overrides := OrderedMap (Nat × Nat) OverrideKind

namespace Network

variable {α : Type} [Scalar α]

/-- The chain that replaces a chain with the given head and tail, new nodes added. -/
def replacement (kind : OverrideKind) (head tail : NodeId) : Edit (GraphError α) α Chain := do
  match kind with
  | .active => return [head]
  | .inactive =>
    let constant ← Edit.push { kind := .plain, bounds := Interval.fixed 0 }
    return [head, constant]
  | .nofunc =>
    let old ← Edit.node tail
    let free ← Edit.push { kind := .plain, bounds := old.bounds }
    return [head, free]

/-- Overrides one neuron. The new tail takes the label of the old one with the kind behind it, and
the table sends the old tail to the new one. -/
def overrideChain (kind : OverrideKind) (c : Chain) (table : Substitution) :
    Edit (GraphError α) α (Chain × Substitution) := do
  match c.head?, c.getLast? with
  | some head, some tail =>
    let chain ← replacement kind head tail
    -- A replacement chain is never empty, so its tail is there.
    let newTail := chain.getLast?.getD head
    match (← Edit.node tail).label with
    | some l => Edit.update newTail ({ · with label := some (l ++ "_" ++ kind.text) })
    | none => pure ()
    return (chain, if newTail = tail then table else table.insert tail newTail)
  | _, _ => throw (.misuse .emptyChain)

/-- Applies overrides one after the other. -/
def overrideChains :
    List ((Nat × Nat) × OverrideKind) → List Layer → Substitution →
      Edit (GraphError α) α (List Layer × Substitution)
  | [], layers, table => pure (layers, table)
  | ((l, n), kind) :: rest, layers, table => do
    match layers[l]? with
    | none => throw (.outOfRange .layer l layers.length)
    | some layer =>
      match layer[n]? with
      | none => throw (.outOfRange .neuron n layer.length)
      | some c =>
        let (c, table) ← overrideChain kind c table
        overrideChains rest (layers.set l (layer.set n c)) table

/-- Applies overrides to a network and lets every consumer of an old tail read the new one. The
nodes are changed in place, so the network itself is used up. -/
def override (net : Network) (overrides : Overrides) : Edit (GraphError α) α Network := do
  let (layers, table) ← overrideChains overrides.entries net.layers Substitution.empty
  -- All overrides are in the table before any consumer is redirected.
  layers.flatten.flatten.forM (Edit.redirect table)
  Edit.reading (Network.new layers)

end Network

end PiecewiseNet
