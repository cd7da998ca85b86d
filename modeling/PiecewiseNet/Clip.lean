import PiecewiseNet.Network

/-!
# Clipping

A contiguous range of layers is cut out as a network of its own. In the first kept layer every
chain is severed at a position: its node there becomes a fresh input with the same bounds, and the
nodes up to it are dropped. In the last kept layer every chain is cut behind a position.

## Main definitions

- `ClipRange`: which layers are kept, and where the chains at the two ends are cut.
- `Network.clip`: cuts a range out of a network, changing its nodes in place.
- `Network.duplicateAndClip`: cuts a range out of a copy.
-/

namespace PiecewiseNet

open Text

/-- Which layers are kept, and where the chains at the two ends are cut. -/
structure ClipRange where
  /-- The first layer that is kept. -/
  firstLayer : Nat := 0
  /-- The position in the chains of the first layer that becomes an input. -/
  firstCut : Nat := 0
  /-- The last layer that is kept; all to the output layer when absent. -/
  lastLayer : Option Nat := none
  /-- The last position that is kept in the chains of the last layer. -/
  lastCut : Nat := 0
deriving DecidableEq, Repr

/-- The index behind another one, if there is one. -/
def nextIndex {α : Type} (i : Nat) : Except (GraphError α) Nat :=
  if i < indexLimit then .ok (i + 1) else .error (.misuse .indexOverflow)

namespace ClipRange

/-- The last layer that is kept of a network with so many layers. -/
def resolveLast (r : ClipRange) (layerCount : Nat) : Nat :=
  r.lastLayer.getD (layerCount - 1)

/-- The range ends at the output layer, whose chains are cut behind their first node. -/
def reachesOutput {α : Type} (r : ClipRange) (layerCount : Nat) : Except (GraphError α) Bool :=
  match nextIndex (r.resolveLast layerCount) with
  | .error e => .error e
  | .ok next => .ok (next == layerCount && r.lastCut == 0)

end ClipRange

namespace Network

variable {α : Type}

/-- Severs every chain of a layer at a position. The table records the input that stands for each
severed node. -/
def severLayer (cut : Nat) :
    Layer → Substitution → Edit (GraphError α) α (Layer × Substitution)
  | [], table => pure ([], table)
  | chain :: chains, table => do
    match chain[cut]? with
    | none => throw (.outOfRange .firstCut cut chain.length)
    | some boundary =>
      let input ← Edit.sever boundary "_bdr"
      let (rest, table) ← severLayer cut chains (table.insert boundary input)
      return ((input :: chain.drop (cut + 1)) :: rest, table)

/-- Cuts every chain of a layer behind a position. -/
def truncateLayer (cut : Nat) : Layer → Except (GraphError α) Layer
  | [] => .ok []
  | c :: cs =>
    if c.length ≤ cut then
      .error (.outOfRange .lastCut cut c.length)
    else
      match truncateLayer cut cs with
      | .error e => .error e
      | .ok rest => .ok (c.take (cut + 1) :: rest)

/-- Cuts every chain of the last layer behind a position. -/
def truncateLast (cut : Nat) : List Layer → Except (GraphError α) (List Layer)
  | [] => .ok []
  | [l] =>
    match truncateLayer cut l with
    | .error e => .error e
    | .ok l => .ok [l]
  | l :: m :: ls =>
    match truncateLast cut (m :: ls) with
    | .error e => .error e
    | .ok rest => .ok (l :: rest)

/-- Cuts a range out of a network. The nodes of the kept layers are changed in place, so the
network itself is used up. -/
def clip (net : Network) (r : ClipRange) : Edit (GraphError α) α Network := do
  let last := r.resolveLast net.layerCount
  if net.layerCount ≤ last then
    throw (.outOfRange .lastLayer last net.layerCount)
  else if last < r.firstLayer then
    throw (.outOfRange .firstLayer r.firstLayer (last + 1))
  else
    match (net.layers.drop r.firstLayer).take (last - r.firstLayer + 1) with
    | [] => throw (.misuse .noLayers)
    | first :: rest =>
      let (first, table) ← severLayer r.firstCut first Substitution.empty
      let layers ← Edit.ofExcept (truncateLast r.lastCut (first :: rest))
      -- What is kept reads the fresh inputs in place of the severed nodes.
      layers.flatten.flatten.forM (Edit.redirect table)
      Edit.reading (Network.new layers)

/-- Cuts a range of at least two layers out of a copy of the network. -/
def duplicateAndClip (net : Network) (r : ClipRange) (suffix : String) :
    Edit (GraphError α) α Network := do
  let last := r.resolveLast net.layerCount
  if last ≤ r.firstLayer then
    throw (.outOfRange .firstLayer r.firstLayer last)
  else
    let copy ← net.duplicate suffix
    copy.clip r

end Network

end PiecewiseNet
