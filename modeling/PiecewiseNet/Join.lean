import PiecewiseNet.Override

/-!
# Joined networks

A base network and a copy of it with overrides agree up to the first overridden layer. Joining
makes them share that part: the layers before the boundary, the neurons of the boundary layer that
are not overridden, and the heads of those that are.

## Main definitions

- `JoinedNetworks`: a base network and an altered one on its first layers.
- `join`: splices an altered copy onto its base.
- `joinedQuery`: the query that asks for a run of both.
-/

namespace PiecewiseNet

/-- A base network and an altered one that shares its first layers. -/
structure JoinedNetworks where
  /-- The base network. -/
  base : Network
  /-- The altered network; the layers before the boundary are those of the base. -/
  altered : Network
  /-- The first layer in which the two may differ. -/
  boundary : Nat
deriving DecidableEq, Repr

namespace JoinedNetworks

variable {α : Type}

/-- The nodes of the altered network from the boundary on. -/
def tailNodes (net : Network) (boundary : Nat) : List NodeId :=
  (net.layers.drop boundary).flatten.flatten

/-- The nodes of the base, then those of the altered network from the boundary on. -/
def nodes (j : JoinedNetworks) : List NodeId :=
  j.base.nodes ++ tailNodes j.altered j.boundary

/-- The query that asks for a run of both networks: the outputs of the base, then the altered
ones. -/
def toQuery (j : JoinedNetworks) : Except (GraphError α) (Query α) :=
  Query.new j.nodes j.base.inputs (j.base.outputs ++ j.altered.outputs) []

end JoinedNetworks

variable {α : Type}

/-- The boundary layer of a join, with the table that leads from altered nodes to shared ones and
the altered nodes that stay. -/
structure Boundary where
  /-- The chains of the boundary layer. -/
  chains : Layer
  /-- From the nodes that are dropped to the nodes of the base. -/
  table : Substitution
  /-- The altered nodes that stay. -/
  retained : List NodeId

/-- Splices the boundary layer from neuron `i` on. An overridden neuron keeps its own nodes behind
the head of the base; any other one is the neuron of the base. -/
def spliceChains (isOverridden : Nat → Bool) :
    Nat → List (Chain × Chain) → Substitution → Except (GraphError α) Boundary
  | _, [], table => .ok ⟨[], table, []⟩
  | i, (base, altered) :: rest, table =>
    match base, altered with
    | b :: bs, a :: as =>
      if isOverridden i then
        match spliceChains isOverridden (i + 1) rest (table.insert a b) with
        | .error e => .error e
        | .ok s => .ok ⟨(b :: as) :: s.chains, s.table, as ++ s.retained⟩
      else
        -- The tails correspond even where the chains differ in length.
        let pairs := (a :: as).zip (b :: bs) ++
          [((a :: as).getLast?.getD a, (b :: bs).getLast?.getD b)]
        let table := pairs.foldl (fun t p => t.insert p.1 p.2) table
        match spliceChains isOverridden (i + 1) rest table with
        | .error e => .error e
        | .ok s => .ok ⟨(b :: bs) :: s.chains, s.table, s.retained⟩
    | _, _ => .error (.misuse .emptyChain)

/-- Splices an altered copy onto its base at the first overridden layer. The altered nodes that
stay are changed in place to read from the base, so the altered network itself is used up. -/
def join (base altered : Network) (overrides : Overrides) :
    Edit (GraphError α) α JoinedNetworks := do
  match overrides.entries.head? with
  | none => throw .noOverride
  -- The entries ascend, so the first one names the first overridden layer.
  | some ((boundary, _), _) =>
    if base.layerCount ≤ boundary then
      throw (.outOfRange .boundaryLayer boundary base.layerCount)
    else if altered.layerCount ≠ base.layerCount ∨
        altered.layerSize boundary ≠ base.layerSize boundary then
      throw .shapesDiffer
    else
      let chains := (base.layers[boundary]?.getD []).zip (altered.layers[boundary]?.getD [])
      let later := altered.layers.drop (boundary + 1)
      let spliced ← Edit.ofExcept
        (spliceChains (fun i => overrides.contains (boundary, i)) 0 chains Substitution.empty)
      (spliced.retained ++ later.flatten.flatten).forM (Edit.redirect spliced.table)
      let net ← Edit.reading
        (Network.new (base.layers.take boundary ++ [spliced.chains] ++ later))
      return { base, altered := net, boundary }

/-- A query that passes the integrity check. -/
def finished (q : Query α) : Edit (GraphError α) α (Query α) := do
  Edit.reading q.checkIntegrity
  return q

/-- The query that asks for a run of a base network and its altered copy. -/
def joinedQuery (base altered : Network) (overrides : Overrides) :
    Edit (GraphError α) α (Query α) := do
  let joined ← join base altered overrides
  let q ← Edit.ofExcept joined.toQuery
  finished q

end PiecewiseNet
