import PiecewiseNet.Interval

/-!
# Nodes

A node is one scalar unit of a piecewise-linear network: a free value, an affine combination, a
rectified linear unit or an absolute value. Nodes name their inputs by their place in an arena.

## Main definitions

- `NodeId`: the place of a node in its arena.
- `Terms`: a sum of scaled nodes.
- `NodeKind`: how a node's value arises.
- `Node`: a kind with bounds and a label.
- `NodeKind.references`, `NodeKind.redirect`: the nodes it reads, and reading others instead.
-/

namespace PiecewiseNet

/-- The place of a node in its arena. -/
abbrev NodeId := Nat

/-- The written form of a node's place. -/
def NodeId.text (id : NodeId) : String :=
  "#" ++ toString id

/-- A sum of scaled nodes. -/
abbrev Terms (α : Type) := List (α × NodeId)

namespace Terms

variable {α : Type}

/-- The nodes of a sum, in order. -/
def nodes (ts : Terms α) : List NodeId :=
  ts.map (·.2)

/-- The same sum over other nodes. -/
def redirect (ts : Terms α) (f : NodeId → NodeId) : Terms α :=
  ts.map fun t => (t.1, f t.2)

end Terms

/-- How the value of a node arises. -/
inductive NodeKind (α : Type) where
  /-- A free value. -/
  | plain
  /-- A sum of scaled nodes and a constant. -/
  | affine (terms : Terms α) (bias : α)
  /-- The positive part of a node; `relaxed` marks it for a linear relaxation. -/
  | relu (input : NodeId) (relaxed : Bool)
  /-- The absolute value of a node. -/
  | abs (input : NodeId)
deriving DecidableEq, Repr

namespace NodeKind

variable {α : Type}

/-- The name of a kind. -/
def name : NodeKind α → String
  | plain => "plain"
  | affine _ _ => "affine"
  | relu _ _ => "relu"
  | abs _ => "abs"

/-- The nodes that a node reads, in order. -/
def references : NodeKind α → List NodeId
  | plain => []
  | affine terms _ => terms.nodes
  | relu input _ => [input]
  | abs input => [input]

/-- The same kind over other nodes. -/
def redirect (f : NodeId → NodeId) : NodeKind α → NodeKind α
  | plain => plain
  | affine terms bias => affine (terms.redirect f) bias
  | relu input relaxed => relu (f input) relaxed
  | abs input => abs (f input)

/-- The kind is a free value. -/
def isPlain : NodeKind α → Bool
  | plain => true
  | _ => false

end NodeKind

/-- A node: a kind, bounds on its value, and possibly a label. -/
structure Node (α : Type) where
  /-- How the value arises. -/
  kind : NodeKind α
  /-- Where the value must lie. -/
  bounds : Interval α := Interval.unbounded
  /-- The name of the node. -/
  label : Option String := none
deriving DecidableEq, Repr

namespace Node

variable {α : Type}

/-- The nodes that a node reads, in order. -/
def references (n : Node α) : List NodeId :=
  n.kind.references

/-- The same node over other inputs. -/
def redirect (n : Node α) (f : NodeId → NodeId) : Node α :=
  { n with kind := n.kind.redirect f }

/-- The label, or the kind in angle brackets. -/
def displayName (n : Node α) : String :=
  match n.label with
  | some l => l
  | none => "<" ++ n.kind.name ++ ">"

/-- A copy of the node; its label, if it has one, ends in `suffix`. -/
def copied (n : Node α) (suffix : String) : Node α :=
  { n with label := n.label.map (· ++ suffix) }

/-- A free value with the bounds of the node; its label, if it has one, ends in `suffix`. -/
def severed (n : Node α) (suffix : String) : Node α :=
  { kind := .plain, bounds := n.bounds, label := n.label.map (· ++ suffix) }

end Node

end PiecewiseNet
