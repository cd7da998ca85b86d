import PiecewiseNet.Node

/-!
# Errors of networks

Why a network, a query or a change to one is refused.

## Main definitions

- `Misuse`: a caller broke a promise; a network that passed its checks never leads here.
- `Subject`, `Role`: what an index counts, and what a node was given as.
- `GraphError`: the causes, with their wording in `GraphError.message`.
-/

namespace PiecewiseNet

/-- A caller broke a promise. -/
inductive Misuse where
  /-- A node was read that the arena does not hold. -/
  | foreignNode (id : NodeId)
  /-- The first or last node of an empty chain was asked for. -/
  | emptyChain
  /-- The last layer of a network without layers was asked for. -/
  | noLayers
  /-- An index computation left the range of indices. -/
  | indexOverflow
  /-- A file record lacks the data for one of its inputs. -/
  | missingData
deriving DecidableEq, Repr

/-- The wording of a broken promise. -/
def Misuse.message : Misuse → String
  | .foreignNode id => id.text ++ " is not a node of this arena"
  | .emptyChain => "a chain has no nodes"
  | .noLayers => "a network has no layers"
  | .indexOverflow => "an index is out of the range of indices"
  | .missingData => "a file record lacks data for an input"

/-- What an index counts. -/
inductive Subject where
  | layer
  | neuron
  | output
  | lastLayer
  | firstLayer
  | firstCut
  | lastCut
  | boundaryLayer
  | subspaceLength
  | subspaceDigit
deriving DecidableEq, Repr

/-- The name of what an index counts. -/
def Subject.text : Subject → String
  | .layer => "layer"
  | .neuron => "neuron"
  | .output => "output"
  | .lastLayer => "last layer"
  | .firstLayer => "first layer"
  | .firstCut => "first cut"
  | .lastCut => "last cut"
  | .boundaryLayer => "boundary layer"
  | .subspaceLength => "subspace length"
  | .subspaceDigit => "subspace digit"

/-- What a node of a query was given as. -/
inductive Role where
  | input
  | output
  | equationTerm
deriving DecidableEq, Repr

/-- The name of a role. -/
def Role.text : Role → String
  | .input => "input"
  | .output => "output"
  | .equationTerm => "equation term"

/-- Why a network, a query or a change to one is refused. -/
inductive GraphError (α : Type) where
  /-- Narrowing would leave the bounds of a node empty. -/
  | emptyBounds (node : String) (lower upper : α)
  /-- A listed node is not in the arena. -/
  | foreign (id : NodeId)
  /-- A node is listed twice. -/
  | repeated (node : String)
  /-- A node reads one that does not come before it. -/
  | notBefore (node target : String)
  /-- A node reads one outside its structure. -/
  | outside (node : String) (target : NodeId)
  /-- A node of a query is not among its members. -/
  | notMember (role : Role) (id : NodeId)
  | noLayers
  | emptyNeuron (layer neuron : Nat)
  /-- A join was asked for without an override to join at. -/
  | noOverride
  | shapesDiffer
  /-- A state check needs a neuron of one node. -/
  | notLone (length : Nat)
  /-- A relaxation needs a neuron with a free output. -/
  | notFree (layer neuron : Nat)
  /-- An input without two bounds cannot be split. -/
  | unsplittable (node : String)
  | unknownOverride (text : String)
  /-- An index is not below its limit. -/
  | outOfRange (subject : Subject) (index limit : Nat)
  /-- An output was to beat itself. -/
  | sameOutput (output counter : Nat)
  /-- A caller broke a promise. -/
  | misuse (cause : Misuse)
deriving DecidableEq, Repr

namespace GraphError

variable {α : Type}

/-- The text in front of an integrity error. -/
def integrity (detail : String) : String :=
  "referential integrity violated: " ++ detail

/-- The text in front of an error about the shape of a network. -/
def topology (detail : String) : String :=
  "unsupported topology: " ++ detail

/-- A neuron's place in its network. -/
def place (layer neuron : Nat) : String :=
  "neuron (" ++ toString layer ++ ", " ++ toString neuron ++ ")"

/-- The wording of an error. -/
def message [Numeral α] : GraphError α → String
  | emptyBounds node lower upper =>
    "invalid bounds on " ++ node ++ ": lower " ++ Numeral.write lower ++ " > upper " ++
      Numeral.write upper
  | foreign id => integrity (id.text ++ " does not belong to this arena")
  | repeated node => integrity (node ++ " appears twice in the network")
  | notBefore node target =>
    integrity (node ++ " references " ++ target ++ ", which does not precede it")
  | outside node target =>
    integrity (node ++ " references " ++ target.text ++ ", which is not part of the structure")
  | notMember role id => integrity (role.text ++ " " ++ id.text ++ " is not a member of the query")
  | noLayers => topology "network contains no layers"
  | emptyNeuron layer neuron => topology (place layer neuron ++ " has an empty chain")
  | noOverride => topology "join needs at least one override"
  | shapesDiffer => topology "original and modified networks differ in shape"
  | notLone length =>
    topology ("state check expects a lone pre-activation node, found a chain of " ++
      toString length)
  | notFree layer neuron => topology (place layer neuron ++ " is not a free-output chain")
  | unsplittable node => topology ("input '" ++ node ++ "' needs finite bounds to be split")
  | unknownOverride text =>
    "unknown override kind '" ++ text ++ "'; expected 'active', 'inactive' or 'nofunc'"
  | outOfRange subject index limit =>
    subject.text ++ " index " ++ toString index ++ " out of range (limit " ++ toString limit ++ ")"
  | sameOutput output counter =>
    "output " ++ toString output ++ " and counter output " ++ toString counter ++ " must differ"
  | misuse cause => cause.message

end GraphError

end PiecewiseNet
