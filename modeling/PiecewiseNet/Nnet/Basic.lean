import PiecewiseNet.Network
import PiecewiseNet.Session

/-!
# Weight files

A weight file lists the layer sizes of a fully connected network, the ranges and the scaling of its
inputs, and for each layer the weight rows and biases of its neurons.

## Main definitions

- `NnetFile`: the contents of a weight file.
- `NnetFile.inputBounds?`: the scaled range of an input.
- `NnetFile.build`: the network of a file. Hidden neurons are an affine node and its positive part,
  those of the last layer an affine node alone.
-/

namespace PiecewiseNet

/-- The contents of a weight file. -/
structure NnetFile (α : Type) where
  /-- The layer sizes, the input layer first. -/
  layerSizes : List Nat
  /-- The least value of each input. -/
  minimums : List α
  /-- The greatest value of each input. -/
  maximums : List α
  /-- The value subtracted from each input. -/
  means : List α
  /-- The value that each input is divided by. -/
  ranges : List α
  /-- For each layer after the input the weight rows of its neurons. -/
  weights : List (List (List α))
  /-- For each layer after the input the biases of its neurons. -/
  biases : List (List α)
deriving DecidableEq, Repr

namespace NnetFile

variable {α : Type}

/-- The size of the input layer, if the file lists a layer. -/
def inputSize? (f : NnetFile α) : Option Nat :=
  f.layerSizes.head?

/-- The scaled range of an input, if all four of its values are there. -/
def inputBounds? [Scalar α] (f : NnetFile α) (i : Nat) : Option (α × α) :=
  match f.minimums[i]?, f.maximums[i]?, f.means[i]?, f.ranges[i]? with
  | some low, some high, some mean, some range => some ((low - mean) / range, (high - mean) / range)
  | _, _, _, _ => none

/-- Adds the input nodes from index `i` on, `count` of them. -/
def buildInputs [Scalar α] (f : NnetFile α) (stem : String) :
    Nat → Nat → Edit (GraphError α) α Layer
  | 0, _ => pure []
  | count + 1, i => do
    match f.inputBounds? i with
    | none => throw (.misuse .missingData)
    | some (low, high) =>
      let id ← Edit.push { kind := .plain, label := some (stem ++ "00_" ++ labelIndex i) }
      Edit.limit id (some low) (some high)
      let rest ← buildInputs f stem count (i + 1)
      return [id] :: rest

/-- Adds one neuron over the tails of the layer before it. -/
def buildNeuron [Scalar α] (isLast : Bool) (name : String) (terms : Terms α) (bias : α) :
    Edit (GraphError α) α Chain := do
  if isLast then
    let b ← Edit.push { kind := .affine terms bias, label := some name }
    return [b]
  else
    let b ← Edit.push { kind := .affine terms bias, label := some (name ++ "_b") }
    let r ← Edit.push
      { kind := .relu b false, bounds := ⟨some 0, none⟩, label := some (name ++ "_f") }
    return [b, r]

/-- Adds the neurons of one layer from index `n` on, one for each weight row with a bias. -/
def buildLayer [Scalar α] (isLast : Bool) (stem : String) (previous : List NodeId) :
    Nat → List (List α × α) → Edit (GraphError α) α Layer
  | _, [] => pure []
  | n, (row, bias) :: rest => do
    let c ← buildNeuron isLast (stem ++ labelIndex n) (row.zip previous) bias
    let cs ← buildLayer isLast stem previous (n + 1) rest
    return c :: cs

/-- Adds the layers from index `index` on, each over the tails of the one before it. -/
def buildLayers [Scalar α] (last : Nat) (stem : String) :
    Nat → List NodeId → List (List (List α) × List α) → Edit (GraphError α) α (List Layer)
  | _, _, [] => pure []
  | index, previous, (rows, biases) :: rest => do
    let l ← buildLayer (index == last) (stem ++ labelIndex index ++ "_") previous 0
      (rows.zip biases)
    let ls ← buildLayers last stem (index + 1) (l.filterMap List.getLast?) rest
    return l :: ls

/-- Adds the nodes of the network, with labels that start with `stem`. -/
def buildWith [Scalar α] (f : NnetFile α) (stem : String) : Edit (GraphError α) α Network := do
  match f.inputSize? with
  | none => throw (.misuse .missingData)
  | some n =>
    let inputs ← f.buildInputs stem n 0
    let layers ← buildLayers (f.layerSizes.length - 1) stem 1 (inputs.filterMap List.getLast?)
      (f.weights.zip f.biases)
    Edit.reading (Network.new (inputs :: layers))

/-- Builds the network of a file in a session, under a label prefix of its own. -/
def build [Scalar α] (f : NnetFile α) (s : Session α) :
    Except (FileError α) Network × Session α :=
  -- The prefix is used up even if building fails.
  let (stem, names) := s.names.nnet
  let (r, a) := (Edit.ofGraph (f.buildWith stem)).run s.arena
  (r, ⟨a, names⟩)

end NnetFile

end PiecewiseNet
