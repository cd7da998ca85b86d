import PiecewiseNet.Analysis.Error
import PiecewiseNet.Override
import PiecewiseNet.Text.Lines

/-!
# Overrides in words

An override is written `layer:neuron:kind`; blanks around the parts do not matter.

## Main definitions

- `NeuronOverride`: a neuron and what replaces its activation.
- `NeuronOverride.parse`: reads an override.
-/

namespace PiecewiseNet

open Text

/-- A neuron and what replaces its activation. -/
structure NeuronOverride where
  layer : Nat
  /-- The index of the neuron in its layer. -/
  neuron : Nat
  kind : OverrideKind
deriving DecidableEq, Repr

namespace NeuronOverride

variable {α : Type}

/-- An index in the text of an override. -/
def readIndex (text : String) (part : List Char) : Except (AnalysisError α) Nat :=
  match readNat indexLimit part with
  | .ok n => .ok n
  | .error cause => .error (.settings (.overrideIndex text cause))

/-- Reads an override. -/
def parse (text : String) : Except (AnalysisError α) NeuronOverride :=
  match (fields ':' text.toList).map trim with
  | [layer, neuron, kind] => do
    let layer ← readIndex text layer
    let neuron ← readIndex text neuron
    match OverrideKind.parse (String.ofList kind) with
    | .ok kind => .ok { layer, neuron, kind }
    | .error e => .error (.graph e)
  | _ => .error (.settings (.overrideShape text))

end NeuronOverride

end PiecewiseNet
