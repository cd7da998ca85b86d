import PiecewiseNet.GraphError
import PiecewiseNet.Path

/-!
# Errors of the analysis

Why a redundancy query is refused.

## Main definitions

- `OverrideFault`: why an override does not suit the network and the range.
- `SettingsFault`: why settings are refused.
- `AnalysisError`: the causes, with their wording in `AnalysisError.message`.
-/

namespace PiecewiseNet

open Text

/-- Why an override does not suit the network and the range. -/
inductive OverrideFault where
  /-- The layer is the input layer, or not before the output layer. -/
  | notHidden (outputLayer : Nat)
  /-- The layer is outside the range. -/
  | outsideRange (first last : Nat)
  /-- The layer has no such neuron. -/
  | noNeuron (size : Nat)
  /-- The neuron is overridden already. -/
  | twice
deriving DecidableEq, Repr

/-- The wording of an override fault. -/
def OverrideFault.message : OverrideFault → String
  | notHidden outputLayer =>
    "layer must lie strictly between the input layer and output layer " ++ toString outputLayer
  | outsideRange first last =>
    "layer is outside the clip range " ++ toString first ++ "..=" ++ toString last
  | noNeuron size => "layer has " ++ toString size ++ " neurons"
  | twice => "neuron is overridden twice"

/-- Why settings, or the text of an override, are refused. -/
inductive SettingsFault (α : Type) where
  /-- The text of an override has not three parts. -/
  | overrideShape (text : String)
  /-- An index in the text of an override is no index. -/
  | overrideIndex (text : String) (cause : NumeralError)
  /-- The margin is negative or not finite. -/
  | badMargin (margin : α)
  /-- The two label suffixes agree. -/
  | sameSuffix (suffix : String)
  /-- There is no text at the path. -/
  | noFile (path : String) (fault : PathFault)
  /-- The text is no settings text. -/
  | unreadable
  /-- The settings cannot be written. -/
  | unwritable
deriving DecidableEq, Repr

/-- The wording of a settings fault. The wording ends where the reader of the text would tell its
own reasons. -/
def SettingsFault.message {α : Type} [Numeral α] : SettingsFault α → String
  | overrideShape text => "override '" ++ text ++ "' is not of the form layer:neuron:kind"
  | overrideIndex text cause => "override '" ++ text ++ "': " ++ cause.message
  | badMargin margin =>
    "epsilon must be finite and non-negative, got " ++ Numeral.write margin
  | sameSuffix suffix => "duplicate and modified suffixes are both '" ++ suffix ++ "'"
  | noFile path fault => "cannot read config '" ++ path ++ "': " ++ fault.message
  | unreadable => "TOML parse error"
  | unwritable => "TOML serialise error"

/-- Why a redundancy query is refused. -/
inductive AnalysisError (α : Type) where
  /-- A change to the network is refused. -/
  | graph (cause : GraphError α)
  /-- An override does not suit the network and the range. -/
  | badOverride (layer neuron : Nat) (fault : OverrideFault)
  /-- The range does not end at the whole output layer. -/
  | badRange
  /-- The settings are refused. -/
  | settings (fault : SettingsFault α)
deriving DecidableEq, Repr

/-- The wording of an error. -/
def AnalysisError.message {α : Type} [Numeral α] : AnalysisError α → String
  | graph cause => "ir error: " ++ cause.message
  | badOverride layer neuron fault =>
    "invalid override of " ++ GraphError.place layer neuron ++ ": " ++ fault.message
  | badRange =>
    "invalid clip range: this query needs the clip range to end at the untruncated output layer"
  | settings fault => "configuration error: " ++ fault.message

/-- The wording of what is behind an error, if something is. -/
def AnalysisError.cause? {α : Type} [Numeral α] : AnalysisError α → Option String
  | graph cause => some cause.message
  | _ => none

end PiecewiseNet
