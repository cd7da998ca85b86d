import PiecewiseNet.GraphError
import PiecewiseNet.Path

/-!
# Errors of network files

Why a file cannot be read, or a network cannot be built from it.

## Main definitions

- `NnetItem`, `IpqItem`: the parts of the two formats, by the names that errors give them.
- `NnetFault`, `IpqFault`: what is wrong with a line.
- `FileError`: the causes, with their wording in `FileError.message`.
-/

namespace PiecewiseNet

open Text

/-- The parts of a weight file. -/
inductive NnetItem where
  | header
  | layerSizes
  | symmetricFlag
  | inputMinimums
  | inputMaximums
  | means
  | ranges
  | weightRow
  | bias
deriving DecidableEq, Repr

/-- The name of a part of a weight file. -/
def NnetItem.text : NnetItem → String
  | header => "header"
  | layerSizes => "layer sizes"
  | symmetricFlag => "symmetric flag"
  | inputMinimums => "input minimums"
  | inputMaximums => "input maximums"
  | means => "means"
  | ranges => "ranges"
  | weightRow => "weight row"
  | bias => "bias"

/-- What is wrong with a line of a weight file. -/
inductive NnetFault where
  /-- The file ends where a part was expected. -/
  | endOfFile (expected : NnetItem)
  /-- A row has too few values. -/
  | tooFew (item : NnetItem) (least got : Nat)
  /-- A value is no decimal number. -/
  | badNumber (item : NnetItem) (field : List Char) (cause : NumeralError)
  /-- A value is no index. -/
  | badInteger (item : NnetItem) (field : List Char) (cause : NumeralError)
  | tooManyLayers
  /-- The row of sizes has the wrong length. -/
  | sizeCount (expected got : Nat)
  /-- The first size differs from the input size in the header. -/
  | inputSize (size header : Nat)
deriving DecidableEq, Repr

/-- The wording of a fault in a weight file. -/
def NnetFault.message : NnetFault → String
  | endOfFile expected => "unexpected end of file, expected " ++ expected.text
  | tooFew item least got =>
    item.text ++ ": expected at least " ++ toString least ++ " values, got " ++ toString got
  | badNumber item field cause =>
    item.text ++ ": invalid number '" ++ String.ofList field ++ "': " ++ cause.message
  | badInteger item field cause =>
    item.text ++ ": invalid integer '" ++ String.ofList field ++ "': " ++ cause.message
  | tooManyLayers => "layer count overflows"
  | sizeCount expected got =>
    "expected " ++ toString expected ++ " layer sizes, got " ++ toString got
  | inputSize size header =>
    "input layer size " ++ toString size ++ " does not match header input size " ++
      toString header

/-- The parts of a query file. -/
inductive IpqItem where
  | variableCount
  | lowerBoundCount
  | upperBoundCount
  | equationCount
  | constraintCount
  | inputCount
  | outputCount
  | inputVariable
  | outputVariable
  | lowerBound
  | upperBound
  | equation
  | equationId
  | equationKind
  | equationScalar
  | equationVariable
  | equationCoefficient
  | constraint
  | constraintId
  | constraintVariable
deriving DecidableEq, Repr

/-- The name of a part of a query file. -/
def IpqItem.text : IpqItem → String
  | variableCount => "variable count"
  | lowerBoundCount => "lower bound count"
  | upperBoundCount => "upper bound count"
  | equationCount => "equation count"
  | constraintCount => "constraint count"
  | inputCount => "input count"
  | outputCount => "output count"
  | inputVariable => "input variable"
  | outputVariable => "output variable"
  | lowerBound => "lower bound"
  | upperBound => "upper bound"
  | equation => "equation"
  | equationId => "equation id"
  | equationKind => "equation kind"
  | equationScalar => "equation scalar"
  | equationVariable => "equation variable"
  | equationCoefficient => "equation coefficient"
  | constraint => "constraint"
  | constraintId => "constraint id"
  | constraintVariable => "constraint variable"

/-- What is wrong with a line of a query file. -/
inductive IpqFault where
  /-- The file ends where a part was expected. -/
  | endOfFile (expected : IpqItem)
  /-- A value is no number of its kind. -/
  | badValue (item : IpqItem) (field : List Char) (cause : NumeralError)
  /-- A line that lists a variable has not two fields. -/
  | notIndexAndVariable (item : IpqItem)
  /-- A line that bounds a variable has not two fields. -/
  | notVariableAndValue (item : IpqItem)
  /-- An index is not the next one. -/
  | wrongIndex (item : IpqItem) (expected got : Nat)
  /-- A variable is not below the number of variables. -/
  | noVariable (item : IpqItem) (var : Nat)
  /-- A variable has two bounds of one side. -/
  | boundTwice (item : IpqItem) (var : Nat)
  /-- A variable is both input and output. -/
  | inputAndOutput (var : Nat)
  /-- The fields of an equation do not pair up. -/
  | equationShape
  /-- The identifier of an equation is not the next one. -/
  | equationOrder (expected got : Nat)
  /-- An equation has an unknown kind. -/
  | equationCode (code : Nat)
  /-- A constraint has too few fields. -/
  | constraintShape
  /-- The identifier of a constraint is not the next one. -/
  | constraintOrder (expected got : Nat)
  /-- A constraint of two variables has more fields. -/
  | constraintPair
deriving DecidableEq, Repr

/-- The wording of a fault in a query file. -/
def IpqFault.message : IpqFault → String
  | endOfFile expected => "unexpected end of file, expected " ++ expected.text
  | badValue item field cause =>
    item.text ++ ": invalid value '" ++ String.ofList field ++ "': " ++ cause.message
  | notIndexAndVariable item => item.text ++ ": expected 'index,var'"
  | notVariableAndValue item => item.text ++ ": expected 'var,value'"
  | wrongIndex item expected got =>
    item.text ++ ": expected index " ++ toString expected ++ ", got " ++ toString got
  | noVariable item v => item.text ++ ": variable " ++ toString v ++ " out of range"
  | boundTwice item v => item.text ++ ": duplicate bound for " ++ toString v
  | inputAndOutput v => "variable " ++ toString v ++ " is both input and output"
  | equationShape => "equation: expected 'id,kind,scalar,(var,coeff)*'"
  | equationOrder expected got =>
    "equation: expected id " ++ toString expected ++ ", got " ++ toString got
  | equationCode code => "equation: unknown kind " ++ toString code
  | constraintShape => "constraint: expected 'id,kind,f,b...'"
  | constraintOrder expected got =>
    "constraint: expected id " ++ toString expected ++ ", got " ++ toString got
  | constraintPair => "constraint: expected 'id,kind,f,b'"

/-- Why a file cannot be read, or a network cannot be built from it. -/
inductive FileError (α : Type) where
  /-- There is no text at the path. -/
  | unreadable (path : String) (fault : PathFault)
  /-- A line of a weight file is wrong. -/
  | nnetLine (line : Nat) (fault : NnetFault)
  /-- A line of a query file is wrong. -/
  | ipqLine (line : Nat) (fault : IpqFault)
  | unknownConstraint (name : String)
  /-- The constraint kind cannot be rebuilt as a layer. -/
  | unsupportedConstraint (kind : String)
  /-- An equation defines a variable with coefficient zero. -/
  | degenerateEquation (equation var : Nat)
  /-- The solver gave up. -/
  | timeout
  /-- A layer defines no affine nodes. -/
  | emptyLayer (layer : Nat)
  /-- The declared outputs are not the final affine layer. -/
  | wrongOutputs
  /-- A rectifier has a variable that no layer defines. -/
  | looseRelu (input output : Nat)
  /-- An equation has a variable that no layer defines. -/
  | looseEquation (equation var : Nat)
  /-- An equation is no equality. -/
  | inequality (equation : Nat)
  /-- An equation defines a variable with a coefficient other than minus one. -/
  | wrongCoefficient (equation var : Nat) (coefficient : α)
  /-- Two equations define one variable in the same layer. -/
  | definedTwice (var : Nat)
  /-- A rectifier does not read the affine layer before it. -/
  | skippedLayer (node : String)
  /-- The network is refused. -/
  | graph (cause : GraphError α)
deriving DecidableEq, Repr

namespace FileError

variable {α : Type}

/-- The wording of an error of a line. -/
def atLine (line : Nat) (detail : String) : String :=
  "parse error at line " ++ toString line ++ ": " ++ detail

/-- The wording of an error, without the word in front that an error about the network has. -/
def detail [Numeral α] : FileError α → String
  | unreadable path fault => "failed to read '" ++ path ++ "': " ++ fault.message
  | nnetLine line fault => atLine line fault.message
  | ipqLine line fault => atLine line fault.message
  | unknownConstraint name => "unknown node kind '" ++ name ++ "'"
  | unsupportedConstraint kind => "unsupported constraint kind '" ++ kind ++ "'"
  | degenerateEquation e v =>
    "degenerate equation #" ++ toString e ++ ": zero coefficient on variable " ++ toString v
  | timeout => "solver timed out"
  | emptyLayer layer =>
    GraphError.topology ("layer " ++ toString layer ++ " defines no affine nodes")
  | wrongOutputs => GraphError.topology "declared outputs are not exactly the final affine layer"
  | looseRelu input output =>
    GraphError.topology ("relu " ++ toString input ++ " -> " ++ toString output ++
      " is not part of the layered structure")
  | looseEquation e v =>
    GraphError.topology ("equation #" ++ toString e ++ " mentions variable " ++ toString v ++
      ", which is unreachable from the inputs")
  | inequality e => GraphError.topology ("equation #" ++ toString e ++ " is an inequality")
  | wrongCoefficient e v c =>
    GraphError.topology ("equation #" ++ toString e ++ " defines variable " ++ toString v ++
      " with coefficient " ++ Numeral.write c ++ ", expected -1")
  | definedTwice v =>
    GraphError.topology ("variable " ++ toString v ++ " is defined by more than one equation")
  | skippedLayer node =>
    GraphError.topology ("relu '" ++ node ++
      "' does not read from the affine layer directly before it")
  | graph cause => cause.message

/-- The error is about the network in the file, not about the text of the file. -/
def concernsNetwork : FileError α → Bool
  | unreadable .. | nnetLine .. | ipqLine .. | unsupportedConstraint _ | degenerateEquation ..
  | timeout => false
  | _ => true

/-- The wording of an error. -/
def message [Numeral α] (e : FileError α) : String :=
  if e.concernsNetwork then "ir error: " ++ e.detail else e.detail

/-- The wording of what is behind an error, if something is. -/
def cause? [Numeral α] : FileError α → Option String
  | unreadable _ fault => some fault.message
  | e => if e.concernsNetwork then some e.detail else none

end FileError

end PiecewiseNet
