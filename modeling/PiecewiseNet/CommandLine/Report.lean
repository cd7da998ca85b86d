import PiecewiseNet.Analysis.Exchange
import PiecewiseNet.Network

/-!
# Reports

What the commands show about a network and its values, as a table or as JSON.

## Main definitions

- `NetworkReport`: the layers and the input box of a network.
- `EvaluationReport`: the outputs of a network and perhaps of its overridden copy.
-/

namespace PiecewiseNet.CommandLine

open Json

/-! ## Columns -/

/-- A text filled up with blanks at its end. -/
def padEnd (width : Nat) (s : String) : String :=
  s ++ String.ofList (List.replicate (width - s.length) ' ')

/-- A text filled up with blanks in front. -/
def padFront (width : Nat) (s : String) : String :=
  String.ofList (List.replicate (width - s.length) ' ') ++ s

/-- A text cut to a width; dots stand for what is cut off. -/
def shortened (width : Nat) (s : String) : String :=
  if s.length ≤ width then s else String.ofList (s.toList.take (width - 3)) ++ "..."

/-- A line across a table. -/
def rule (width : Nat) : String :=
  "  " ++ String.ofList (List.replicate width '-') ++ "\n"

/-! ## Networks -/

/-- A layer in a report. -/
structure LayerReport where
  index : Nat
  /-- The number of its neurons. -/
  neurons : Nat
  /-- The kinds along its first chain. -/
  shape : String

/-- The layers and the input box of a network. -/
structure NetworkReport where
  nodes : Nat
  /-- The inputs with their bounds. -/
  inputs : List (String × Interval Float)
  layers : List LayerReport

/-- The report on a network. -/
def NetworkReport.ofNetwork (a : Arena Float) (net : Network) : NetworkReport where
  nodes := net.nodes.length
  inputs := net.inputs.map fun id => (a.name id, ((a.get? id).map (·.bounds)).getD .unbounded)
  layers := net.layers.mapIdx fun index l =>
    { index, neurons := l.length, shape := (l.head?.map (Network.shape a)).getD "" }

/-- The report as JSON. -/
def NetworkReport.toJson (r : NetworkReport) : Value :=
  .object [
    ("nodes", .natural r.nodes),
    ("inputs", .array (r.inputs.map fun i =>
      .object [("name", .text i.1), ("bounds", i.2.toJson)])),
    ("layers", .array (r.layers.map fun l =>
      .object [("index", .natural l.index), ("neurons", .natural l.neurons),
        ("shape", .text l.shape)]))]

/-- An end of an interval in a table. -/
def limitText : Option Float → String
  | some x => Decimal.fixed 4 x
  | none => "-"

/-- The report as a table. -/
def NetworkReport.table (path : String) (r : NetworkReport) : String :=
  "  Network: " ++ path ++ "\n" ++
  "  Layers:  " ++ toString r.layers.length ++ "\n" ++
  "  Nodes:   " ++ toString r.nodes ++ "\n\n" ++
  "  " ++ padEnd 6 "Layer" ++ " " ++ padFront 8 "Neurons" ++ "  Chain\n" ++ rule 40 ++
  String.join (r.layers.map fun l =>
    "  " ++ padEnd 6 (toString l.index) ++ " " ++ padFront 8 (toString l.neurons) ++ "  " ++
      l.shape ++ "\n") ++ "\n" ++
  "  " ++ padEnd 24 "Input" ++ " " ++ padFront 12 "Lower" ++ " " ++ padFront 12 "Upper" ++ "\n" ++
  rule 50 ++
  String.join (r.inputs.map fun i =>
    "  " ++ padEnd 24 (shortened 24 i.1) ++ " " ++ padFront 12 (limitText i.2.lower) ++ " " ++
      padFront 12 (limitText i.2.upper) ++ "\n") ++ "\n"

/-! ## Values -/

/-- The outputs of a network at a point, and whether the point satisfies all conditions. -/
structure Evaluation where
  outputs : List Float
  /-- No condition is violated. -/
  valid : Bool

/-- The outputs of a network and perhaps of its overridden copy. -/
structure EvaluationReport where
  /-- The point. -/
  input : List Float
  /-- The outputs of the network. -/
  base : Evaluation
  /-- The outputs of the overridden copy. -/
  altered : Option Evaluation

/-- Outputs as JSON. -/
def Evaluation.toJson (e : Evaluation) : Value :=
  .object [("outputs", .array (e.outputs.map .float)), ("valid", .boolean e.valid)]

/-- The report as JSON. -/
def EvaluationReport.toJson (r : EvaluationReport) : Value :=
  let altered :=
    match r.altered with
    | some e => [("modified", e.toJson)]
    | none => []
  .object ([("input", .array (r.input.map .float)), ("original", r.base.toJson)] ++ altered)

/-- The lines of the outputs from an index on. -/
def outputLines (altered : List Float) : Nat → List Float → String
  | _, [] => ""
  | i, x :: xs =>
    let other :=
      match altered[i]? with
      | some y => Decimal.fixed 6 y
      | none => "-"
    "  " ++ padEnd 8 (toString i) ++ " " ++ padFront 14 (Decimal.fixed 6 x) ++ " " ++
      padFront 14 other ++ "\n" ++ outputLines altered (i + 1) xs

/-- Every point of the report satisfies all conditions. -/
def EvaluationReport.isValid (r : EvaluationReport) : Bool :=
  r.base.valid && r.altered.all (·.valid)

/-- The report as a table. -/
def EvaluationReport.table (r : EvaluationReport) : String :=
  let warning :=
    if r.isValid then ""
    else
      "\n  warning: the point violates a bound or constraint (rerun with -v for detail)\n"
  "  Input: [" ++ String.intercalate ", " (r.input.map Decimal.pointed.write) ++ "]\n\n" ++
  "  " ++ padEnd 8 "Output" ++ " " ++ padFront 14 "Original" ++ " " ++ padFront 14 "Modified" ++
  "\n" ++ rule 38 ++
  outputLines ((r.altered.map (·.outputs)).getD []) 0 r.base.outputs ++ warning

end PiecewiseNet.CommandLine
