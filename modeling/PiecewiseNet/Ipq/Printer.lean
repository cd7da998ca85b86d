import PiecewiseNet.Ipq.Basic

/-!
# Writing query files

One record per line, with commas between its fields: the counts of variables, lower bounds, upper
bounds, equations and constraints; the inputs and the outputs, each behind its count and numbered
from zero; the lower and the upper bounds; the equations and the constraints, numbered from zero.

## Main definitions

- `Comparator.code`: the number that stands for a comparator.
- `IpqFile.records`: the records of a file, each as its fields.
- `IpqFile.text`: the text of a file.
-/

namespace PiecewiseNet

/-- The number that stands for a comparator. -/
def Comparator.code : Comparator → Nat
  | .eq => 0
  | .ge => 1
  | .le => 2

variable {α : Type} [Numeral α]

/-- The fields of a numbered variable. -/
def indexedRecord (i v : Nat) : List String :=
  [toString i, toString v]

/-- The fields of a bound. -/
def boundRecord (e : Nat × α) : List String :=
  [toString e.1, Numeral.write e.2]

/-- The fields of a numbered equation. -/
def IpqEquation.record (i : Nat) (e : IpqEquation α) : List String :=
  [toString i, toString e.comparator.code, Numeral.write e.scalar] ++
    e.addends.flatMap fun a => [toString a.1, Numeral.write a.2]

/-- The fields of a numbered constraint. -/
def IpqConstraint.record (i : Nat) : IpqConstraint → List String
  | relu f b => [toString i, "relu", toString f, toString b]
  | abs f b => [toString i, "absoluteValue", toString f, toString b]
  | max f inputs =>
    [toString i, "max", toString f] ++
      (if inputs.isEmpty then [""] else inputs.map toString)

/-- The records of a file, each as its fields. -/
def IpqFile.records (f : IpqFile α) : List (List String) :=
  [[toString f.variableCount], [toString f.lowerBounds.size], [toString f.upperBounds.size],
    [toString f.equations.length], [toString f.constraints.length],
    [toString f.inputs.length]] ++
  f.inputs.mapIdx indexedRecord ++ [[toString f.outputs.length]] ++
  f.outputs.mapIdx indexedRecord ++ f.lowerBounds.entries.map boundRecord ++
  f.upperBounds.entries.map boundRecord ++ f.equations.mapIdx IpqEquation.record ++
  f.constraints.mapIdx IpqConstraint.record

/-- The text of a file: every record on a line of its own. -/
def IpqFile.text (f : IpqFile α) : String :=
  String.join (f.records.map fun r => ",".intercalate r ++ "\n")

end PiecewiseNet
