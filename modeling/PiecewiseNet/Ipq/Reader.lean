import PiecewiseNet.FileError
import PiecewiseNet.Ipq.Printer
import PiecewiseNet.Text.Lines

/-!
# Reading query files

The reader takes one record from every line, cuts it into fields at commas and drops blanks around
the line and around the fields. The counts at the head say how many records of each kind follow.

## Main definitions

- `IpqFile.Records`: the lines that are still to be read.
- `IpqFile.parse`: reads the contents of a query file.
-/

namespace PiecewiseNet

open Text

/-- The comparator that a number stands for. -/
def Comparator.ofCode? : Nat → Option Comparator
  | 0 => some .eq
  | 1 => some .ge
  | 2 => some .le
  | _ => none

namespace IpqFile

variable {α : Type}

/-- The lines that are still to be read. -/
structure Records where
  /-- The number of lines read, also those behind the end. -/
  line : Nat := 0
  /-- The lines ahead. -/
  ahead : List (List Char)

/-- The lines of a text. -/
def Records.ofText (text : List Char) : Records :=
  { ahead := lines text }

/-- Readings of records. -/
abbrev Reading (α β : Type) := StateT Records (Except (FileError α)) β

/-- Reports a fault in the line read last. -/
def fault {β : Type} (f : IpqFault) : Reading α β := do
  throw (.ipqLine (← get).line f)

/-- The fields of a line. -/
def recordFields (line : List Char) : List (List Char) :=
  (fields ',' (trim line)).map trim

/-- The fields of the next line. -/
def nextRecord (item : IpqItem) : Reading α (List (List Char)) := do
  let records ← get
  match records.ahead with
  | [] => throw (.ipqLine (records.line + 1) (.endOfFile item))
  | line :: rest =>
    set ({ line := records.line + 1, ahead := rest } : Records)
    return recordFields line

/-- The value of a field. -/
def readField {β : Type} (item : IpqItem) (read : List Char → Except NumeralError β)
    (field : List Char) : Reading α β :=
  match read field with
  | .ok v => pure v
  | .error cause => fault (.badValue item field cause)

/-- The index in a field. -/
def readIndex (item : IpqItem) (field : List Char) : Reading α Nat :=
  readField item (readNat indexLimit) field

/-- The scalar in a field. -/
def readScalar [Numeral α] (item : IpqItem) (field : List Char) : Reading α α :=
  readField item Numeral.read field

/-- The count in the first field of the next line. -/
def readCount (item : IpqItem) : Reading α Nat := do
  let record ← nextRecord item
  readIndex item (record.headD [])

/-- The variables of the next `count` lines, numbered from `i` on. -/
def readVariables (item : IpqItem) (variableCount : Nat) : Nat → Nat → Reading α (List Nat)
  | 0, _ => pure []
  | count + 1, i => do
    match ← nextRecord item with
    | [index, var] =>
      let index ← readIndex item index
      if index ≠ i then
        fault (.wrongIndex item i index)
      else
        let var ← readIndex item var
        if variableCount ≤ var then
          fault (.noVariable item var)
        else
          let rest ← readVariables item variableCount count (i + 1)
          return var :: rest
    | _ => fault (.notIndexAndVariable item)

/-- The bounds of the next `count` lines, added to those read. -/
def readBounds [Numeral α] (item : IpqItem) : Nat → VarMap α → Reading α (VarMap α)
  | 0, bounds => pure bounds
  | count + 1, bounds => do
    match ← nextRecord item with
    | [var, value] =>
      let var ← readIndex item var
      let value ← readScalar item value
      if bounds.contains var then
        fault (.boundTwice item var)
      else
        readBounds item count (bounds.insert var value)
    | _ => fault (.notVariableAndValue item)

/-- The scaled variables in the fields of an equation. -/
def readAddends [Numeral α] : List (List Char) → Reading α (List (Nat × α))
  | var :: coefficient :: rest => do
    let v ← readIndex .equationVariable var
    let c ← readScalar .equationCoefficient coefficient
    let addends ← readAddends rest
    return (v, c) :: addends
  | _ => pure []

/-- The equation in the next line, whose identifier is `i`. -/
def readEquation [Numeral α] (i : Nat) : Reading α (IpqEquation α) := do
  match ← nextRecord .equation with
  | id :: code :: scalar :: addends =>
    if addends.length % 2 ≠ 0 then
      fault .equationShape
    else
      let id ← readIndex .equationId id
      if id ≠ i then
        fault (.equationOrder i id)
      else
        let code ← readField .equationKind (readNat byteLimit) code
        match Comparator.ofCode? code with
        | none => fault (.equationCode code)
        | some comparator =>
          let scalar ← readScalar .equationScalar scalar
          let addends ← readAddends addends
          return { comparator, scalar, addends }
  | _ => fault .equationShape

/-- The equations of the next `count` lines, numbered from `i` on. -/
def readEquations [Numeral α] : Nat → Nat → Reading α (List (IpqEquation α))
  | 0, _ => pure []
  | count + 1, i => do
    let e ← readEquation i
    let rest ← readEquations count (i + 1)
    return e :: rest

/-- The variables in the fields of a constraint. -/
def readIndices : List (List Char) → Reading α (List Nat)
  | [] => pure []
  | f :: fs => do
    let v ← readIndex .constraintVariable f
    let vs ← readIndices fs
    return v :: vs

/-- The one variable in the fields of a constraint of two variables. -/
def readPartner (others : List (List Char)) : Reading α Nat :=
  match others with
  | [b] => readIndex .constraintVariable b
  | _ => fault .constraintPair

/-- The constraint in the next line, whose identifier is `i`. -/
def readConstraint (i : Nat) : Reading α IpqConstraint := do
  match ← nextRecord .constraint with
  | id :: kind :: f :: other :: others =>
    let id ← readIndex .constraintId id
    if id ≠ i then
      fault (.constraintOrder i id)
    else
      let f ← readIndex .constraintVariable f
      if kind = "relu".toList then
        return .relu f (← readPartner (other :: others))
      else if kind = "absoluteValue".toList then
        return .abs f (← readPartner (other :: others))
      else if kind = "max".toList then
        return .max f (← readIndices (other :: others))
      else
        throw (.unknownConstraint (String.ofList kind))
  | _ => fault .constraintShape

/-- The constraints of the next `count` lines, numbered from `i` on. -/
def readConstraints : Nat → Nat → Reading α (List IpqConstraint)
  | 0, _ => pure []
  | count + 1, i => do
    let c ← readConstraint i
    let rest ← readConstraints count (i + 1)
    return c :: rest

/-- The contents of a query file. -/
def readFile [Numeral α] : Reading α (IpqFile α) := do
  let variableCount ← readCount .variableCount
  let lowerCount ← readCount .lowerBoundCount
  let upperCount ← readCount .upperBoundCount
  let equationCount ← readCount .equationCount
  let constraintCount ← readCount .constraintCount
  let inputCount ← readCount .inputCount
  let inputs ← readVariables .inputVariable variableCount inputCount 0
  let outputCount ← readCount .outputCount
  let outputs ← readVariables .outputVariable variableCount outputCount 0
  match outputs.find? inputs.contains with
  | some v => fault (.inputAndOutput v)
  | none =>
    let lowerBounds ← readBounds .lowerBound lowerCount OrderedMap.empty
    let upperBounds ← readBounds .upperBound upperCount OrderedMap.empty
    let equations ← readEquations equationCount 0
    let constraints ← readConstraints constraintCount 0
    return { variableCount, inputs, outputs, lowerBounds, upperBounds, equations, constraints }

/-- Reads the contents of a query file. Lines behind the last record are ignored. -/
def parse [Numeral α] (text : String) : Except (FileError α) (IpqFile α) :=
  (·.1) <$> readFile.run (Records.ofText text.toList)

end IpqFile

end PiecewiseNet
