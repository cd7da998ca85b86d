import PiecewiseNet.Nnet.Basic
import PiecewiseNet.Text.Lines

/-!
# Reading weight files

A weight file is a sequence of rows of values between commas, often with a comma at the end. Blank
lines and lines that start with two slashes are no rows.

The rows are: a header with the number of layers after the input and the input size; the layer
sizes; one unused row; the least values, the greatest values, the means and the ranges of the
inputs; and for each layer after the input the weight rows and then the biases, one row each.

## Main definitions

- `NnetFile.Rows`: the rows that are still to be read.
- `NnetFile.parse`: reads the contents of a weight file.
-/

namespace PiecewiseNet.NnetFile

open Text

variable {α : Type}

/-- The fields of a line; an empty field behind the last comma is none. -/
def rowFields (line : List Char) : List (List Char) :=
  let fs := (fields ',' line).map trim
  if fs.getLast?.any List.isEmpty then fs.dropLast else fs

/-- The line is blank or starts with two slashes. -/
def isRemark (line : List Char) : Bool :=
  match line with
  | [] => true
  | '/' :: '/' :: _ => true
  | _ => false

/-- The rows among the lines from number `n` on, each with its number. -/
def rowsFrom : Nat → List (List Char) → List (Nat × List (List Char))
  | _, [] => []
  | n, line :: rest =>
    if isRemark (trim line) then rowsFrom (n + 1) rest
    else (n, rowFields (trim line)) :: rowsFrom (n + 1) rest

/-- The rows that are still to be read, each with the number of its line. -/
structure Rows where
  /-- The number of the line read last. -/
  line : Nat := 0
  /-- The rows ahead. -/
  ahead : List (Nat × List (List Char))

/-- The rows of a text. -/
def Rows.ofText (text : List Char) : Rows :=
  { ahead := rowsFrom 1 (lines text) }

/-- Readings of rows. -/
abbrev Reading (α β : Type) := StateT Rows (Except (FileError α)) β

/-- Reports a fault in the row read last. -/
def fault {β : Type} (f : NnetFault) : Reading α β := do
  throw (.nnetLine (← get).line f)

/-- The fields of the next row. -/
def nextRow (item : NnetItem) : Reading α (List (List Char)) := do
  let rows ← get
  match rows.ahead with
  | [] => throw (.nnetLine (rows.line + 1) (.endOfFile item))
  | (n, fs) :: rest =>
    set ({ line := n, ahead := rest } : Rows)
    return fs

/-- The values of fields, by a reader of one field. -/
def readFields {β : Type} (read : List Char → Except NumeralError β)
    (bad : List Char → NumeralError → NnetFault) : List (List Char) → Reading α (List β)
  | [] => pure []
  | f :: fs =>
    match read f with
    | .error cause => fault (bad f cause)
    | .ok v => do
      let vs ← readFields read bad fs
      return v :: vs

/-- The values of the next row, at least `least` of them. -/
def valueRow {β : Type} (item : NnetItem) (least : Nat) (read : List Char → Except NumeralError β)
    (bad : List Char → NumeralError → NnetFault) : Reading α (List β) := do
  let fs ← nextRow item
  if fs.length < least then
    fault (.tooFew item least fs.length)
  else
    readFields read bad fs

/-- The scalars of the next row, at least `least` of them. -/
def scalarRow [Numeral α] (item : NnetItem) (least : Nat) : Reading α (List α) :=
  valueRow item least Numeral.read (.badNumber item)

/-- The indices of the next row, at least `least` of them. -/
def indexRow (item : NnetItem) (least : Nat) : Reading α (List Nat) :=
  valueRow item least (readNat indexLimit) (.badInteger item)

/-- The next `count` weight rows, of which the first `columns` values count. -/
def weightRows [Numeral α] (columns : Nat) : Nat → Reading α (List (List α))
  | 0 => pure []
  | count + 1 => do
    let row ← scalarRow .weightRow columns
    let rest ← weightRows columns count
    return row.take columns :: rest

/-- The next `count` biases, of which the first value of each row counts. -/
def biasRows [Numeral α] : Nat → Reading α (List α)
  | 0 => pure []
  | count + 1 => do
    let row ← scalarRow .bias 1
    let rest ← biasRows count
    return row.take 1 ++ rest

/-- The weight rows and biases of the layers whose sizes are given, the layer before them first. -/
def layerRows [Numeral α] : List Nat → Reading α (List (List (List α) × List α))
  | columns :: size :: sizes => do
    let w ← weightRows columns size
    let b ← biasRows size
    let rest ← layerRows (size :: sizes)
    return (w, b) :: rest
  | _ => pure []

/-- The contents of a weight file. -/
def readFile [Numeral α] : Reading α (NnetFile α) := do
  match ← indexRow .header 2 with
  | layerCount :: inputSize :: _ =>
    if indexLimit ≤ layerCount then
      fault .tooManyLayers
    else
      let sizes ← indexRow .layerSizes (layerCount + 1)
      if sizes.length ≠ layerCount + 1 then
        fault (.sizeCount (layerCount + 1) sizes.length)
      else if sizes.head? ≠ some inputSize then
        fault (.inputSize (sizes.headD 0) inputSize)
      else
        -- The flag row has to be there, whatever it says.
        let _ ← nextRow .symmetricFlag
        let minimums ← scalarRow .inputMinimums inputSize
        let maximums ← scalarRow .inputMaximums inputSize
        let means ← scalarRow .means inputSize
        let ranges ← scalarRow .ranges inputSize
        let layers ← layerRows sizes
        return { layerSizes := sizes, minimums, maximums, means, ranges,
                 weights := layers.map (·.1), biases := layers.map (·.2) }
  | row => fault (.tooFew .header 2 row.length)

/-- Reads the contents of a weight file. -/
def parse [Numeral α] (text : String) : Except (FileError α) (NnetFile α) :=
  (·.1) <$> readFile.run (Rows.ofText text.toList)

/-- Reads a weight file and builds its network. A text that is no weight file leaves the session
alone. -/
def importText [Scalar α] [Numeral α] (text : String) (s : Session α) :
    Except (FileError α) Network × Session α :=
  match parse text with
  | .error e => (.error e, s)
  | .ok f => f.build s

end PiecewiseNet.NnetFile
