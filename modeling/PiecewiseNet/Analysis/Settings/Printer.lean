import PiecewiseNet.Analysis.Settings
import PiecewiseNet.Toml.Number
import PiecewiseNet.Toml.Quoted

/-!
# Writing settings

Settings are written as one entry a line; the range has a header of its own at the end.

## Main definitions

- `Toml.writeFloat`: a number that shows that it is no integer.
- `Settings.text`: the text of settings.
-/

namespace PiecewiseNet

/-- All digits of a number, with a point also where it is integral. -/
def Toml.floatStyle : Decimal.Style :=
  { Decimal.plain with pointZero := true }

/-- A number that shows that it is no integer. -/
def Toml.writeFloat (x : Float) : String :=
  if x.isNaN then "nan" else floatStyle.write x

/-- A line with an entry. -/
def Toml.entryLine (key value : String) : String :=
  key ++ " = " ++ value ++ "\n"

/-- The indices of a range are integers of 64 bits. -/
def ClipRange.isWritable (r : ClipRange) : Bool :=
  [r.firstLayer, r.firstCut, r.lastLayer.getD 0, r.lastCut].all (· ≤ Toml.integerLimit)

/-- A line with an index. -/
def Toml.indexLine (key : String) (i : Nat) : String :=
  entryLine key (toString i)

open Toml in
/-- The lines of a range. -/
def ClipRange.lines (r : ClipRange) : String :=
  let last :=
    match r.lastLayer with
    | some i => indexLine "last_layer" i
    | none => ""
  "\n[clip]\n" ++ indexLine "first_layer" r.firstLayer ++ indexLine "first_cut" r.firstCut ++
    last ++ indexLine "last_cut" r.lastCut

open Toml in
/-- The text of settings. -/
def Settings.text (s : Settings Float) : Except (AnalysisError Float) String :=
  if s.clip.all ClipRange.isWritable then
    let range :=
      match s.clip with
      | some r => r.lines
      | none => ""
    .ok (entryLine "epsilon" (writeFloat s.margin) ++
      entryLine "strict_state_check" (if s.strictStateCheck then "true" else "false") ++
      entryLine "duplicate_suffix" (quote s.duplicateSuffix) ++
      entryLine "modified_suffix" (quote s.modifiedSuffix) ++ range)
  else
    .error (.settings .unwritable)

end PiecewiseNet
