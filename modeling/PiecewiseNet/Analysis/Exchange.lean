import PiecewiseNet.Analysis.NeuronOverride
import PiecewiseNet.Analysis.Settings
import PiecewiseNet.Comparison
import PiecewiseNet.Json.Reader
import PiecewiseNet.Json.Value
import PiecewiseNet.StateCheck

/-!
# Records as JSON

The data that an analysis takes and gives are exchanged as JSON: an enumeration as a string, a
record as an object with the fields in their order. A record is also read from an array of its
fields.

## Main definitions

- `RecordField`: readings of a field that may be absent.
- `Interval.toJson`, `Interval.ofJson?` and their like: the records.
- `recode?`: reads a record and writes it again.
-/

namespace PiecewiseNet

open Json

/-! ## Fields -/

namespace RecordField

variable {β : Type}

/-- A field that must be there. -/
def required (read : Raw → Option β) : Option Raw → Option β
  | some r => read r
  | none => none

/-- A field that has a value where it is absent. -/
def orElse (read : Raw → Option β) (standard : β) : Option Raw → Option β
  | some r => read r
  | none => some standard

/-- A field that may be absent or hold nothing. -/
def optional (read : Raw → Option β) : Option Raw → Option (Option β)
  | some r => if r.isNull then some none else some <$> read r
  | none => some none

end RecordField

open RecordField

/-- Something or nothing. -/
def Json.ofOption {β : Type} (write : β → Value) : Option β → Value
  | some v => write v
  | none => .null

/-! ## Enumerations -/

/-- The names of the comparators. -/
def Comparator.choices : List (String × Comparator) :=
  [("le", .le), ("eq", .eq), ("ge", .ge)]

/-- The names of the directions. -/
def Direction.choices : List (String × Direction) :=
  [("gt", .gt), ("lt", .lt)]

/-- The names of the phases. -/
def Phase.choices : List (String × Phase) :=
  [("active", .active), ("inactive", .inactive)]

/-- The names of the kinds of overrides. -/
def OverrideKind.choices : List (String × OverrideKind) :=
  [("active", .active), ("inactive", .inactive), ("nofunc", .nofunc)]

/-- The name of a choice as JSON. -/
def Json.ofChoice {β : Type} [BEq β] (choices : List (String × β)) (v : β) : Value :=
  match choices.find? (·.2 == v) with
  | some c => .text c.1
  | none => .null

/-! ## Records -/

/-- An interval as JSON. -/
def Interval.toJson (i : Interval Float) : Value :=
  .object [("lower", ofOption .float i.lower), ("upper", ofOption .float i.upper)]

/-- The interval that JSON stands for. -/
def Interval.ofJson? (r : Raw) : Option (Interval Float) := do
  match ← r.fields? ["lower", "upper"] false with
  | [lower, upper] =>
    return { lower := ← optional Raw.float? lower, upper := ← optional Raw.float? upper }
  | _ => none

/-- An override as JSON. -/
def NeuronOverride.toJson (o : NeuronOverride) : Value :=
  .object [("layer", .natural o.layer), ("neuron", .natural o.neuron),
    ("kind", ofChoice OverrideKind.choices o.kind)]

/-- The override that JSON stands for. -/
def NeuronOverride.ofJson? (r : Raw) : Option NeuronOverride := do
  match ← r.fields? ["layer", "neuron", "kind"] false with
  | [layer, neuron, kind] =>
    return {
      layer := ← required Raw.index? layer
      neuron := ← required Raw.index? neuron
      kind := ← required (Raw.choice? OverrideKind.choices) kind }
  | _ => none

/-- A range as JSON. -/
def ClipRange.toJson (r : ClipRange) : Value :=
  .object [("first_layer", .natural r.firstLayer), ("first_cut", .natural r.firstCut),
    ("last_layer", ofOption .natural r.lastLayer), ("last_cut", .natural r.lastCut)]

/-- The range that JSON stands for. -/
def ClipRange.ofJson? (r : Raw) : Option ClipRange := do
  match ← r.fields? ["first_layer", "first_cut", "last_layer", "last_cut"] true with
  | [firstLayer, firstCut, lastLayer, lastCut] =>
    return {
      firstLayer := ← orElse Raw.index? 0 firstLayer
      firstCut := ← orElse Raw.index? 0 firstCut
      lastLayer := ← optional Raw.index? lastLayer
      lastCut := ← orElse Raw.index? 0 lastCut }
  | _ => none

/-- Settings as JSON. -/
def Settings.toJson (s : Settings Float) : Value :=
  .object [("epsilon", .float s.margin), ("strict_state_check", .boolean s.strictStateCheck),
    ("clip", ofOption ClipRange.toJson s.clip), ("duplicate_suffix", .text s.duplicateSuffix),
    ("modified_suffix", .text s.modifiedSuffix)]

/-- The settings that JSON stands for; they are not validated. -/
def Settings.ofJson? (r : Raw) : Option (Settings Float) := do
  let base : Settings Float := standard
  match ← r.fields? ["epsilon", "strict_state_check", "clip", "duplicate_suffix",
      "modified_suffix"] true with
  | [margin, strictStateCheck, clip, duplicateSuffix, modifiedSuffix] =>
    return {
      margin := ← orElse Raw.float? base.margin margin
      strictStateCheck := ← orElse Raw.boolean? base.strictStateCheck strictStateCheck
      clip := ← optional ClipRange.ofJson? clip
      duplicateSuffix := ← orElse Raw.text? base.duplicateSuffix duplicateSuffix
      modifiedSuffix := ← orElse Raw.text? base.modifiedSuffix modifiedSuffix }
  | _ => none

/-- Reads a record and writes it again without white space. -/
def Json.recode? {β : Type} (read : Raw → Option β) (write : β → Value) (text : String) :
    Option String := do
  let r ← document? text
  let v ← read r
  return (write v).compact

end PiecewiseNet
