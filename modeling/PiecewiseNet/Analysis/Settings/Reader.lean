import PiecewiseNet.Analysis.Settings
import PiecewiseNet.Toml.Reader

/-!
# Reading settings

Settings are read from a text of entries. An entry that is absent leaves the standard, and an entry
that no setting is named for is passed over.

## Main definitions

- `ClipRange.ofValue?`: the range that a value stands for.
- `Settings.ofEntries?`: the settings that entries stand for.
- `Settings.parse`: reads and validates settings.
-/

namespace PiecewiseNet

open Toml

/-- The range that a value stands for: a table with the names of the fields or a list in their
order. A date or time stands for the whole network, since it has none of the fields. -/
def ClipRange.ofValue? : Value → Option ClipRange
  | .table _ entries => do
    let firstLayer ← entryD entries "first_layer" Value.index? 0
    let firstCut ← entryD entries "first_cut" Value.index? 0
    let lastLayer ← entryD entries "last_layer" (some <$> Value.index? ·) none
    let lastCut ← entryD entries "last_cut" Value.index? 0
    return { firstLayer, firstCut, lastLayer, lastCut }
  | .list elements => do
    let firstLayer ← elementD elements 0 Value.index? 0
    let firstCut ← elementD elements 1 Value.index? 0
    let lastLayer ← elementD elements 2 (some <$> Value.index? ·) none
    let lastCut ← elementD elements 3 Value.index? 0
    return { firstLayer, firstCut, lastLayer, lastCut }
  | .moment => some {}
  | _ => none

namespace Settings

/-- The settings that entries stand for. -/
def ofEntries? (entries : Entries) : Option (Settings Float) := do
  let base : Settings Float := standard
  let margin ← entryD entries "epsilon" Value.float? base.margin
  let strictStateCheck ← entryD entries "strict_state_check" Value.boolean? base.strictStateCheck
  let clip ← entryD entries "clip" (some <$> ClipRange.ofValue? ·) base.clip
  let duplicateSuffix ← entryD entries "duplicate_suffix" Value.text? base.duplicateSuffix
  let modifiedSuffix ← entryD entries "modified_suffix" Value.text? base.modifiedSuffix
  return { margin, strictStateCheck, clip, duplicateSuffix, modifiedSuffix }

/-- Reads and validates settings. -/
def parse (text : String) : Except (AnalysisError Float) (Settings Float) :=
  match Toml.parse text >>= ofEntries? with
  | none => .error (.settings .unreadable)
  | some s =>
    match s.validate with
    | .error e => .error e
    | .ok () => .ok s

end Settings

end PiecewiseNet
