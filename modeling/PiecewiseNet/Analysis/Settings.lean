import PiecewiseNet.Analysis.Error
import PiecewiseNet.Clip

/-!
# Settings of the analysis

## Main definitions

- `Settings`: the margin, the mode of state checks, a range and the label suffixes.
- `Settings.validate`: refuses a margin that is negative or not finite and suffixes that agree.
-/

namespace PiecewiseNet

/-- What all queries of an analysis share. -/
structure Settings (α : Type) where
  /-- The margin by which compared values must differ. -/
  margin : α
  /-- State checks prove the claim they check. -/
  strictStateCheck : Bool
  /-- The range that is used where a call gives none. -/
  clip : Option ClipRange
  /-- The label suffix of the working copy of the base network. -/
  duplicateSuffix : String
  /-- The label suffix of the working copy that is overridden. -/
  modifiedSuffix : String
deriving DecidableEq, Repr

namespace Settings

variable {α : Type} [Scalar α]

/-- The settings where nothing is said. -/
def standard : Settings α where
  margin := 1e-4
  strictStateCheck := false
  clip := none
  duplicateSuffix := "_dup"
  modifiedSuffix := "_mod"

/-- Refuses a margin that is negative or not finite and suffixes that agree. -/
def validate (s : Settings α) : Except (AnalysisError α) Unit :=
  if !Scalar.isFinite s.margin || decide (s.margin < 0) then
    .error (.settings (.badMargin s.margin))
  else if s.duplicateSuffix = s.modifiedSuffix then
    .error (.settings (.sameSuffix s.modifiedSuffix))
  else
    .ok ()

end Settings

end PiecewiseNet
