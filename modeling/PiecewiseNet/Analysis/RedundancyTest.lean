import PiecewiseNet.Analysis.NeuronOverride
import PiecewiseNet.Analysis.Settings
import PiecewiseNet.StateCheck

/-!
# Redundancy tests

A redundancy test builds queries about one network. Every call works on fresh copies, so the
network can be asked about any number of times. Overrides name neurons by their place in the whole
network.

## Main definitions

- `RedundancyTest`: a network and settings.
- `RedundancyTest.relativeOverrides`: the overrides, checked and numbered from the first kept layer.
- `RedundancyTest.prepare`: two clipped copies, the second one overridden.
- `RedundancyTest.comparedExact`, `RedundancyTest.comparedMinimum`, `RedundancyTest.joined`,
  `RedundancyTest.stateCheck`: the queries.
-/

namespace PiecewiseNet

/-- A network to be asked about, with the settings of its queries. -/
structure RedundancyTest (α : Type) where
  network : Network
  settings : Settings α

namespace RedundancyTest

variable {α : Type} [Scalar α]

/-- A test with standard settings but for the margin. -/
def ofMargin (network : Network) (margin : α) : RedundancyTest α :=
  { network, settings := { (Settings.standard : Settings α) with margin } }

/-- A test with valid settings. -/
def ofSettings (network : Network) (settings : Settings α) :
    Except (AnalysisError α) (RedundancyTest α) :=
  match settings.validate with
  | .error e => .error e
  | .ok () => .ok { network, settings }

/-- The range of a call, else that of the settings, else the whole network. -/
def resolveRange (t : RedundancyTest α) (range : Option ClipRange) : ClipRange :=
  (range.or t.settings.clip).getD {}

/-- A change to the arena on behalf of a test. -/
def ofGraph {β : Type} (e : Edit (GraphError α) α β) : Edit (AnalysisError α) α β :=
  ExceptT.adapt AnalysisError.graph e

/-- The fault of an override with respect to a network and a range, if it has one. -/
def overrideFault? (net : Network) (range : ClipRange) (o : NeuronOverride) :
    Except (AnalysisError α) (Option OverrideFault) :=
  let last := range.resolveLast net.layerCount
  let inRange : Option OverrideFault :=
    if o.layer < range.firstLayer ∨ last < o.layer then
      some (.outsideRange range.firstLayer last)
    else if net.layerSize o.layer ≤ o.neuron then
      some (.noNeuron (net.layerSize o.layer))
    else
      none
  if o.layer = 0 then
    .ok (some (.notHidden (net.layerCount - 1)))
  else
    match nextIndex o.layer with
    | .error e => .error (.graph e)
    | .ok next =>
      .ok (if net.layerCount ≤ next then some (.notHidden (net.layerCount - 1)) else inRange)

/-- Checks overrides one after the other and adds them to those checked, numbered from the first
kept layer. -/
def addOverrides (net : Network) (range : ClipRange) :
    List NeuronOverride → Overrides → Except (AnalysisError α) Overrides
  | [], relative => .ok relative
  | o :: os, relative =>
    match overrideFault? net range o with
    | .error e => .error e
    | .ok (some fault) => .error (.badOverride o.layer o.neuron fault)
    | .ok none =>
      let key := (o.layer - range.firstLayer, o.neuron)
      if relative.contains key then
        .error (.badOverride o.layer o.neuron .twice)
      else
        addOverrides net range os (relative.insert key o.kind)

/-- The overrides, checked against the network and the range and numbered from the first kept
layer. -/
def relativeOverrides (t : RedundancyTest α) (overrides : List NeuronOverride)
    (range : ClipRange) : Except (AnalysisError α) Overrides :=
  addOverrides t.network range overrides OrderedMap.empty

/-- Two clipped copies, the second one overridden. -/
def prepare (t : RedundancyTest α) (overrides : List NeuronOverride) (range : Option ClipRange) :
    Edit (AnalysisError α) α (Network × Network × Overrides) := do
  let range := t.resolveRange range
  let relative ← Edit.ofExcept (t.relativeOverrides overrides range)
  let base ← ofGraph (t.network.duplicateAndClip range t.settings.duplicateSuffix)
  let copy ← ofGraph (t.network.duplicateAndClip range t.settings.modifiedSuffix)
  let altered ← ofGraph (copy.override relative)
  return (base, altered, relative)

/-- Refuses a range that does not end at the whole output layer. -/
def requireOutputRange (t : RedundancyTest α) (range : ClipRange) :
    Except (AnalysisError α) Unit :=
  match range.reachesOutput t.network.layerCount with
  | .error e => .error (.graph e)
  | .ok true => .ok ()
  | .ok false => .error .badRange

/-- The clipped base and the clipped, overridden copy. -/
def modifiedPair (t : RedundancyTest α) (overrides : List NeuronOverride)
    (range : Option ClipRange) : Edit (AnalysisError α) α (Network × Network) := do
  let (base, altered, _) ← t.prepare overrides range
  return (base, altered)

/-- A clipped copy of the network with overrides. -/
def modified (t : RedundancyTest α) (overrides : List NeuronOverride)
    (range : Option ClipRange) : Edit (AnalysisError α) α Network := do
  let (_, altered) ← t.modifiedPair overrides range
  return altered

/-- The query for an input on which the overrides move output `index` by the margin. -/
def comparedExact (t : RedundancyTest α) (overrides : List NeuronOverride) (d : Direction)
    (index : Nat) (range : Option ClipRange) : Edit (AnalysisError α) α (Query α) := do
  let (base, altered, relative) ← t.prepare overrides range
  ofGraph (compareExact base altered relative d index t.settings.margin)

/-- The query for an input on which output `index` wins by the margin, and with the overrides loses
to output `counter` by the margin. -/
def comparedMinimum (t : RedundancyTest α) (overrides : List NeuronOverride)
    (index counter : Nat) (range : Option ClipRange) :
    Edit (AnalysisError α) α (Query α) := do
  Edit.ofExcept (t.requireOutputRange (t.resolveRange range))
  let (base, altered, relative) ← t.prepare overrides range
  ofGraph (compareMinimum base altered relative index counter t.settings.margin)

/-- The query for a run with and without the overrides. -/
def joined (t : RedundancyTest α) (overrides : List NeuronOverride) (range : Option ClipRange) :
    Edit (AnalysisError α) α (Query α) := do
  let (base, altered, relative) ← t.prepare overrides range
  ofGraph (joinedQuery base altered relative)

/-- The query for an input on which a neuron is not in the given phase. -/
def stateCheck (t : RedundancyTest α) (layer neuron : Nat) (phase : Phase)
    (range : Option ClipRange) : Edit (AnalysisError α) α (Query α) := do
  let range := t.resolveRange range
  Edit.ofExcept (t.requireOutputRange range)
  -- The neuron's layer takes the place of the output layer, cut at its pre-activations.
  let toNeuron := { range with lastLayer := some layer, lastCut := 0 }
  let clipped ← ofGraph (t.network.duplicateAndClip toNeuron t.settings.duplicateSuffix)
  ofGraph (Edit.reading (PiecewiseNet.stateCheck clipped neuron phase
    t.settings.strictStateCheck t.settings.margin))

end RedundancyTest

end PiecewiseNet
