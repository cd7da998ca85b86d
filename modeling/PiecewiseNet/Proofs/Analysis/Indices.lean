import PiecewiseNet.Proofs.Analysis.AcceptedOverrides
import PiecewiseNet.Proofs.Analysis.Independence
import PiecewiseNet.Proofs.Network.Indices
import PiecewiseNet.Proofs.Network.Refusals

/-!
# Indices of calls

The overrides and the range of a call name layers and neurons by any indices at all. Whatever they
are, a call about a network that passed its check ends in a result or is refused with a reason, and
every index on the way is in range. There are two exceptions: in the check of an override, and in
the check that a range reaches the output layer, the index behind a given one is asked for before
anything has bounded it. For the last index of all there is none.

## Main definitions

- `RedundancyTest.relativeOverridesChecked`: renumbering with every step checked.
- `RedundancyTest.OverridesOverflow`, `RedundancyTest.RangeOverflows`: the two places.
- `RedundancyTest.Call.Overflows`: the calls that come to one of them.

## Main statements

- `RedundancyTest.relativeOverridesChecked_eq`: the checks change nothing.
- `RedundancyTest.relativeOverrides_misuse_iff`: the overrides whose check comes to the first place.
- `RedundancyTest.misuse_iff_overflows`: no other call finds a promise broken.
-/

namespace PiecewiseNet

open Text

variable {α : Type}

namespace RedundancyTest

section

variable {net : Network} {range : ClipRange} {os : List NeuronOverride} {o : NeuronOverride}
  {relative : Overrides} {t : RedundancyTest α} {m : Misuse}

/-! ## Renumbering -/

/-- Checks overrides one after the other and adds them to those checked, numbered from the first
kept layer. -/
def addOverridesChecked (net : Network) (range : ClipRange) :
    List NeuronOverride → Overrides → Except (AnalysisError α) Overrides
  | [], relative => .ok relative
  | o :: os, relative =>
    match overrideFault? net range o with
    | .error e => .error e
    | .ok (some fault) => .error (.badOverride o.layer o.neuron fault)
    | .ok none =>
      match indexDifference o.layer range.firstLayer with
      | .error e => .error (.graph e)
      | .ok layer =>
        if relative.contains (layer, o.neuron) then
          .error (.badOverride o.layer o.neuron .twice)
        else
          addOverridesChecked net range os (relative.insert (layer, o.neuron) o.kind)

/-- The overrides, checked against the network and the range and numbered from the first kept
layer. -/
def relativeOverridesChecked (t : RedundancyTest α) (overrides : List NeuronOverride)
    (range : ClipRange) : Except (AnalysisError α) Overrides :=
  addOverridesChecked t.network range overrides OrderedMap.empty

theorem addOverridesChecked_eq :
    addOverridesChecked (α := α) net range os relative = addOverrides net range os relative := by
  induction os generalizing relative with
  | nil => rfl
  | cons o os ih =>
    unfold addOverridesChecked addOverrides
    cases hfault : overrideFault? (α := α) net range o with
    | error e => rfl
    | ok fault =>
      cases fault with
      | some fault => rfl
      | none =>
        obtain ⟨-, -, hfirst, -⟩ := place_of_overrideFault? hfault
        simp only [indexDifference_of_le hfirst, ih]

/-- With every step checked, renumbering does the same. -/
theorem relativeOverridesChecked_eq (t : RedundancyTest α) (os : List NeuronOverride)
    (range : ClipRange) : t.relativeOverridesChecked os range = t.relativeOverrides os range :=
  addOverridesChecked_eq

/-! ## The last index of all -/

/-- The index behind the layer of an override is asked for before the layer is compared with
anything. -/
theorem overrideFault?_of_le (h : indexLimit ≤ o.layer) :
    overrideFault? (α := α) net range o = .error (.graph (.misuse .indexOverflow)) := by
  have hpos : o.layer ≠ 0 := fun hzero => absurd (hzero ▸ h) (by decide)
  unfold overrideFault?
  rw [if_neg hpos, nextIndex_of_le h]

theorem exists_overrideFault? (net : Network) (range : ClipRange) (h : o.layer < indexLimit) :
    ∃ fault, overrideFault? (α := α) net range o = .ok fault := by
  unfold overrideFault?
  dsimp only
  split
  · exact ⟨_, rfl⟩
  · rw [nextIndex_of_lt h]
    exact ⟨_, rfl⟩

/-- An override that has a layer behind its own is refused or added. -/
theorem addOverrides_cons_cases (net : Network) (range : ClipRange) (h : o.layer < indexLimit)
    (relative : Overrides) :
    (∃ fault, ∀ os, addOverrides (α := α) net range (o :: os) relative =
      .error (.badOverride o.layer o.neuron fault)) ∨
      ∃ relative', ∀ os, addOverrides (α := α) net range (o :: os) relative =
        addOverrides net range os relative' := by
  obtain ⟨fault, hfault⟩ := exists_overrideFault? (α := α) net range h
  cases fault with
  | some fault => exact .inl ⟨fault, fun os => by simp only [addOverrides, hfault]⟩
  | none =>
    by_cases hkey : relative.contains (o.layer - range.firstLayer, o.neuron) = true
    · exact .inl ⟨.twice, fun os => by simp only [addOverrides, hfault, if_pos hkey]⟩
    · refine .inr ⟨relative.insert (o.layer - range.firstLayer, o.neuron) o.kind, fun os => ?_⟩
      simp only [addOverrides, hfault, if_neg hkey]

/-- Checking overrides finds a promise broken when those before one are accepted, and there is no
index behind its layer. -/
theorem addOverrides_misuse_iff :
    addOverrides (α := α) net range os relative = .error (.graph (.misuse m)) ↔
      m = .indexOverflow ∧ ∃ pre o post, os = pre ++ o :: post ∧ indexLimit ≤ o.layer ∧
        ∃ ov, addOverrides (α := α) net range pre relative = .ok ov := by
  induction os generalizing relative with
  | nil => simp [addOverrides]
  | cons o os ih =>
    by_cases hlimit : indexLimit ≤ o.layer
    · have herror : addOverrides (α := α) net range (o :: os) relative =
          .error (.graph (.misuse .indexOverflow)) := by
        unfold addOverrides
        rw [overrideFault?_of_le hlimit]
      rw [herror]
      constructor
      · intro h
        cases h
        exact ⟨rfl, [], o, os, rfl, hlimit, relative, rfl⟩
      · rintro ⟨rfl, -⟩
        rfl
    · rcases addOverrides_cons_cases (α := α) net range (Nat.not_le.1 hlimit) relative with
        ⟨fault, hall⟩ | ⟨relative', hall⟩
      · rw [hall]
        constructor
        · intro h
          cases h
        · rintro ⟨-, pre, o', post, heq, hlimit', ov, hov⟩
          rcases List.cons_eq_append_iff.1 heq with ⟨rfl, hrest⟩ | ⟨pre, rfl, -⟩
          · cases hrest
            exact absurd hlimit' hlimit
          · rw [hall] at hov
            cases hov
      · rw [hall, ih]
        refine and_congr_right fun _ => ?_
        constructor
        · rintro ⟨pre, o', post, rfl, hlimit', ov, hov⟩
          exact ⟨o :: pre, o', post, rfl, hlimit', ov, (hall pre).trans hov⟩
        · rintro ⟨pre, o', post, heq, hlimit', ov, hov⟩
          rcases List.cons_eq_append_iff.1 heq with ⟨rfl, hrest⟩ | ⟨pre, rfl, hrest⟩
          · cases hrest
            exact absurd hlimit' hlimit
          · exact ⟨pre, o', post, hrest, hlimit', ov, (hall pre).symm.trans hov⟩

/-- The overrides are checked in order, and one that names the last index of all is come to before
any other fault: those before it name distinct neurons of hidden layers of the range. -/
def OverridesOverflow (t : RedundancyTest α) (os : List NeuronOverride) (range : ClipRange) :
    Prop :=
  ∃ pre o post, os = pre ++ o :: post ∧ indexLimit ≤ o.layer ∧
    (∀ o' ∈ pre, o'.Fits t.network range) ∧ (pre.map NeuronOverride.place).Nodup

/-- The range names the last index of all as its last layer. -/
def RangeOverflows (t : RedundancyTest α) (range : ClipRange) : Prop :=
  indexLimit ≤ range.resolveLast t.network.layerCount

/-- The range ends at the output layer, cut behind its first nodes. -/
def EndsAtOutput (t : RedundancyTest α) (range : ClipRange) : Prop :=
  range.resolveLast t.network.layerCount + 1 = t.network.layerCount ∧ range.lastCut = 0

theorem relativeOverrides_misuse_iff (hcount : t.network.layerCount ≤ indexLimit) :
    t.relativeOverrides os range = .error (.graph (.misuse m)) ↔
      m = .indexOverflow ∧ t.OverridesOverflow os range := by
  have haccepted : ∀ pre,
      (∃ ov, addOverrides (α := α) t.network range pre OrderedMap.empty = .ok ov) ↔
        (∀ o' ∈ pre, o'.Fits t.network range) ∧ (pre.map NeuronOverride.place).Nodup :=
    fun pre => exists_relativeOverrides_iff hcount
  rw [relativeOverrides, addOverrides_misuse_iff]
  simp only [haccepted, OverridesOverflow]

theorem requireOutputRange_eq_ok_iff (hcount : t.network.layerCount ≤ indexLimit) :
    t.requireOutputRange range = .ok () ↔ t.EndsAtOutput range := by
  unfold requireOutputRange ClipRange.reachesOutput EndsAtOutput
  by_cases h : indexLimit ≤ range.resolveLast t.network.layerCount
  · rw [nextIndex_of_le h]
    constructor
    · intro h
      cases h
    · rintro ⟨hend, -⟩
      omega
  · rw [nextIndex_of_lt (Nat.not_le.1 h)]
    dsimp only
    split <;> simp_all

theorem requireOutputRange_misuse_iff :
    t.requireOutputRange range = .error (.graph (.misuse m)) ↔
      m = .indexOverflow ∧ t.RangeOverflows range := by
  unfold requireOutputRange ClipRange.reachesOutput RangeOverflows
  by_cases h : indexLimit ≤ range.resolveLast t.network.layerCount
  · rw [nextIndex_of_le h]
    simp [h, eq_comm]
  · rw [nextIndex_of_lt (Nat.not_le.1 h)]
    dsimp only
    simp only [h, and_false, iff_false]
    split
    · rename_i herror
      cases herror
    · intro h
      cases h
    · intro h
      cases h

end

/-! ## Calls -/

section

variable [Scalar α] {t : RedundancyTest α} {a b : Arena α} {m : Misuse}
  {os : List NeuronOverride} {range : Option ClipRange}

/-- The call comes to an index that has no index behind it. A call that compares winners, or asks
for a phase, looks at its range first. -/
def Call.Overflows (t : RedundancyTest α) : Call → Prop
  | modified os range => t.OverridesOverflow os (t.resolveRange range)
  | modifiedPair os range => t.OverridesOverflow os (t.resolveRange range)
  | comparedExact os _ _ range => t.OverridesOverflow os (t.resolveRange range)
  | comparedMinimum os _ _ range =>
    t.RangeOverflows (t.resolveRange range) ∨
      t.EndsAtOutput (t.resolveRange range) ∧ t.OverridesOverflow os (t.resolveRange range)
  | joined os range => t.OverridesOverflow os (t.resolveRange range)
  | stateCheck _ _ _ range => t.RangeOverflows (t.resolveRange range)

omit [Scalar α] in
/-- On behalf of a test as well, an orderly change does not find a promise broken. -/
theorem not_fails_ofGraph {β : Type} {e : Edit (GraphError α) α β} {Q : β → Arena α → Prop}
    (h : e.Orderly a Q) : ¬(ofGraph e).Fails a (.graph (.misuse m)) b := by
  intro hfails
  obtain ⟨cause, hcause, heq⟩ := Edit.fails_adapt.1 hfails
  cases heq
  exact h.fails m b hcause

omit [Scalar α] in
/-- Returning what was made does not fail. -/
theorem fails_return_iff {β γ : Type} (e : Edit (AnalysisError α) α β) (f : β → γ)
    {err : AnalysisError α} : Edit.Fails (do return f (← e)) a err b ↔ e.Fails a err b :=
  Edit.fails_bind_iff fun _ _ _ => Edit.not_fails_pure

section

variable (hnet : t.network.WellFormed a) (hcount : t.network.layerCount ≤ indexLimit)
include hnet hcount

/-- Preparing copies finds a promise broken only when the overrides are checked, before anything is
changed. -/
theorem prepare_fails_iff : (t.prepare os range).Fails a (.graph (.misuse m)) b ↔
    m = .indexOverflow ∧ b = a ∧ t.OverridesOverflow os (t.resolveRange range) := by
  have hchecked : (Edit.ofExcept (t.relativeOverrides os (t.resolveRange range))).Fails a
      (.graph (.misuse m)) b ↔
        m = .indexOverflow ∧ b = a ∧ t.OverridesOverflow os (t.resolveRange range) := by
    rw [Edit.fails_ofExcept, relativeOverrides_misuse_iff hcount]
    tauto
  unfold prepare
  refine (Edit.fails_bind_iff fun relative a' hrelative => ?_).trans hchecked
  obtain ⟨-, rfl⟩ := Edit.yields_ofExcept.1 hrelative
  refine (Edit.fails_bind_iff fun base b₁ hbase => ?_).not.2
    (not_fails_ofGraph (Network.orderly_duplicateAndClip hnet _ _))
  obtain ⟨-, -, -, hgrows, -⟩ := Network.duplicateAndClip_yields (Edit.yields_adapt.1 hbase) hnet
  have hclipped := Network.orderly_duplicateAndClip (hgrows.wellFormed hnet)
    (t.resolveRange range) t.settings.modifiedSuffix
  refine (Edit.fails_bind_iff fun copy b₂ hcopy => ?_).not.2 (not_fails_ofGraph hclipped)
  have hwell := (hclipped.yields copy b₂ (Edit.yields_adapt.1 hcopy)).2
  exact (fails_return_iff _ _).not.2 (not_fails_ofGraph (Network.orderly_override hwell relative))

theorem modifiedPair_fails_iff : (t.modifiedPair os range).Fails a (.graph (.misuse m)) b ↔
    m = .indexOverflow ∧ b = a ∧ t.OverridesOverflow os (t.resolveRange range) :=
  (fails_return_iff (t.prepare os range) fun r => (r.1, r.2.1)).trans
    (prepare_fails_iff hnet hcount)

theorem modified_fails_iff : (t.modified os range).Fails a (.graph (.misuse m)) b ↔
    m = .indexOverflow ∧ b = a ∧ t.OverridesOverflow os (t.resolveRange range) :=
  (fails_return_iff (t.modifiedPair os range) Prod.snd).trans (modifiedPair_fails_iff hnet hcount)

/-- A query about prepared copies finds no promise broken that preparing them does not. -/
theorem query_fails_iff (query : Network → Network → Overrides → Edit (GraphError α) α (Query α))
    (horderly : ∀ base altered ov b, base.WellFormed b → altered.WellFormed b →
      (query base altered ov).Orderly b fun _ _ => True) :
    Edit.Fails (do
        let (base, altered, relative) ← t.prepare os range
        ofGraph (query base altered relative)) a (.graph (.misuse m)) b ↔
      m = .indexOverflow ∧ b = a ∧ t.OverridesOverflow os (t.resolveRange range) := by
  refine (Edit.fails_bind_iff ?_).trans (prepare_fails_iff hnet hcount)
  rintro ⟨base, altered, ov⟩ c hprepare
  obtain ⟨hbase, haltered⟩ := wellFormed_of_prepare hnet hprepare
  exact not_fails_ofGraph (horderly base altered ov c hbase haltered)

theorem comparedMinimum_fails_iff {index counter : Nat} :
    (t.comparedMinimum os index counter range).Fails a (.graph (.misuse m)) b ↔
      m = .indexOverflow ∧ b = a ∧ (t.RangeOverflows (t.resolveRange range) ∨
        t.EndsAtOutput (t.resolveRange range) ∧
          t.OverridesOverflow os (t.resolveRange range)) := by
  have hquery : Edit.Fails (do
        let (base, altered, relative) ← t.prepare os range
        ofGraph (compareMinimum base altered relative index counter t.settings.margin)) a
          (.graph (.misuse m)) b ↔
      m = .indexOverflow ∧ b = a ∧ t.OverridesOverflow os (t.resolveRange range) :=
    query_fails_iff hnet hcount
      (fun base altered ov => compareMinimum base altered ov index counter t.settings.margin)
      fun _ _ _ _ hbase haltered => orderly_compareMinimum hbase haltered index counter _
  unfold comparedMinimum
  rw [Edit.fails_bind, Edit.fails_ofExcept, requireOutputRange_misuse_iff]
  constructor
  · rintro (⟨⟨hm, hover⟩, hb⟩ | ⟨_, a', hok, hfails⟩)
    · exact ⟨hm, hb, .inl hover⟩
    · obtain ⟨hpassed, rfl⟩ := Edit.yields_ofExcept.1 hok
      obtain ⟨hm, hb, hover⟩ := hquery.1 hfails
      exact ⟨hm, hb, .inr ⟨(requireOutputRange_eq_ok_iff hcount).1 hpassed, hover⟩⟩
  · rintro ⟨hm, hb, hover | ⟨hend, hover⟩⟩
    · exact .inl ⟨⟨hm, hover⟩, hb⟩
    · have hok := (requireOutputRange_eq_ok_iff hcount).2 hend
      exact .inr ⟨(), a, Edit.yields_ofExcept.2 ⟨hok, rfl⟩, hquery.2 ⟨hm, hb, hover⟩⟩

omit hcount in
theorem stateCheck_fails_iff {layer neuron : Nat} {phase : Phase} :
    (t.stateCheck layer neuron phase range).Fails a (.graph (.misuse m)) b ↔
      m = .indexOverflow ∧ b = a ∧ t.RangeOverflows (t.resolveRange range) := by
  have hchecked : (Edit.ofExcept (t.requireOutputRange (t.resolveRange range))).Fails a
      (.graph (.misuse m)) b ↔
        m = .indexOverflow ∧ b = a ∧ t.RangeOverflows (t.resolveRange range) := by
    rw [Edit.fails_ofExcept, requireOutputRange_misuse_iff]
    tauto
  unfold stateCheck
  refine (Edit.fails_bind_iff fun _ a' hok => ?_).trans hchecked
  obtain ⟨-, rfl⟩ := Edit.yields_ofExcept.1 hok
  have hclipped := Network.orderly_duplicateAndClip hnet
    { t.resolveRange range with lastLayer := some layer, lastCut := 0 } t.settings.duplicateSuffix
  refine (Edit.fails_bind_iff fun clipped c hclip => ?_).not.2 (not_fails_ofGraph hclipped)
  have hwell := (hclipped.yields clipped c (Edit.yields_adapt.1 hclip)).2
  exact not_fails_ofGraph (.reading (orderly_stateCheck hwell neuron phase _ _))

end

/-- Whatever indices a call names: with every step of index arithmetic checked, clipping and
renumbering do the same, and a call about a network that passed its check finds a promise broken
exactly when it comes to an index that has no index behind it. Nothing is changed then. -/
theorem misuse_iff_overflows (hnet : t.network.Accepted a) (hsize : t.network.Addressable) :
    (∀ r, t.network.clipChecked (α := α) r = t.network.clip r) ∧
      (∀ r suffix, t.network.duplicateAndClipChecked (α := α) r suffix =
        t.network.duplicateAndClip r suffix) ∧
      (∀ os r, t.relativeOverridesChecked os r = t.relativeOverrides os r) ∧
      ∀ (c : Call) m b, (c.run t).Fails a (.graph (.misuse m)) b ↔
        m = .indexOverflow ∧ b = a ∧ c.Overflows t := by
  have hwell := Network.accepted_iff.1 hnet
  refine ⟨hsize.clipChecked_eq, hsize.duplicateAndClipChecked_eq, t.relativeOverridesChecked_eq, ?_⟩
  intro c m b
  cases c with
  | modified os range =>
    exact (fails_return_iff (t.modified os range) Outcome.network).trans
      (modified_fails_iff hwell hsize.layers)
  | modifiedPair os range =>
    exact (fails_return_iff (t.modifiedPair os range) fun r => Outcome.pair r.1 r.2).trans
      (modifiedPair_fails_iff hwell hsize.layers)
  | comparedExact os d index range =>
    refine (fails_return_iff (t.comparedExact os d index range) Outcome.query).trans ?_
    exact query_fails_iff hwell hsize.layers
      (fun base altered ov => compareExact base altered ov d index t.settings.margin)
      fun _ _ _ _ hbase haltered => orderly_compareExact hbase haltered d index _
  | comparedMinimum os index counter range =>
    exact (fails_return_iff (t.comparedMinimum os index counter range) Outcome.query).trans
      (comparedMinimum_fails_iff hwell hsize.layers)
  | joined os range =>
    refine (fails_return_iff (t.joined os range) Outcome.query).trans ?_
    exact query_fails_iff hwell hsize.layers joinedQuery
      fun _ _ _ _ hbase haltered => orderly_joinedQuery hbase haltered
  | stateCheck layer neuron phase range =>
    exact (fails_return_iff (t.stateCheck layer neuron phase range) Outcome.query).trans
      (stateCheck_fails_iff hwell)

end

/-- No call about the sample finds a promise broken but for the last index of all. -/
theorem misuse_iff_overflows_sample :
    Network.sample.Accepted Arena.sample ∧ Network.sample.Addressable ∧
      (∀ r, Network.sample.clipChecked (α := Rat) r = Network.sample.clip r) ∧
      (∀ r suffix, Network.sample.duplicateAndClipChecked (α := Rat) r suffix =
        Network.sample.duplicateAndClip r suffix) ∧
      (∀ os r, sample.relativeOverridesChecked os r = sample.relativeOverrides os r) ∧
      ∀ (c : Call) m b, (c.run sample).Fails Arena.sample (.graph (.misuse m)) b ↔
        m = .indexOverflow ∧ b = Arena.sample ∧ c.Overflows sample := by
  have haccepted : Network.sample.Accepted Arena.sample := by rfl
  have hsize : Network.sample.Addressable := ⟨by decide, by decide⟩
  exact ⟨haccepted, hsize, misuse_iff_overflows (t := sample) haccepted hsize⟩

/-- The last index of all can be written in an override and given in a range. A call then ends in a
computation that leaves the range of indices. -/
theorem last_index_overflows :
    NeuronOverride.parse (α := Rat) "18446744073709551615:0:active" =
        .ok ⟨indexLimit, 0, .active⟩ ∧
      Network.sample.Accepted Arena.sample ∧
      (sample.modified [⟨indexLimit, 0, .active⟩] none).Fails Arena.sample
        (.graph (.misuse .indexOverflow)) Arena.sample ∧
      (sample.comparedMinimum [⟨1, 0, .active⟩] 0 1 (some { lastLayer := some indexLimit })).Fails
        Arena.sample (.graph (.misuse .indexOverflow)) Arena.sample ∧
      (sample.stateCheck 1 0 .active (some { lastLayer := some indexLimit })).Fails Arena.sample
        (.graph (.misuse .indexOverflow)) Arena.sample := by
  refine ⟨by rfl, by rfl, by rfl, by rfl, by rfl⟩

end RedundancyTest

end PiecewiseNet
