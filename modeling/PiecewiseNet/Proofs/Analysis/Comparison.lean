import PiecewiseNet.Analysis.RedundancyTest
import PiecewiseNet.Proofs.Comparison
import PiecewiseNet.Proofs.Network.Checking

/-!
# Comparisons with and without overrides

What solves the queries of a redundancy test that compare a network with an overridden copy.

## Main statements

- `RedundancyTest.prepare_yields`: what a test prepares.
- `RedundancyTest.comparedExact_solutions`: what solves the query about one output.
- `RedundancyTest.comparedMinimum_solutions`: what solves the query about an output that no longer
  wins.
-/

namespace PiecewiseNet

namespace RedundancyTest

variable {α : Type} [Scalar α] {t : RedundancyTest α} {overrides : List NeuronOverride}
  {range : Option ClipRange} {a b : Arena α}

/-- A test clips two copies one after the other and overrides the second one. -/
theorem prepare_yields {base altered : Network} {ov : Overrides} :
    (t.prepare overrides range).Yields a (base, altered, ov) b ↔
      t.relativeOverrides overrides (t.resolveRange range) = .ok ov ∧ ∃ twin b₁ b₂,
        (t.network.duplicateAndClip (t.resolveRange range) t.settings.duplicateSuffix).Yields a base
          b₁ ∧
        (t.network.duplicateAndClip (t.resolveRange range) t.settings.modifiedSuffix).Yields b₁ twin
          b₂ ∧
        (twin.override ov).Yields b₂ altered b := by
  unfold prepare ofGraph
  simp only [Edit.yields_bind, Edit.yields_ofExcept, Edit.yields_adapt, Edit.yields_pure,
    Prod.mk.injEq]
  constructor
  · rintro ⟨_, _, ⟨hov, rfl⟩, _, b₁, h₁, twin, b₂, h₂, _, _, h₃, ⟨rfl, rfl, rfl⟩, rfl⟩
    exact ⟨hov, twin, b₁, b₂, h₁, h₂, h₃⟩
  · rintro ⟨hov, twin, b₁, b₂, h₁, h₂, h₃⟩
    exact ⟨ov, a, ⟨hov, rfl⟩, base, b₁, h₁, twin, b₂, h₂, altered, b, h₃, ⟨rfl, rfl, rfl⟩, rfl⟩

/-- The two networks are what a test prepares. -/
theorem modifiedPair_yields {base altered : Network} :
    (t.modifiedPair overrides range).Yields a (base, altered) b ↔
      ∃ ov, (t.prepare overrides range).Yields a (base, altered, ov) b := by
  unfold modifiedPair
  simp only [Edit.yields_bind, Edit.yields_pure, Prod.mk.injEq]
  constructor
  · rintro ⟨⟨_, _, ov⟩, _, h, ⟨rfl, rfl⟩, rfl⟩
    exact ⟨ov, h⟩
  · rintro ⟨ov, h⟩
    exact ⟨(base, altered, ov), b, h, ⟨rfl, rfl⟩, rfl⟩

/-- The networks that a test prepares agree before the first overridden layer, and the free nodes of
the first one are its inputs. -/
theorem prepare_agrees (hnet : t.network.WellFormed a) (hfree : t.network.FreeAtInputs a)
    (hearlier : t.network.ReadsEarlier a) {base altered : Network} {ov : Overrides}
    (h : (t.prepare overrides range).Yields a (base, altered, ov) b) {boundary : Nat}
    (hmin : ∀ l n, ov.contains (l, n) = true → boundary ≤ l) :
    2 ≤ base.layerCount ∧ (∀ id ∈ base.nodes, Network.IsFree b id → id ∈ base.inputs) ∧
      ∃ g, base.AgreesBefore altered ov boundary g b := by
  obtain ⟨-, twin, b₁, b₂, hbase, htwin, hover⟩ := prepare_yields.1 h
  have hshift : ∀ k e l : Nat, k + e < k + l → e < l := fun k e l => Nat.lt_of_add_lt_add_left
  obtain ⟨-, g, -, htwins, -⟩ := Network.exists_twins hnet (Network.readsEarlier_iff.1 hearlier)
    hshift hfree hbase htwin
  obtain ⟨table, halt, hwell⟩ :=
    Network.override_yields hover htwins.wellFormed.nodup htwins.wellFormed.held
  exact ⟨htwins.layerCount_base, htwins.mem_inputs_of_isFree halt, g,
    htwins.agreesBefore (fun _ _ hlt => hlt) halt hwell hmin⟩

/-- The query about one output is solved exactly by a run of the clipped network and a run of the
clipped, overridden copy on the same inputs, each with one output neuron, whose outputs differ by
the margin in the direction. The one output neuron is the one that the query is about. -/
theorem comparedExact_solutions {t : RedundancyTest Rat} {a a' : Arena Rat}
    (hnet : t.network.Accepted a) (hfree : t.network.FreeAtInputs a)
    (hearlier : t.network.ReadsEarlier a) {d : Direction} {index : Nat} {q : Query Rat}
    (h : (t.comparedExact overrides d index range).Yields a q a') :
    ∃ base altered b part altpart c₁ c₂ o m,
      (t.modifiedPair overrides range).Yields a (base, altered) b ∧
      chainAt base.layers (base.layerCount - 1) index = some c₁ ∧ part = base.reduced c₁ ∧
      chainAt altered.layers (altered.layerCount - 1) index = some c₂ ∧
      altpart = altered.reduced c₂ ∧
      base.keepOutputs [index] b = .ok part ∧ altered.keepOutputs [index] b = .ok altpart ∧
      c₁.getLast? = some o ∧ c₂.getLast? = some m ∧
      part.output (α := Rat) 0 = .ok o ∧ altpart.output (α := Rat) 0 = .ok m ∧
      ∀ x, (∃ v, q.Solves a' v ∧ q.inputs.map v = x) ↔
        ∃ v w, part.Runs b v ∧ altpart.Runs b w ∧ part.inputs.map v = x ∧
          altpart.inputs.map w = x ∧ t.settings.margin ≤ d.gap (v o) (w m) := by
  obtain ⟨⟨base, altered, ov⟩, b, hprepare, h₁⟩ := Edit.yields_bind.1 h
  have hcompare : (compareExact base altered ov d index t.settings.margin).Yields b q a' :=
    Edit.yields_adapt.1 h₁
  obtain ⟨j, -, -, -, -, hj, -⟩ := Network.compareExact_steps hcompare
  obtain ⟨boundary, n, kind, hfirst, hlt⟩ := Network.exists_boundary hj
  obtain ⟨hcount, hinputs, g, hagrees⟩ := prepare_agrees (Network.accepted_iff.1 hnet) hfree
    hearlier hprepare fun l n hkey => Network.boundary_le hfirst hkey
  obtain ⟨c₁, c₂, o, m, hc₁, hc₂, hpart, haltpart, ho, hm, hsolves⟩ :=
    hagrees.compareExact_yields hfirst hlt hcount hinputs hcompare
  have ho' : (base.reduced c₁).output (α := Rat) 0 = .ok o :=
    (Network.output_reduced hagrees.base_wellFormed.layers_ne_nil).2 ho
  have hm' : (altered.reduced c₂).output (α := Rat) 0 = .ok m :=
    (Network.output_reduced hagrees.altered_wellFormed.layers_ne_nil).2 hm
  exact ⟨base, altered, b, _, _, c₁, c₂, o, m, modifiedPair_yields.2 ⟨ov, hprepare⟩, hc₁, rfl, hc₂,
    rfl, hpart, haltpart, ho, hm, ho', hm', hsolves⟩

/-- A test of the sample with margin one. -/
def sample : RedundancyTest Rat :=
  ofMargin Network.sample 1

/-- The query whether the sample without one rectifier puts out less by one. -/
theorem comparedExact_solutions_sample :
    ∃ q a', (sample.comparedExact [⟨1, 0, .active⟩] .gt 0 none).Yields Arena.sample q a' ∧
      ∃ base altered b part altpart c₁ c₂ o m,
        (sample.modifiedPair [⟨1, 0, .active⟩] none).Yields Arena.sample (base, altered) b ∧
        chainAt base.layers (base.layerCount - 1) 0 = some c₁ ∧ part = base.reduced c₁ ∧
        chainAt altered.layers (altered.layerCount - 1) 0 = some c₂ ∧
        altpart = altered.reduced c₂ ∧
        base.keepOutputs [0] b = .ok part ∧ altered.keepOutputs [0] b = .ok altpart ∧
        c₁.getLast? = some o ∧ c₂.getLast? = some m ∧
        part.output (α := Rat) 0 = .ok o ∧ altpart.output (α := Rat) 0 = .ok m ∧
        ∀ x, (∃ v, q.Solves a' v ∧ q.inputs.map v = x) ↔
          ∃ v w, part.Runs b v ∧ altpart.Runs b w ∧ part.inputs.map v = x ∧
            altpart.inputs.map w = x ∧ 1 ≤ Direction.gt.gap (v o) (w m) := by
  obtain ⟨q, a', h⟩ :
      ∃ q a', (sample.comparedExact [⟨1, 0, .active⟩] .gt 0 none).Yields Arena.sample q a' := by
    rw [Edit.exists_yields_iff]
    decide +kernel
  have haccepted : Network.sample.Accepted Arena.sample := by rfl
  exact ⟨q, a', h, comparedExact_solutions haccepted (by decide) (by decide) h⟩

/-- The query about two outputs is solved exactly by a run of the clipped network in which the first
one exceeds all others by the margin, and a run of the clipped, overridden copy on the same inputs
in which the second one exceeds the first one by the margin. The copy is kept with these two output
neurons, and outputs are tails of the last layer. -/
theorem comparedMinimum_solutions {t : RedundancyTest Rat} {a a' : Arena Rat}
    (hnet : t.network.Accepted a) (hfree : t.network.FreeAtInputs a)
    (hearlier : t.network.ReadsEarlier a) {index counter : Nat} {q : Query Rat}
    (h : (t.comparedMinimum overrides index counter range).Yields a q a') :
    ∃ base altered b altpart c₁ c₂ winner loser rival,
      (t.modifiedPair overrides range).Yields a (base, altered) b ∧
      chainAt altered.layers (altered.layerCount - 1) index = some c₁ ∧
      chainAt altered.layers (altered.layerCount - 1) counter = some c₂ ∧
      altpart = altered.withLast [c₁, c₂] ∧ c₁.getLast? = some loser ∧ c₂.getLast? = some rival ∧
      (∀ n id, base.output (α := Rat) n = .ok id ↔
        ∃ c, chainAt base.layers (base.layerCount - 1) n = some c ∧ c.getLast? = some id) ∧
      altered.keepOutputs [index, counter] b = .ok altpart ∧
      base.output (α := Rat) index = .ok winner ∧ altpart.output (α := Rat) 0 = .ok loser ∧
      altpart.output (α := Rat) 1 = .ok rival ∧
      ∀ x, (∃ v, q.Solves a' v ∧ q.inputs.map v = x) ↔
        ∃ v w, base.Runs b v ∧ altpart.Runs b w ∧ base.inputs.map v = x ∧
          altpart.inputs.map w = x ∧
          (∀ n id, n ≠ index → base.output (α := Rat) n = .ok id →
            t.settings.margin ≤ v winner - v id) ∧
          t.settings.margin ≤ w rival - w loser := by
  obtain ⟨_, b₀, hrange, h₀⟩ := Edit.yields_bind.1 h
  obtain ⟨-, rfl⟩ := Edit.yields_ofExcept.1 hrange
  obtain ⟨⟨base, altered, ov⟩, b, hprepare, h₁⟩ := Edit.yields_bind.1 h₀
  have hcompare : (compareMinimum base altered ov index counter t.settings.margin).Yields b q a' :=
    Edit.yields_adapt.1 h₁
  obtain ⟨j, -, -, -, -, hj, -⟩ := Network.compareMinimum_steps hcompare
  obtain ⟨boundary, n, kind, hfirst, hlt⟩ := Network.exists_boundary hj
  obtain ⟨hcount, hinputs, g, hagrees⟩ := prepare_agrees (Network.accepted_iff.1 hnet) hfree
    hearlier hprepare fun l n hkey => Network.boundary_le hfirst hkey
  obtain ⟨c₁, c₂, winner, loser, rival, hc₁, hc₂, haltpart, hwinner, hloser, hrival, hsolves⟩ :=
    hagrees.compareMinimum_yields hfirst hlt hcount hinputs hcompare
  have hne := hagrees.altered_wellFormed.layers_ne_nil
  have hloser' : (altered.withLast [c₁, c₂]).output (α := Rat) 0 = .ok loser :=
    (Network.output_withLast hne).2 ⟨c₁, rfl, hloser⟩
  have hrival' : (altered.withLast [c₁, c₂]).output (α := Rat) 1 = .ok rival :=
    (Network.output_withLast hne).2 ⟨c₂, rfl, hrival⟩
  exact ⟨base, altered, b, _, c₁, c₂, winner, loser, rival, modifiedPair_yields.2 ⟨ov, hprepare⟩,
    hc₁, hc₂, rfl, hloser, hrival,
    fun n id => Network.output_eq_ok_iff hagrees.base_wellFormed.layers_ne_nil,
    haltpart, hwinner, hloser', hrival', hsolves⟩

/-- A test of the sample with one of its rectifiers as a second output, and margin one. -/
def rivals : RedundancyTest Rat :=
  ofMargin ⟨[[[0]], [[1, 2], [3, 4]], [[5], [6]]]⟩ 1

/-- The nodes of the sample and its second output. -/
def rivalsArena : Arena Rat :=
  Arena.sample.push { kind := .affine [(1, 2)] 0 }

/-- The query whether the sample without its other rectifier no longer puts out more than this
one. -/
theorem comparedMinimum_solutions_rivals :
    ∃ q a', (rivals.comparedMinimum [⟨1, 1, .active⟩] 0 1 none).Yields rivalsArena q a' ∧
      ∃ base altered b altpart c₁ c₂ winner loser rival,
        (rivals.modifiedPair [⟨1, 1, .active⟩] none).Yields rivalsArena (base, altered) b ∧
        chainAt altered.layers (altered.layerCount - 1) 0 = some c₁ ∧
        chainAt altered.layers (altered.layerCount - 1) 1 = some c₂ ∧
        altpart = altered.withLast [c₁, c₂] ∧ c₁.getLast? = some loser ∧
        c₂.getLast? = some rival ∧
        (∀ n id, base.output (α := Rat) n = .ok id ↔
          ∃ c, chainAt base.layers (base.layerCount - 1) n = some c ∧ c.getLast? = some id) ∧
        altered.keepOutputs [0, 1] b = .ok altpart ∧
        base.output (α := Rat) 0 = .ok winner ∧ altpart.output (α := Rat) 0 = .ok loser ∧
        altpart.output (α := Rat) 1 = .ok rival ∧
        ∀ x, (∃ v, q.Solves a' v ∧ q.inputs.map v = x) ↔
          ∃ v w, base.Runs b v ∧ altpart.Runs b w ∧ base.inputs.map v = x ∧
            altpart.inputs.map w = x ∧
            (∀ n id, n ≠ 0 → base.output (α := Rat) n = .ok id → 1 ≤ v winner - v id) ∧
            1 ≤ w rival - w loser := by
  obtain ⟨q, a', h⟩ :
      ∃ q a', (rivals.comparedMinimum [⟨1, 1, .active⟩] 0 1 none).Yields rivalsArena q a' := by
    rw [Edit.exists_yields_iff]
    decide +kernel
  have haccepted : rivals.network.Accepted rivalsArena := by rfl
  exact ⟨q, a', h, comparedMinimum_solutions haccepted (by decide) (by decide) h⟩

end RedundancyTest

end PiecewiseNet
