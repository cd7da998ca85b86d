import PiecewiseNet.Proofs.Analysis.AcceptedOverrides
import PiecewiseNet.Proofs.Analysis.Comparison
import PiecewiseNet.Proofs.Network.ClippedOverrides

/-!
# What a test prepares

Every query of a test is about two clipped copies of its network, the second one with the overrides.
The overrides are numbered from the first layer of the network when they are checked, and from the
first kept layer when they are applied. They reach the neurons that they name.

## Main statements

- `RedundancyTest.clippedUnder_of_prepare`: the second copy, place by place.
- `RedundancyTest.overrides_reach_their_neurons`: which overrides are accepted, and where they are
  applied.
-/

namespace PiecewiseNet

open Text

namespace RedundancyTest

variable {α : Type} [Scalar α] {t : RedundancyTest α} {overrides : List NeuronOverride}
  {range : Option ClipRange} {a b : Arena α}

/-- The second network that a test prepares is what the range keeps of the network, with the
overrides at the places that they name. -/
theorem clippedUnder_of_prepare (hnet : t.network.WellFormed a) {base altered : Network}
    {ov : Overrides} (h : (t.prepare overrides range).Yields a (base, altered, ov) b) :
    ∃ f g, t.network.ClippedUnder (t.resolveRange range) a (NeuronOverride.kindAt overrides) f g
      altered b := by
  obtain ⟨hov, twin, b₁, b₂, hbase, htwin, hover⟩ := prepare_yields.1 h
  obtain ⟨hfirst, hlast⟩ := Network.range_of_duplicateAndClip hbase hnet.nodup hnet.held
  obtain ⟨-, -, -, hgrows, -⟩ := Network.duplicateAndClip_yields hbase hnet
  -- The first copy does not change the network, so the second one copies the same nodes.
  have hsame : ∀ id ∈ t.network.nodes, b₁.get? id = a.get? id := fun id hid =>
    hgrows.get? id (hnet.held id hid)
  obtain ⟨f, hcopy, hfresh, hgrows', -, hwell, -⟩ :=
    Network.duplicateAndClip_yields htwin (hnet.of_get?_eq hsame)
  have hcopy' := hcopy.of_get?_eq (fun id hid => Arena.get?_freed_of_get?_eq
    (hsame id (Network.nodes_trimmed_subset hid)).symm) fun _ _ => rfl
  obtain ⟨table, halt, -⟩ := Network.override_yields hover hwell.nodup hwell.held
  exact ⟨f, _, halt.clippedUnder hcopy' hwell hfirst hlast
    (fun id hid => hgrows.size.trans (hfresh id hid)) (hgrows.size.trans hgrows'.size)
    (kindAt_of_relativeOverrides hov).2⟩

/-- Overrides are accepted exactly when each of them names a neuron of a hidden layer of the range,
and no two the same neuron. The order of the list does not matter: in another order the overrides
are numbered alike, or refused for one of them as well. Accepted overrides reach the neurons that
they name, and no others. -/
theorem overrides_reach_their_neurons (hnet : t.network.Accepted a)
    (hcount : t.network.layerCount ≤ indexLimit) (overrides : List NeuronOverride) :
    (∀ range : ClipRange, ((∃ ov, t.relativeOverrides overrides range = .ok ov) ↔
      (∀ o ∈ overrides, 1 ≤ o.layer ∧ o.layer < t.network.layerCount - 1 ∧
        range.firstLayer ≤ o.layer ∧ o.layer ≤ range.resolveLast t.network.layerCount ∧
        o.neuron < t.network.layerSize o.layer) ∧
      overrides.Pairwise fun o o' => ¬(o.layer = o'.layer ∧ o.neuron = o'.neuron)) ∧
      ∀ overrides', overrides.Perm overrides' →
        (∀ ov, t.relativeOverrides overrides range = .ok ov →
          t.relativeOverrides overrides' range = .ok ov) ∧
        ∀ e, t.relativeOverrides overrides range = .error e →
          ∃ e', t.relativeOverrides overrides' range = .error e' ∧
            ((∀ o ∈ overrides, o.layer < indexLimit) →
              ∃ o ∈ overrides, ∃ fault, e' = .badOverride o.layer o.neuron fault)) ∧
    ∀ range base altered ov b, (t.prepare overrides range).Yields a (base, altered, ov) b →
      ∃ f g, t.network.ClippedUnder (t.resolveRange range) a (NeuronOverride.kindAt overrides) f g
        altered b := by
  refine ⟨fun range => ⟨?_, fun overrides' hperm => ⟨fun ov h =>
    relativeOverrides_perm hcount hperm h, fun e he => ?_⟩⟩, fun range base altered ov b h =>
      clippedUnder_of_prepare (Network.accepted_iff.1 hnet) h⟩
  · rw [exists_relativeOverrides_iff hcount]
    refine and_congr (forall₂_congr fun o _ => ?_) ?_
    · rw [NeuronOverride.Fits]
      omega
    · rw [List.nodup_iff_pairwise_ne, List.pairwise_map]
      simp only [ne_eq, NeuronOverride.place, Prod.mk.injEq]
  · cases h' : t.relativeOverrides overrides' range with
    | ok ov =>
      rw [relativeOverrides_perm hcount hperm.symm h'] at he
      cases he
    | error e' =>
      refine ⟨e', rfl, fun hlt => ?_⟩
      obtain ⟨o, ho, fault, heq⟩ := exists_of_addOverrides_eq_error
        (fun o ho => hlt o (hperm.mem_iff.2 ho)) h'
      exact ⟨o, hperm.mem_iff.2 ho, fault, heq⟩

/-- Two overrides of the sample, cut off before its rectifiers. In either order the first rectifier
is replaced by its input, and the second one by zero. -/
theorem overrides_reach_their_neurons_cut :
    Network.sample.Accepted Arena.sample ∧ sample.network.layerCount ≤ indexLimit ∧
      ∃ base altered ov b, ∃ f : NodeId → NodeId,
        (sample.prepare [⟨1, 1, .inactive⟩, ⟨1, 0, .active⟩] (some { firstLayer := 1 })).Yields
          Arena.sample (base, altered, ov) b ∧
        sample.relativeOverrides [⟨1, 0, .active⟩, ⟨1, 1, .inactive⟩] { firstLayer := 1 } = .ok ov ∧
        chainAt altered.layers 0 0 = some [f 1] ∧
        ∃ new o, chainAt altered.layers 0 1 = some [f 3, new] ∧ b.get? new = some o ∧
          o.kind = .plain ∧ o.bounds = Interval.fixed 0 := by
  have haccepted : Network.sample.Accepted Arena.sample := by rfl
  have hcount : sample.network.layerCount ≤ indexLimit := by decide
  obtain ⟨⟨base, altered, ov⟩, b, h⟩ : ∃ p b, (sample.prepare
      [⟨1, 1, .inactive⟩, ⟨1, 0, .active⟩] (some { firstLayer := 1 })).Yields Arena.sample p b := by
    rw [Edit.exists_yields_iff]
    decide +kernel
  obtain ⟨haccept, hreach⟩ := overrides_reach_their_neurons haccepted hcount
    [⟨1, 1, .inactive⟩, ⟨1, 0, .active⟩]
  obtain ⟨f, g, hunder⟩ := hreach _ _ _ _ _ h
  have hswapped := ((haccept { firstLayer := 1 }).2 _ (List.Perm.swap _ _ _)).1 ov
    (prepare_yields.1 h).1
  have hlayers : altered.layerCount = 2 := hunder.layerCount
  obtain ⟨head, tail, hhead, -, hactive, -⟩ := hunder.chainAt_active (l := 0) (n := 0) rfl rfl
  rw [hlayers] at hhead
  cases hhead
  obtain ⟨d, head, tail, m, hd, hhead, -, -, hcases⟩ := hunder.replaced 0 1 .inactive rfl
  cases hd
  rw [hlayers] at hhead
  cases hhead
  refine ⟨haccepted, hcount, base, altered, ov, b, f, h, hswapped, hactive, ?_⟩
  rcases hcases with ⟨hadded, -⟩ | ⟨bounds, new, o, hadded, hat, -, -, -, ho, hplain, hbounds⟩
  · cases hadded
  · cases hadded
    exact ⟨new, o, hat, ho, hplain, hbounds⟩

end RedundancyTest

end PiecewiseNet
