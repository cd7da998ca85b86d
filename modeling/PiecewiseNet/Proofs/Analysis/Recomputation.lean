import PiecewiseNet.Proofs.Analysis.Comparison
import PiecewiseNet.Proofs.Analysis.Overrides
import PiecewiseNet.Proofs.Network.Effects

/-!
# What a comparison asks of the network itself

A comparison works on two clipped copies of a network. What solves it can be said of the network
itself: it is run on some inputs, and recomputed on them with the overrides. The nodes of the
network are left alone, so it can be asked about any number of times.

## Main definitions

- `RedundancyTest.Built`: the copies that a comparison is built from.

## Main statements

- `RedundancyTest.exists_effect_iff`: a comparison is solved exactly by an effect of the overrides.
- `RedundancyTest.get?_of_comparedExact`: a comparison leaves the network alone.
-/

namespace PiecewiseNet

namespace RedundancyTest

variable {t : RedundancyTest Rat} {overrides : List NeuronOverride} {range : Option ClipRange}
  {d : Direction} {index : Nat} {a a' : Arena Rat} {q : Query Rat}

/-- The overrides of what a range keeps of a network, by places. -/
def kindsIn (overrides : List NeuronOverride) (range : ClipRange) (l n : Nat) :
    Option OverrideKind :=
  NeuronOverride.kindAt overrides (range.firstLayer + l) n

/-- The copies that a comparison is built from: `base` and `twin` are copies of what the range keeps
of the network, and `altered` is the twin with the overrides. -/
structure Built (t : RedundancyTest Rat) (overrides : List NeuronOverride) (range : ClipRange)
    (a : Arena Rat) (base twin altered : Network) (ov : Overrides) (table : Substitution)
    (boundary : Nat) (f g : NodeId → NodeId) (c b : Arena Rat) : Prop where
  range_lt : range.firstLayer < range.resolveLast t.network.layerCount
  range_last : range.resolveLast t.network.layerCount < t.network.layerCount
  wellFormed : (t.network.trimmed range).WellFormed (a.freed (t.network.trimmed range).inputs)
  relative : t.relativeOverrides overrides range = .ok ov
  copy : (t.network.trimmed range).Copy (a.freed (t.network.trimmed range).inputs) f twin c
  twins : base.Twins twin (· < ·) g c
  /-- What was there is unchanged. -/
  grows : a.GrowsTo c
  fresh : ∀ id ∈ twin.nodes, a.size ≤ id
  overridden : twin.Altered c ov altered b table
  agrees : base.AgreesBefore altered ov boundary g b
  first : ∃ n kind, ov.entries.head? = some ((boundary, n), kind)
  boundary_lt : boundary < base.layers.length

/-- A comparison of one output is built from copies of the network. -/
theorem exists_built (hnet : t.network.WellFormed a) (hfree : t.network.FreeAtInputs a)
    (hearlier : t.network.ReadsEarlier a)
    (h : (t.comparedExact overrides d index range).Yields a q a') :
    ∃ base twin altered ov table boundary f g c b,
      t.Built overrides (t.resolveRange range) a base twin altered ov table boundary f g c b ∧
        (compareExact base altered ov d index t.settings.margin).Yields b q a' := by
  obtain ⟨⟨base, altered, ov⟩, b, hprepare, h₁⟩ := Edit.yields_bind.1 h
  have hcompare : (compareExact base altered ov d index t.settings.margin).Yields b q a' :=
    Edit.yields_adapt.1 h₁
  obtain ⟨hov, twin, b₁, c, hbase, htwin, hover⟩ := prepare_yields.1 hprepare
  obtain ⟨hfirst, hlast⟩ := Network.range_of_duplicateAndClip hbase hnet.nodup hnet.held
  obtain ⟨-, -, -, hgrows, hwell, -⟩ := Network.duplicateAndClip_yields hbase hnet
  have hshift : ∀ k e l : Nat, k + e < k + l → e < l := fun k e l => Nat.lt_of_add_lt_add_left
  obtain ⟨f, g, hcopy, htwins, hgrows', hfresh⟩ := Network.exists_fresh_twins hnet
    (Network.readsEarlier_iff.1 hearlier) hshift hfree hbase htwin
  obtain ⟨table, halt, haltwell⟩ :=
    Network.override_yields hover htwins.wellFormed.nodup htwins.wellFormed.held
  obtain ⟨j, -, -, -, -, hj, -⟩ := Network.compareExact_steps hcompare
  obtain ⟨boundary, n, kind, hhead, hlt⟩ := Network.exists_boundary hj
  refine ⟨base, twin, altered, ov, table, boundary, f, g, c, b, ⟨hfirst, hlast, hwell, hov, hcopy,
    htwins, hgrows.trans hgrows', fun id hid => hgrows.size.trans (hfresh id hid), halt, ?_,
    ⟨n, kind, hhead⟩, hlt⟩, hcompare⟩
  exact htwins.agreesBefore (fun _ _ hlt => hlt) halt haltwell fun l n hkey =>
    Network.boundary_le hhead hkey

/-- A comparison of one output is solved exactly by an effect of the overrides on what the range
keeps of the network, with its first nodes freed. -/
theorem exists_effect_iff (hnet : t.network.WellFormed a) (hfree : t.network.FreeAtInputs a)
    (hearlier : t.network.ReadsEarlier a)
    (h : (t.comparedExact overrides d index range).Yields a q a') (x : List Rat) :
    (∃ v, q.Solves a' v ∧ q.inputs.map v = x) ↔
      ∃ v w r, (t.network.trimmed (t.resolveRange range)).Effect
          (a.freed (t.network.trimmed (t.resolveRange range)).inputs)
          (kindsIn overrides (t.resolveRange range)) d index t.settings.margin v w r ∧
        (t.network.trimmed (t.resolveRange range)).inputs.map v = x := by
  obtain ⟨base, twin, altered, ov, table, boundary, f, g, c, b, hbuilt, hcompare⟩ :=
    exists_built hnet hfree hearlier h
  obtain ⟨n, kind, hfirst⟩ := hbuilt.first
  have hcount := hbuilt.twins.layerCount_base
  have hcount' : 2 ≤ altered.layerCount := by
    rw [Network.layerCount, hbuilt.overridden.length]
    exact hbuilt.twins.layerCount
  obtain ⟨e, e', o, m, he, he', -, -, ho, hm, hsolves⟩ :=
    hbuilt.agrees.compareExact_yields hfirst hbuilt.boundary_lt hcount
      (hbuilt.twins.mem_inputs_of_isFree hbuilt.overridden) hcompare
  have hne := hbuilt.agrees.base_wellFormed.layers_ne_nil
  have hne' := hbuilt.agrees.altered_wellFormed.layers_ne_nil
  have hout : base.output (α := Rat) index = .ok o :=
    (Network.output_eq_ok_iff hne).2 ⟨e, he, ho⟩
  have hout' : altered.output (α := Rat) index = .ok m :=
    (Network.output_eq_ok_iff hne').2 ⟨e', he', hm⟩
  have hkinds : ov.kindAt = kindsIn overrides (t.resolveRange range) := by
    funext l n
    exact (kindAt_of_relativeOverrides hbuilt.relative).2 l n
  rw [hsolves, ← hkinds, ← hbuilt.twins.exists_effect_iff hbuilt.copy hbuilt.wellFormed
    (fun _ _ hlt => hlt) hbuilt.overridden hout hout']
  simp only [Network.runs_reduced_iff hne he, Network.runs_reduced_iff hne' he',
    Network.inputs_reduced hcount, Network.inputs_reduced hcount']

/-- A comparison leaves all nodes alone that were there before. -/
theorem get?_of_comparedExact (hnet : t.network.WellFormed a) (hfree : t.network.FreeAtInputs a)
    (hearlier : t.network.ReadsEarlier a)
    (h : (t.comparedExact overrides d index range).Yields a q a') :
    ∀ id < a.size, a'.get? id = a.get? id := by
  obtain ⟨base, twin, altered, ov, table, boundary, f, g, c, b, hbuilt, hcompare⟩ :=
    exists_built hnet hfree hearlier h
  obtain ⟨n, kind, hfirst⟩ := hbuilt.first
  obtain ⟨j, -, -, -, -, hj, -⟩ := Network.compareExact_steps hcompare
  obtain ⟨-, -, -, hjoin, -⟩ := hbuilt.agrees.join_yields hfirst hj
  intro id hlt
  have hltc := Nat.lt_of_lt_of_le hlt hbuilt.grows.size
  have hnot : id ∉ twin.nodes := fun hmem => absurd hlt (Nat.not_lt.2 (hbuilt.fresh id hmem))
  have hnot' : id ∉ altered.nodes := by
    intro hmem
    obtain ⟨l, k, e', he', hide⟩ := Network.mem_nodes_iff.1 hmem
    obtain ⟨e, he, hide⟩ := hbuilt.overridden.mem_chain he' hide hltc
    exact hnot (Network.mem_nodes he hide)
  rw [hjoin id hnot', hbuilt.overridden.outside id hltc hnot, hbuilt.grows.get? id hlt]

end RedundancyTest

end PiecewiseNet
