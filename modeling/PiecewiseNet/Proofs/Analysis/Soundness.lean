import PiecewiseNet.Proofs.Analysis.Recomputation
import PiecewiseNet.Proofs.Network.Nesting

/-!
# What a comparison without a solution proves

If a comparison over a clipped network has no solution, the comparison over the whole network has
none. And if that one has none, the overrides do not move the output by the margin on any input, as
long as the recomputed values keep to the bounds of the nodes: the overridden copy has the bounds of
the network, and they exclude effects that leave them.

## Main statements

- `RedundancyTest.comparedExact_of_fromStart`: a solution for the whole network is one for a clipped
  network.
- `RedundancyTest.exists_solution_of_effect`: an effect within the bounds is found.
- `RedundancyTest.comparedExact_misses_effect`: an effect that leaves the bounds can be missed.
-/

namespace PiecewiseNet

namespace RedundancyTest

variable {t : RedundancyTest Rat} {overrides : List NeuronOverride} {d : Direction} {index : Nat}
  {a a' b b' : Arena Rat} {q₀ q : Query Rat} {v w r : Valuation Rat}

/-! ## Clipping -/

/-- If the query over the range from the first layer on has a solution, so has the query over a
range that starts before the first override. -/
theorem comparedExact_of_fromStart (hnet : t.network.Accepted a) (hfree : t.network.FreeAtInputs a)
    (hprevious : t.network.ReadsPrevious a) (hsame : ∀ id ∈ t.network.nodes, b.get? id = a.get? id)
    {range : ClipRange} (hoverrides : ∀ o ∈ overrides, range.firstLayer < o.layer)
    (h₀ : (t.comparedExact overrides d index (some range.fromStart)).Yields a q₀ a')
    (h : (t.comparedExact overrides d index (some range)).Yields b q b')
    (hsolved : ∃ v, q₀.Solves a' v) : ∃ v, q.Solves b' v := by
  have hwell := Network.accepted_iff.1 hnet
  have hwellb := hwell.of_get?_eq hsame
  have hearlier := hprevious.readsEarlier
  have hfreeb : t.network.FreeAtInputs b := by
    intro id hid
    rw [Network.IsFree, hsame id hid]
    exact hfree id hid
  have hearlierb := (Network.readsEarlier_iff.1 hearlier).of_get?_eq hsame
  obtain ⟨_, _, _, _, _, _, _, _, _, _, hbuilt, -⟩ := exists_built hwellb hfreeb hearlierb h
  obtain ⟨_, _, _, _, _, _, _, _, _, _, hbuilt₀, -⟩ := exists_built hwell hfree hearlier h₀
  obtain ⟨u, hu⟩ := hsolved
  obtain ⟨v, w, r, heffect, -⟩ := (exists_effect_iff hwell hfree hearlier h₀ _).1 ⟨u, hu, rfl⟩
  have hkinds : ∀ l n, l ≤ range.firstLayer → kindsIn overrides range.fromStart l n = none := by
    intro l n hl
    refine NeuronOverride.kindAt_eq_none fun o ho => ?_
    have hlt := hoverrides o ho
    show o.layer ≠ 0 + l
    omega
  have hpart : (t.network.trimmed range).Effect (b.freed (t.network.trimmed range).inputs)
      (fun l n => kindsIn overrides range.fromStart (range.firstLayer + l) n) d index
      t.settings.margin v w r :=
    heffect.of_fromStart hbuilt.range_lt hbuilt.range_last hwell hfree hearlier hbuilt₀.wellFormed
      hsame hkinds
  have hshift : (fun l n => kindsIn overrides range.fromStart (range.firstLayer + l) n) =
      kindsIn overrides range := by
    funext l n
    show NeuronOverride.kindAt overrides (0 + (range.firstLayer + l)) n = _
    rw [Nat.zero_add]
    rfl
  rw [hshift] at hpart
  obtain ⟨u', hu', -⟩ := (exists_effect_iff hwellb hfreeb hearlierb h _).2 ⟨v, w, r, hpart, rfl⟩
  exact ⟨u', hu'⟩

/-- A test of a network of two rectifiers one after the other, with margin one. -/
def deep : RedundancyTest Rat :=
  ofMargin ⟨[[[0]], [[1, 2]], [[3, 4]], [[5]]]⟩ 1

/-- The nodes of the two rectifiers. -/
def deepArena : Arena Rat :=
  ⟨#[{ kind := .plain, bounds := ⟨some (-2), some 2⟩ }, { kind := .affine [(1, 0)] 0 },
    { kind := .relu 1 false }, { kind := .affine [(-1, 2)] 0 }, { kind := .relu 3 false },
    { kind := .affine [(1, 4)] 0 }]⟩

/-- The query whether without its second rectifier the network puts out less by one, asked about the
whole network and then about the part behind the first rectifier. -/
theorem comparedExact_of_fromStart_deep :
    ∃ q₀ b q b', (deep.comparedExact [⟨2, 0, .active⟩] .gt 0
        (some (ClipRange.fromStart { firstLayer := 1, firstCut := 1 }))).Yields deepArena q₀ b ∧
      (deep.comparedExact [⟨2, 0, .active⟩] .gt 0
        (some { firstLayer := 1, firstCut := 1 })).Yields b q b' ∧
      (∃ v, q₀.Solves b v) ∧ ∃ v, q.Solves b' v := by
  obtain ⟨q₀, b, h₀, hsolves, hsecond⟩ : ∃ q₀ b, (deep.comparedExact [⟨2, 0, .active⟩] .gt 0
      (some (ClipRange.fromStart { firstLayer := 1, firstCut := 1 }))).Yields deepArena q₀ b ∧
        q₀.Solves b (b.compute q₀.nodes fun _ => 1) ∧
        ((deep.comparedExact [⟨2, 0, .active⟩] .gt 0
          (some { firstLayer := 1, firstCut := 1 })).run b).1.isOk = true := by
    rw [Edit.exists_yields_and_iff]
    decide +kernel
  obtain ⟨q, b', h⟩ := Edit.exists_yields_iff.2 hsecond
  have haccepted : deep.network.Accepted deepArena := by rfl
  have hwell := Network.accepted_iff.1 haccepted
  have hsame : ∀ id ∈ deep.network.nodes, b.get? id = deepArena.get? id := fun id hid =>
    get?_of_comparedExact hwell (by decide) (by decide) h₀ id (hwell.held id hid)
  have hoverrides : ∀ o ∈ [(⟨2, 0, .active⟩ : NeuronOverride)], 1 < o.layer := by decide
  exact ⟨q₀, b, q, b', h₀, h, ⟨_, hsolves⟩, comparedExact_of_fromStart haccepted (by decide)
    (by decide) hsame hoverrides h₀ h ⟨_, hsolves⟩⟩

/-! ## Effects -/

/-- The query over a whole network finds every effect of overrides that stays within the bounds:
the network runs, and recomputed with the overrides on the same inputs its output moves by the
margin. -/
theorem exists_solution_of_effect {range : Option ClipRange} (hnet : t.network.Accepted a)
    (hfree : t.network.FreeAtInputs a) (hprevious : t.network.ReadsPrevious a)
    (houtputs : ∀ layer ∈ t.network.layers.getLast?, ∀ c ∈ layer, c.length = 1)
    (hfirst : (t.resolveRange range).firstLayer = 0) (hcut : (t.resolveRange range).firstCut = 0)
    (hend : (t.resolveRange range).resolveLast t.network.layerCount = t.network.layerCount - 1)
    (h : (t.comparedExact overrides d index range).Yields a q a') (hv : t.network.Runs a v)
    (hw : t.network.Recomputes a (NeuronOverride.kindAt overrides) (fun _ _ => True) w r)
    (hinputs : ∀ id ∈ t.network.nodes, Network.IsFree a id → w id = v id)
    (hmoved : ∃ o, t.network.output (α := Rat) index = .ok o ∧
      t.settings.margin ≤ d.gap (v o) (r o))
    (hbounds : t.network.WithinBounds a (NeuronOverride.kindAt overrides)
      (t.network.LeadsTo index) w) :
    ∃ u, q.Solves a' u := by
  have hwell := Network.accepted_iff.1 hnet
  have hearlier := hprevious.readsEarlier
  have hself := Network.trimmed_eq_self hwell.layers_ne_nil hfirst hcut hend houtputs
  have hkinds : kindsIn overrides (t.resolveRange range) = NeuronOverride.kindAt overrides := by
    funext l n
    rw [kindsIn, hfirst, Nat.zero_add]
  have hat : t.network.RunsAt a (fun _ _ => True) v := fun l n c _ hc id hid =>
    hv id (Network.mem_nodes hc hid)
  -- The heads of the first layer are freed, but before the overrides nothing changes anyway.
  have hfirstLayer : ∀ l n, l < 1 → NeuronOverride.kindAt overrides l n = none := by
    intro l n hl
    obtain ⟨_, _, _, _, _, _, _, _, _, _, hbuilt, -⟩ := exists_built hwell hfree hearlier h
    refine NeuronOverride.kindAt_eq_none fun o ho => ?_
    obtain ⟨hpos, -⟩ := (kindAt_of_relativeOverrides hbuilt.relative).1 o ho
    omega
  have hsame : t.network.inputs.map w = t.network.inputs.map v := by
    refine List.map_congr_left ?_
    intro id hid
    obtain ⟨n, c, hc, hhead⟩ := Network.mem_inputs_iff.1 hid
    exact hw.eq_of_runsAt hat hwell hearlier (fun _ _ _ _ _ _ _ => trivial) hfirstLayer hinputs 0 n
      c id Nat.one_pos trivial hc (List.mem_of_head? hhead)
  have heffect : t.network.Effect (a.freed t.network.inputs) (NeuronOverride.kindAt overrides) d
      index t.settings.margin v w r := by
    have hall := Network.relaxes_freed (NeuronOverride.kindAt overrides) hwell
      (fun l n (_ : t.network.LeadsTo index l n) => trivial) t.network.inputs
    have hlead := Network.relaxes_freed (NeuronOverride.kindAt overrides) hwell
      (fun l n (hplace : t.network.LeadsTo index l n) => hplace) t.network.inputs
    have hrecomputes := hall.recomputes hw
    have hwithin := hlead.withinBounds hbounds
    simp only [Nat.zero_add] at hrecomputes hwithin
    exact ⟨hall.runsAt hat, hrecomputes, hwithin, hsame, hmoved⟩
  have hiff := exists_effect_iff hwell hfree hearlier h (t.network.inputs.map v)
  rw [hself, hkinds] at hiff
  obtain ⟨u, hu, -⟩ := hiff.2 ⟨v, w, r, heffect, rfl⟩
  exact ⟨u, hu⟩

/-- At input minus one the sample without its first rectifier puts out zero and not one. -/
theorem exists_solution_of_effect_sample :
    ∃ q a', (sample.comparedExact [⟨1, 0, .active⟩] .gt 0 none).Yields Arena.sample q a' ∧
      ∃ u, q.Solves a' u := by
  obtain ⟨q, a', h⟩ :
      ∃ q a', (sample.comparedExact [⟨1, 0, .active⟩] .gt 0 none).Yields Arena.sample q a' := by
    rw [Edit.exists_yields_iff]
    decide +kernel
  have haccepted : Network.sample.Accepted Arena.sample := by rfl
  have hruns : Network.sample.Runs Arena.sample fun id => [-1, -1, 0, 1, 1, 1].getD id 0 := by
    decide +kernel
  have hrecomputes : Network.sample.Recomputes Arena.sample
      (NeuronOverride.kindAt [⟨1, 0, .active⟩]) (fun _ _ => True)
      (fun id => [-1, -1, 0, 1, 1, 0].getD id 0) fun id => [-1, -1, -1, 1, 1, 0].getD id 0 := by
    decide +kernel
  exact ⟨q, a', h, exists_solution_of_effect haccepted (by decide) (by decide) (by decide) rfl rfl
    rfl h hruns hrecomputes (by decide +kernel) ⟨5, rfl, by decide +kernel⟩ (by decide +kernel)⟩

/-- A test of one rectifier whose input is minus one, and an output that is not negative. -/
def capped : RedundancyTest Rat :=
  ofMargin ⟨[[[0]], [[1, 2]], [[3]]]⟩ 1

/-- The nodes of the rectifier, and the bound of the output. -/
def cappedArena : Arena Rat :=
  ⟨#[{ kind := .plain, bounds := ⟨some (-1), some (-1)⟩ }, { kind := .affine [(1, 0)] 0 },
    { kind := .relu 1 false }, { kind := .affine [(1, 2)] 0, bounds := ⟨some 0, none⟩ }]⟩

/-- Without the rectifier the output moves from zero to minus one, but the overridden copy has the
bound of the output, and the query has no solution. -/
theorem comparedExact_misses_effect :
    capped.network.Accepted cappedArena ∧ capped.network.FreeAtInputs cappedArena ∧
      capped.network.ReadsPrevious cappedArena ∧
      ∃ q a' v w r, (capped.comparedExact [⟨1, 0, .active⟩] .gt 0 none).Yields cappedArena q a' ∧
        capped.network.Runs cappedArena v ∧
        capped.network.Recomputes cappedArena (NeuronOverride.kindAt [⟨1, 0, .active⟩])
          (fun _ _ => True) w r ∧
        (∀ id ∈ capped.network.nodes, Network.IsFree cappedArena id → w id = v id) ∧
        capped.network.output (α := Rat) 0 = .ok 3 ∧
        capped.settings.margin ≤ Direction.gt.gap (v 3) (r 3) ∧ ¬∃ u, q.Solves a' u := by
  obtain ⟨q, a', h⟩ :
      ∃ q a', (capped.comparedExact [⟨1, 0, .active⟩] .gt 0 none).Yields cappedArena q a' := by
    rw [Edit.exists_yields_iff]
    decide +kernel
  have haccepted : capped.network.Accepted cappedArena := by rfl
  refine ⟨haccepted, by decide, by decide, q, a', fun id => [-1, -1, 0, 0].getD id 0,
    fun id => [-1, -1, 0, -1].getD id 0, fun id => [-1, -1, -1, -1].getD id 0, h,
    by decide +kernel, by decide +kernel, by decide +kernel, rfl, by decide +kernel, ?_⟩
  rintro ⟨u, hu⟩
  obtain ⟨v, w, r, heffect, -⟩ := (exists_effect_iff (Network.accepted_iff.1 haccepted) (by decide)
    (by decide) h _).1 ⟨u, hu, rfl⟩
  have hself : capped.network.trimmed (capped.resolveRange none) = capped.network := by decide
  have hinput : (cappedArena.freed capped.network.inputs).get? 0 =
      some { kind := .plain, bounds := ⟨some (-1), some (-1)⟩ } := by decide +kernel
  have hhead : (cappedArena.freed capped.network.inputs).get? 1 =
      some { kind := .affine [(1, 0)] 0 } := by decide +kernel
  have htail : (cappedArena.freed capped.network.inputs).get? 2 =
      some { kind := .relu 1 false } := by decide +kernel
  have hout : (cappedArena.freed capped.network.inputs).get? 3 =
      some { kind := .affine [(1, 2)] 0, bounds := ⟨some 0, none⟩ } := by decide +kernel
  rw [hself] at heffect
  obtain ⟨-, hw, hbounds, -, -⟩ := heffect
  -- The input is minus one, the overridden neuron puts it out, and the output is bounded.
  have hle : w 0 ≤ -1 :=
    (hbounds.holds ⟨0, 0, [0], .inr rfl, rfl, by simp, .inl rfl⟩ hinput).2 (-1) rfl
  have hread : r 0 = w 0 := hw.read 0 0 [0] 0 (.inr rfl) rfl (by simp) (.inl rfl)
  have hpre : w 1 = 0 + r 0 * 1 + 0 :=
    hw.value_eq ⟨1, 0, [1, 2], .inr rfl, rfl, by simp, .inr rfl⟩ hhead
  have hpost : r 2 = w 1 :=
    hw.replaced 1 0 [1, 2] .active 1 2 _ (.inr rfl) rfl rfl rfl rfl htail
  have hlast : capped.network.Stays (kindsIn [⟨1, 0, .active⟩] (capped.resolveRange none))
      (capped.network.LeadsTo 0) 3 := ⟨2, 0, [3], .inr rfl, rfl, by simp, .inl rfl⟩
  have hsum : w 3 = 0 + r 2 * 1 + 0 := hw.value_eq hlast hout
  have hge : 0 ≤ w 3 := (hbounds.holds hlast hout).1 0 rfl
  linarith

end RedundancyTest

end PiecewiseNet
