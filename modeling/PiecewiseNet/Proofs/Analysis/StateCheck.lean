import PiecewiseNet.Analysis.RedundancyTest
import PiecewiseNet.Proofs.Comparison
import PiecewiseNet.Proofs.Network.Checking

/-!
# State checks

A state check is solved exactly by the runs of a clipped network whose pre-activation satisfies the
inequality that denies the phase. So in strict mode an answer "none" proves that the neuron never
leaves its phase, and otherwise a neuron that never leaves its phase always gets this answer.

## Main definitions

- `Phase.Admits`: the pre-activations of a phase.
- `Phase.Denies`: the pre-activations that a check asks for.

## Main statements

- `stateEquation_holds_iff`: the equation of a check asks for these pre-activations.
- `RedundancyTest.stateCheck_decides`: what solves a check, and what its answers mean.
-/

namespace PiecewiseNet

/-- A neuron with this pre-activation is in the phase. -/
def Phase.Admits (phase : Phase) (x : Rat) : Prop :=
  match phase with
  | .active => 0 ≤ x
  | .inactive => x ≤ 0

/-- The pre-activation is beyond the margin on the side where the phase ends; a strict check moves
the limit to the other side of zero. -/
def Phase.Denies (phase : Phase) (strict : Bool) (margin x : Rat) : Prop :=
  match phase, strict with
  | .inactive, false => margin ≤ x
  | .inactive, true => -margin ≤ x
  | .active, false => x ≤ -margin
  | .active, true => x ≤ margin

variable {phase : Phase} {strict : Bool} {margin x : Rat}

theorem stateEquation_holds_iff {id : NodeId} {v : Valuation Rat} :
    (stateEquation phase strict margin id).Holds v ↔ phase.Denies strict margin (v id) := by
  have hvalue : Terms.value v [(1, id)] = v id := by
    simp only [Terms.value, List.foldl_cons, List.foldl_nil]
    ring
  cases phase <;> cases strict <;>
    simp only [stateEquation, Equation.Holds, Comparator.Holds, Phase.Denies, hvalue]

/-- Outside its phase every pre-activation is what a strict check asks for. -/
theorem Phase.denies_of_not_admits (hmargin : 0 < margin) (h : ¬phase.Admits x) :
    phase.Denies true margin x := by
  cases phase with
  | active =>
    show x ≤ margin
    have hlt : x < 0 := lt_of_not_ge h
    linarith
  | inactive =>
    show -margin ≤ x
    have hlt : 0 < x := lt_of_not_ge h
    linarith

/-- In its phase no pre-activation is what a check that is not strict asks for. -/
theorem Phase.not_denies_of_admits (hmargin : 0 < margin) (h : phase.Admits x) :
    ¬phase.Denies false margin x := by
  cases phase with
  | active =>
    have hle : 0 ≤ x := h
    show ¬x ≤ -margin
    linarith
  | inactive =>
    have hle : x ≤ 0 := h
    show ¬margin ≤ x
    linarith

namespace Network

variable {α : Type} {net : Network} {a : Arena α} {neuron : Nat} {q : Query α}

/-- A state check is a query over the network reduced to one neuron of one node. -/
theorem stateCheck_eq_ok [Scalar α] {margin : α}
    (h : PiecewiseNet.stateCheck net neuron phase strict margin a = .ok q) :
    ∃ kept id, net.keepOutputs [neuron] a = .ok kept ∧
      chainAt kept.layers (kept.layerCount - 1) 0 = some [id] ∧ q.nodes = kept.nodes.eraseDups ∧
      q.inputs = kept.inputs ∧ q.outputs = [id] ∧
      q.equations = [stateEquation phase strict margin id] := by
  unfold PiecewiseNet.stateCheck at h
  obtain ⟨kept, hkept, h⟩ := bind_eq_ok_iff.1 h
  obtain ⟨c, hchain, h⟩ := bind_eq_ok_iff.1 h
  split at h
  · rename_i id
    obtain ⟨q', hnew, h⟩ := bind_eq_ok_iff.1 h
    obtain ⟨u, -, h⟩ := bind_eq_ok_iff.1 h
    obtain rfl : q' = q := Except.ok.inj h
    exact ⟨kept, id, hkept, chain_eq_ok_iff.1 hchain, Query.new_eq_ok hnew⟩
  · cases h

/-- The query of a state check has passed its check. -/
theorem checkIntegrity_of_stateCheck [Scalar α] {margin : α}
    (h : PiecewiseNet.stateCheck net neuron phase strict margin a = .ok q) :
    q.checkIntegrity a = .ok () := by
  unfold PiecewiseNet.stateCheck at h
  obtain ⟨kept, -, h⟩ := bind_eq_ok_iff.1 h
  obtain ⟨c, -, h⟩ := bind_eq_ok_iff.1 h
  split at h
  · obtain ⟨q', -, h⟩ := bind_eq_ok_iff.1 h
    obtain ⟨u, hcheck, h⟩ := bind_eq_ok_iff.1 h
    obtain rfl : q' = q := Except.ok.inj h
    exact hcheck
  · cases h

/-- Of the last layer a range that cuts it behind the first nodes keeps the heads. -/
theorem head?_of_trimmed_last {r : ClipRange} {n : Nat} {c : Chain} (hcut : r.lastCut = 0)
    (hfirst : r.firstLayer < r.resolveLast net.layerCount)
    (hlast : r.resolveLast net.layerCount < net.layerCount)
    (hc : chainAt (net.trimmed r).layers ((net.trimmed r).layerCount - 1) n = some c) :
    ∃ chain, chainAt net.layers (r.resolveLast net.layerCount) n = some chain ∧
      c.head? = chain.head? := by
  have hcount := layerCount_trimmed hfirst hlast
  have hkept : (net.keptLayers r).length = (net.trimmed r).layerCount := by
    rw [layerCount, trimmed, List.length_mapIdx]
  rw [chainAt_trimmed, Option.map_eq_some_iff] at hc
  obtain ⟨chain, hchain, rfl⟩ := hc
  have hat := chainAt_keptLayers hchain
  have hplace : r.firstLayer + ((net.trimmed r).layerCount - 1) = r.resolveLast net.layerCount := by
    omega
  rw [hplace] at hat
  refine ⟨chain, hat, ?_⟩
  simp only [ClipRange.keep, hkept, hcut]
  rw [if_pos (by omega), if_neg (by omega), List.head?_take, if_neg (by omega)]

end Network

namespace RedundancyTest

/-- The range of a state check: the layer of the neuron takes the place of the output layer, and is
cut behind the first nodes. -/
def rangeTo {α : Type} [Scalar α] (t : RedundancyTest α) (range : Option ClipRange) (layer : Nat) :
    ClipRange :=
  { t.resolveRange range with lastLayer := some layer, lastCut := 0 }

/-- A state check is solved exactly by the runs of the clipped network, with the one neuron in its
last layer, whose pre-activation is beyond the limit. If a strict check has no solution, the neuron
never leaves its phase; if it never does, a check that is not strict has no solution. -/
theorem stateCheck_decides {t : RedundancyTest Rat} {a a' : Arena Rat} {layer neuron : Nat}
    {range : Option ClipRange} {q : Query Rat} (hnet : t.network.Accepted a)
    (hmargin : 0 < t.settings.margin) (h : (t.stateCheck layer neuron phase range).Yields a q a') :
    ∃ clipped kept f chain head,
      (t.network.duplicateAndClip (t.rangeTo range layer) t.settings.duplicateSuffix).Yields a
        clipped a' ∧
      (t.network.trimmed (t.rangeTo range layer)).Copy
        (a.freed (t.network.trimmed (t.rangeTo range layer)).inputs) f clipped a' ∧
      chainAt clipped.layers (clipped.layerCount - 1) neuron = some [f head] ∧
      kept = clipped.reduced [f head] ∧ clipped.keepOutputs [neuron] a' = .ok kept ∧
      chainAt t.network.layers layer neuron = some chain ∧ chain.head? = some head ∧
      kept.output (α := Rat) 0 = .ok (f head) ∧
      (∀ v, q.Solves a' v ↔ kept.Runs a' v ∧
        phase.Denies t.settings.strictStateCheck t.settings.margin (v (f head))) ∧
      (t.settings.strictStateCheck = true → (¬∃ v, q.Solves a' v) →
        ∀ v, kept.Runs a' v → phase.Admits (v (f head))) ∧
      (t.settings.strictStateCheck = false → (∀ v, kept.Runs a' v → phase.Admits (v (f head))) →
        ¬∃ v, q.Solves a' v) := by
  obtain ⟨_, b, hrange, h₁⟩ := Edit.yields_bind.1 h
  obtain ⟨-, hb⟩ := Edit.yields_ofExcept.1 hrange
  obtain ⟨clipped, c, hadapt, h₂⟩ := Edit.yields_bind.1 h₁
  have hclip : (t.network.duplicateAndClip (t.rangeTo range layer)
      t.settings.duplicateSuffix).Yields a clipped c := hb ▸ Edit.yields_adapt.1 hadapt
  obtain ⟨hcheck, rfl⟩ := Edit.yields_reading.1 (Edit.yields_adapt.1 h₂)
  have hwell := Network.accepted_iff.1 hnet
  obtain ⟨hfirst, hlast⟩ := Network.range_of_duplicateAndClip hclip hwell.nodup hwell.held
  obtain ⟨f, hcopy, -⟩ := Network.duplicateAndClip_yields hclip hwell
  obtain ⟨kept, id, hkept, hid, hnodes, -, -, hequations⟩ := Network.stateCheck_eq_ok hcheck
  obtain ⟨hne, e, he, rfl, -⟩ := Network.keepOutputs_singleton_eq_ok_iff.1 hkept
  obtain ⟨c₀, hc₀, rfl⟩ := hcopy.exists_chainAt_last he
  have hsingle : c₀.map f = [id] := by
    rw [Network.reduced_eq_withLast, Network.layerCount_withLast hne, Network.chainAt_withLast hne,
      Network.layerCount] at hid
    have hpos := List.length_pos_iff.2 hne
    simpa [show clipped.layers.length - 1 + 1 = clipped.layers.length by omega] using hid
  obtain ⟨head, rfl, rfl⟩ := List.map_eq_singleton_iff.1 hsingle
  obtain ⟨chain, hchain, hhead⟩ := Network.head?_of_trimmed_last rfl hfirst hlast hc₀
  -- The members of the query are the nodes that are kept.
  have hsolves : ∀ v, q.Solves a' v ↔ (clipped.reduced [f head]).Runs a' v ∧
      phase.Denies t.settings.strictStateCheck t.settings.margin (v (f head)) := by
    intro v
    rw [← stateEquation_holds_iff, Network.Runs]
    constructor
    · rintro ⟨hmembers, hholds⟩
      refine ⟨fun j hj => hmembers j ?_, hholds _ ?_⟩
      · rw [hnodes]
        simpa using hj
      · rw [hequations]
        exact List.mem_singleton_self _
    · rintro ⟨hruns, hholds⟩
      refine ⟨fun j hj => hruns j ?_, fun e he => ?_⟩
      · rw [hnodes] at hj
        simpa using hj
      · rw [hequations, List.mem_singleton] at he
        exact he ▸ hholds
  refine ⟨clipped, _, f, chain, head, hclip, hcopy, he, rfl, hkept, hchain, hhead.symm,
    (Network.output_reduced hne).2 rfl, hsolves, ?_, ?_⟩
  · intro hstrict hnone v hv
    by_contra hnot
    refine hnone ⟨v, (hsolves v).2 ⟨hv, ?_⟩⟩
    rw [hstrict]
    exact Phase.denies_of_not_admits hmargin hnot
  · rintro hstrict hall ⟨v, hv⟩
    obtain ⟨hruns, hdenies⟩ := (hsolves v).1 hv
    rw [hstrict] at hdenies
    exact Phase.not_denies_of_admits hmargin (hall v hruns) hdenies

/-- A strict test of the sample with margin one. -/
def strictSample : RedundancyTest Rat :=
  { network := Network.sample
    settings := { (Settings.standard : Settings Rat) with margin := 1, strictStateCheck := true } }

/-- The strict check whether the first rectifier of the sample is ever active. -/
theorem stateCheck_decides_sample :
    ∃ q a', (strictSample.stateCheck 1 0 .inactive none).Yields Arena.sample q a' ∧
      ∃ clipped kept f chain head,
        (Network.sample.duplicateAndClip (strictSample.rangeTo none 1) "_dup").Yields Arena.sample
          clipped a' ∧
        (Network.sample.trimmed (strictSample.rangeTo none 1)).Copy
          (Arena.sample.freed (Network.sample.trimmed (strictSample.rangeTo none 1)).inputs) f
          clipped a' ∧
        chainAt clipped.layers (clipped.layerCount - 1) 0 = some [f head] ∧
        kept = clipped.reduced [f head] ∧ clipped.keepOutputs [0] a' = .ok kept ∧
        chainAt Network.sample.layers 1 0 = some chain ∧ chain.head? = some head ∧
        kept.output (α := Rat) 0 = .ok (f head) ∧
        (∀ v, q.Solves a' v ↔ kept.Runs a' v ∧ Phase.inactive.Denies true 1 (v (f head))) ∧
        ((¬∃ v, q.Solves a' v) →
          ∀ v, kept.Runs a' v → Phase.inactive.Admits (v (f head))) := by
  obtain ⟨q, a', h⟩ :
      ∃ q a', (strictSample.stateCheck 1 0 .inactive none).Yields Arena.sample q a' := by
    rw [Edit.exists_yields_iff]
    decide +kernel
  have haccepted : Network.sample.Accepted Arena.sample := by rfl
  have hmargin : 0 < strictSample.settings.margin := by decide +kernel
  obtain ⟨clipped, kept, f, chain, head, hclip, hcopy, hat, hreduced, hkept, hchain, hhead, hout,
    hsolves, hstrict, -⟩ := stateCheck_decides haccepted hmargin h
  exact ⟨q, a', h, clipped, kept, f, chain, head, hclip, hcopy, hat, hreduced, hkept, hchain, hhead,
    hout, hsolves, hstrict rfl⟩

end RedundancyTest

end PiecewiseNet
