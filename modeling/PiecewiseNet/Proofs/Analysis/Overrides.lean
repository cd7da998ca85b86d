import PiecewiseNet.Analysis.RedundancyTest
import PiecewiseNet.Proofs.Network.Recomputing

/-!
# Overrides of an analysis

## Main definitions

- `NeuronOverride.kindAt`: the override of a neuron, by its place in the whole network.

## Main statements

- `RedundancyTest.kindAt_of_relativeOverrides`: the overrides of a range are those of the network,
  numbered from its first layer.
-/

namespace PiecewiseNet

/-- The first override of the neuron at a place of the whole network. -/
def NeuronOverride.kindAt (overrides : List NeuronOverride) (l n : Nat) : Option OverrideKind :=
  (overrides.find? fun o => o.layer = l ∧ o.neuron = n).map (·.kind)

theorem NeuronOverride.kindAt_cons (o : NeuronOverride) (os : List NeuronOverride) (l n : Nat) :
    kindAt (o :: os) l n = if o.layer = l ∧ o.neuron = n then some o.kind else kindAt os l n := by
  rw [kindAt, List.find?_cons]
  by_cases h : o.layer = l ∧ o.neuron = n
  · rw [if_pos h, decide_eq_true h]
    rfl
  · rw [if_neg h, decide_eq_false h]
    rfl

/-- A layer in which no neuron is named has no override. -/
theorem NeuronOverride.kindAt_eq_none {overrides : List NeuronOverride} {l n : Nat}
    (h : ∀ o ∈ overrides, o.layer ≠ l) : kindAt overrides l n = none := by
  rw [kindAt, Option.map_eq_none_iff, List.find?_eq_none]
  intro o ho
  simpa using fun hl => absurd hl (h o ho)

namespace RedundancyTest

variable {α : Type} {net : Network} {range : ClipRange} {os : List NeuronOverride}
  {relative ov : Overrides} {t : RedundancyTest α}

/-- An override without a fault lies in a hidden layer of the range, and names a neuron there. -/
theorem place_of_overrideFault? {o : NeuronOverride}
    (h : overrideFault? (α := α) net range o = .ok none) :
    0 < o.layer ∧ o.layer + 1 < net.layerCount ∧ range.firstLayer ≤ o.layer ∧
      o.layer ≤ range.resolveLast net.layerCount ∧ o.neuron < net.layerSize o.layer := by
  unfold overrideFault? at h
  dsimp only at h
  split at h
  · cases h
  · rename_i hpos
    unfold nextIndex at h
    split at h
    · cases h
    · rename_i next hnext
      obtain rfl : o.layer + 1 = next := by
        split at hnext
        · exact Except.ok.inj hnext
        · cases hnext
      have h := Except.ok.inj h
      split at h
      · cases h
      · split at h
        · cases h
        · split at h
          · cases h
          · omega

/-- Adding overrides checks each of them, and gives each place its override unless it had one. -/
theorem addOverrides_eq_ok (h : addOverrides (α := α) net range os relative = .ok ov) :
    (∀ o ∈ os, 0 < o.layer ∧ range.firstLayer ≤ o.layer) ∧
      ∀ l n, ov.kindAt l n =
        (relative.kindAt l n).or (NeuronOverride.kindAt os (range.firstLayer + l) n) := by
  induction os generalizing relative with
  | nil =>
    cases h
    refine ⟨by simp, ?_⟩
    intro l n
    rw [NeuronOverride.kindAt, List.find?_nil, Option.map_none, Option.or_none]
  | cons o os ih =>
    unfold addOverrides at h
    split at h
    · cases h
    · cases h
    · rename_i hfault
      obtain ⟨hpos, -, hfirst, -, -⟩ := place_of_overrideFault? hfault
      dsimp only at h
      split at h
      · cases h
      · rename_i hnew
        obtain ⟨hos, hkind⟩ := ih h
        refine ⟨List.forall_mem_cons.2 ⟨⟨hpos, hfirst⟩, hos⟩, ?_⟩
        intro l n
        have hkey : (l, n) = (o.layer - range.firstLayer, o.neuron) ↔
            o.layer = range.firstLayer + l ∧ o.neuron = n := by
          rw [Prod.mk.injEq]
          omega
        rw [hkind, NeuronOverride.kindAt_cons, Overrides.kindAt, OrderedMap.get?_insert]
        by_cases hplace : o.layer = range.firstLayer + l ∧ o.neuron = n
        · have hnone : relative.kindAt l n = none := by
            rw [Overrides.kindAt_eq_none_iff, hkey.2 hplace]
            simpa using hnew
          rw [if_pos (hkey.2 hplace), if_pos hplace, hnone, Option.some_or, Option.none_or]
        · rw [if_neg fun heq => hplace (hkey.1 heq), if_neg hplace, Overrides.kindAt]

/-- The overrides of a range lie behind the first layer of the network, and in the range. They are
numbered from the first layer of the range. -/
theorem kindAt_of_relativeOverrides (h : t.relativeOverrides os range = .ok ov) :
    (∀ o ∈ os, 0 < o.layer ∧ range.firstLayer ≤ o.layer) ∧
      ∀ l n, ov.kindAt l n = NeuronOverride.kindAt os (range.firstLayer + l) n := by
  obtain ⟨hplaces, hkind⟩ := addOverrides_eq_ok h
  refine ⟨hplaces, ?_⟩
  intro l n
  rw [hkind, Overrides.kindAt, OrderedMap.get?_empty, Option.none_or]

end RedundancyTest

end PiecewiseNet
