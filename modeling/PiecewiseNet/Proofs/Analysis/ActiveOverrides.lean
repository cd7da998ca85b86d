import PiecewiseNet.Proofs.Analysis.Preparation

/-!
# Neurons that put out their pre-activations

An override that makes a neuron put out its pre-activation drops the activation, and what read it
reads the pre-activation. The range is cut out first, though: if it severs the activation itself,
the pre-activation is dropped, what is left of the neuron is one input, and the override has nothing
to do.

## Main statements

- `RedundancyTest.modified_yields`: an overridden copy is what a test prepares.
- `RedundancyTest.active_reads_preactivation`: what reads an overridden neuron.
-/

namespace PiecewiseNet

namespace RedundancyTest

variable {α : Type} [Scalar α] {t : RedundancyTest α} {overrides : List NeuronOverride}
  {range : Option ClipRange} {a b : Arena α} {altered : Network}

/-- The overridden copy is the second network that a test prepares. -/
theorem modified_yields : (t.modified overrides range).Yields a altered b ↔
    ∃ base ov, (t.prepare overrides range).Yields a (base, altered, ov) b := by
  unfold modified
  simp only [Edit.yields_bind, Edit.yields_pure]
  constructor
  · rintro ⟨⟨base, _⟩, _, h, rfl, rfl⟩
    obtain ⟨ov, hov⟩ := modifiedPair_yields.1 h
    exact ⟨base, ov, hov⟩
  · rintro ⟨base, ov, h⟩
    exact ⟨(base, altered), b, modifiedPair_yields.2 ⟨ov, h⟩, rfl, rfl⟩

/-- In a copy with overrides, whatever is left of what read the activation of a neuron that puts out
its pre-activation reads the stand-in of the pre-activation, and the activation has no stand-in.
Only if the range severs the activation, it reads the input in place of the activation. -/
theorem active_reads_preactivation (hnet : t.network.Accepted a)
    (h : (t.modified overrides range).Yields a altered b) :
    ∃ f g : NodeId → NodeId, t.network.ClippedUnder (t.resolveRange range) a
        (NeuronOverride.kindAt overrides) f g altered b ∧
      ∀ o ∈ overrides, o.kind = .active → ∀ head tail,
        chainAt t.network.layers o.layer o.neuron = some [head, tail] →
        ∀ l n c id, o.layer < l → chainAt t.network.layers l n = some c → id ∈ c →
          a.Reads id tail → id ∈ (t.network.trimmed (t.resolveRange range)).nodes →
          f id ∈ altered.nodes →
          if o.layer = (t.resolveRange range).firstLayer ∧ (t.resolveRange range).firstCut = 1 then
            b.Reads (f id) (f tail) ∧ Network.IsFree b (f tail)
          else
            b.Reads (f id) (f head) ∧ f tail ∉ altered.nodes := by
  rw [Network.accepted_iff] at hnet
  obtain ⟨base, ov, hprepare⟩ := modified_yields.1 h
  obtain ⟨hfits, hnd⟩ := fits_of_relativeOverrides (prepare_yields.1 hprepare).1
  obtain ⟨f, g, hunder⟩ := clippedUnder_of_prepare hnet hprepare
  refine ⟨f, g, hunder, fun o ho hactive head tail hd l n c id hlater hc hidc ht hkept hmem => ?_⟩
  obtain ⟨-, -, hge, -⟩ := hfits o ho
  obtain ⟨k, hk⟩ := Nat.exists_eq_add_of_le hge
  have hkind : NeuronOverride.kindAt overrides o.layer o.neuron = some .active :=
    (NeuronOverride.kindAt_eq_some_iff hnd).2 ⟨o, ho, rfl, hactive⟩
  rw [hk] at hkind hd
  -- The reader lies in a later layer, so it is not severed, and the neuron is not cut at its end.
  obtain ⟨l', n', d, hl', hd', hidd⟩ := hunder.exists_keep hkept
  obtain ⟨rfl, -⟩ := Network.place_unique hnet.nodup hc hd' hidc
    ((Network.isInfix_keep _ _).subset hidd)
  have hnot := Network.not_isSevered_of_later (r := t.resolveRange range) hnet.nodup hc (by omega)
    hidc
  have hread := hunder.reads hkept hmem hnot ht
  have hinner : k + 1 < altered.layerCount := by omega
  split
  · rename_i hcut
    obtain ⟨hto, hfree⟩ := hunder.active_of_severed hkind hd hinner (by omega) hcut.2
    exact ⟨hto ▸ hread, hfree⟩
  · rename_i hcut
    obtain ⟨hto, hdropped⟩ := hunder.active_of_not_severed hkind hd hinner hnet.nodup
      fun hzero => hcut ⟨by omega, hzero.2⟩
    exact ⟨hto ▸ hread, hdropped⟩

/-- In the sample with an override of the first rectifier, the sum reads the pre-activation. -/
theorem active_reads_preactivation_sample :
    Network.sample.Accepted Arena.sample ∧ ∃ altered b, ∃ f : NodeId → NodeId,
      (sample.modified [⟨1, 0, .active⟩] none).Yields Arena.sample altered b ∧
        f 5 ∈ altered.nodes ∧ b.Reads (f 5) (f 1) ∧ f 2 ∉ altered.nodes := by
  have haccepted : Network.sample.Accepted Arena.sample := by rfl
  obtain ⟨altered, b, h⟩ : ∃ altered b,
      (sample.modified [⟨1, 0, .active⟩] none).Yields Arena.sample altered b := by
    rw [Edit.exists_yields_iff]
    decide +kernel
  obtain ⟨f, g, hunder, hreads⟩ := active_reads_preactivation haccepted h
  have hlayers : altered.layerCount = 3 := hunder.layerCount
  have hlast : chainAt altered.layers 2 0 = some [f 5] := by
    rw [hunder.chainAt_kept (d := [5]) (by omega) rfl rfl, hlayers]
    rfl
  have hmem : f 5 ∈ altered.nodes := Network.mem_nodes hlast (List.mem_singleton.2 rfl)
  have hread : Arena.sample.Reads 5 2 := by
    rw [Arena.reads_iff (by rfl)]
    decide
  exact ⟨haccepted, altered, b, f, h, hmem,
    hreads ⟨1, 0, .active⟩ (List.mem_singleton.2 rfl) rfl 1 2 rfl 2 0 [5] 5 (by decide) rfl
      (List.mem_singleton.2 rfl) hread (by decide) hmem⟩

/-- A test of one rectifier whose pre-activation may be negative. -/
def signed : RedundancyTest Rat :=
  ofMargin ⟨[[[0]], [[1, 2]], [[3]]]⟩ 1

/-- The nodes of the rectifier, with the bounds of its pre-activation and of its output. -/
def signedArena : Arena Rat :=
  ⟨#[{ kind := .plain, bounds := ⟨some (-2), some 2⟩, label := some "x" },
    { kind := .affine [(1, 0)] 0, bounds := ⟨some (-2), some 2⟩, label := some "b" },
    { kind := .relu 1 false, bounds := ⟨some 0, some 2⟩, label := some "f" },
    { kind := .affine [(1, 2)] 0, label := some "y" }]⟩

/-- Cut out behind its rectifier, the network reads a value that is not negative, and the override
of the rectifier changes the label of this input only. -/
theorem active_keeps_severed_activation :
    signed.network.Accepted signedArena ∧ signed.network.FreeAtInputs signedArena ∧
      ∃ altered b, (signed.modified [⟨1, 0, .active⟩]
          (some { firstLayer := 1, firstCut := 1 })).Yields signedArena altered b ∧
        altered.layers = [[[13]], [[12]]] ∧ Network.references b 12 = [13] ∧
        b.get? 13 = some ⟨.plain, ⟨some 0, some 2⟩, some "f_mod_bdr_active"⟩ := by
  refine ⟨by rfl, by decide, ?_⟩
  rw [Edit.exists_yields_and_iff]
  decide +kernel

end RedundancyTest

end PiecewiseNet
