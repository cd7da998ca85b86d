import PiecewiseNet.Proofs.Network.AlteredRuns
import PiecewiseNet.Proofs.Network.Twins

/-!
# Effects of overrides

A network and the network with overrides, recomputed on the same inputs, differ at an output.

## Main definitions

- `Network.Effect`: overrides move an output by a margin.

## Main statements

- `Network.Twins.exists_effect_iff`: runs of two copies, one of them with overrides, that differ at
  an output are such an effect on the network that was copied.
-/

namespace PiecewiseNet

namespace Network

variable {net base twin altered : Network} {a b c : Arena Rat}
  {kinds : Nat → Nat → Option OverrideKind} {ov : Overrides} {table : Substitution} {d : Direction}
  {index : Nat} {margin : Rat} {v w r : Valuation Rat}

/-- The network runs with the values `v`. With overrides it is recomputed on the same inputs with
the values `w`, and `r` are the values that are read; all nodes that stay keep their bounds, and the
output moves by the margin. The other output neurons do not count. -/
structure Effect (net : Network) (a : Arena Rat) (kinds : Nat → Nat → Option OverrideKind)
    (d : Direction) (index : Nat) (margin : Rat) (v w r : Valuation Rat) : Prop where
  runs : net.RunsAt a (net.LeadsTo index) v
  recomputes : net.Recomputes a kinds (net.LeadsTo index) w r
  bounds : net.WithinBounds a kinds (net.LeadsTo index) w
  inputs : net.inputs.map w = net.inputs.map v
  moved : ∃ o, net.output (α := Rat) index = .ok o ∧ margin ≤ d.gap (v o) (r o)

theorem leadsTo_congr {net' : Network} (h : net'.layerCount = net.layerCount) (index : Nat) :
    net'.LeadsTo index = net.LeadsTo index := by
  funext l n
  rw [LeadsTo, LeadsTo, h]

/-- Of two copies of a network one is overridden. Runs of both on the same inputs that differ at an
output are an effect of the overrides on the network. -/
theorem Twins.exists_effect_iff {near : Nat → Nat → Prop} {f g : NodeId → NodeId}
    (h : base.Twins twin near g c) (hcopy : net.Copy a f twin c) (hnet : net.WellFormed a)
    (hnear : ∀ e l, near e l → e < l) (halt : twin.Altered c ov altered b table) {o' m : NodeId}
    (ho' : base.output (α := Rat) index = .ok o') (hm : altered.output (α := Rat) index = .ok m)
    (x : List Rat) :
    (∃ v u, base.RunsAt b (base.LeadsTo index) v ∧ altered.RunsAt b (altered.LeadsTo index) u ∧
        base.inputs.map v = x ∧ altered.inputs.map u = x ∧ margin ≤ d.gap (v o') (u m)) ↔
      ∃ v w r, net.Effect a ov.kindAt d index margin v w r ∧ net.inputs.map v = x := by
  have hbase := (hcopy.trans h.copy).of_get?_eq (fun _ _ => rfl) (h.get?_base halt)
  have hne := hnet.layers_ne_nil
  have hcount : altered.layerCount = net.layerCount := Eq.trans halt.length hcopy.layerCount_eq
  have halteredNe : altered.layers ≠ [] := by
    rw [← List.length_pos_iff] at hne ⊢
    exact Nat.lt_of_lt_of_eq hne hcount.symm
  -- The output of the network, and where it lies in the two others.
  obtain ⟨e, he, hlast⟩ := (output_eq_ok_iff (hbase.layers_ne_nil hne)).1 ho'
  obtain ⟨e, hat, rfl⟩ := hbase.exists_chainAt_last he
  rw [List.getLast?_map, Option.map_eq_some_iff] at hlast
  obtain ⟨o, ho, rfl⟩ := hlast
  have hout : net.output (α := Rat) index = .ok o := (output_eq_ok_iff hne).2 ⟨e, hat, ho⟩
  have hattwin : chainAt twin.layers (net.layerCount - 1) index = some (e.map f) := by
    rw [hcopy.chainAt_eq, hat, Option.map_some]
  obtain ⟨e', hat', hlast'⟩ := (output_eq_ok_iff halteredNe).1 hm
  rw [hcount] at hat'
  obtain rfl : m = table.apply (f o) := by
    have htail : (e.map f).getLast? = some (f o) := by rw [List.getLast?_map, ho, Option.map_some]
    exact Option.some.inj
      (hlast'.symm.trans (halt.getLast?_eq h.wellFormed.nodup hattwin hat' htail))
  have hearlier : twin.ReadsEarlier c := by
    intro l k id hid s hs
    rcases h.readsFrom l k id hid s hs with hown | ⟨l', k', hl', hlies⟩
    · exact .inl hown
    · exact .inr ⟨l', k', hnear l' l hl', hlies⟩
  have hmem := List.mem_of_getLast? ho
  have hnode := mem_nodes hat hmem
  have hplaces : twin.Initial (net.LeadsTo index) := by
    rw [← leadsTo_congr hcopy.layerCount_eq]
    exact initial_leadsTo twin index
  have hruns : ∀ y, (∃ v, base.RunsAt b (net.LeadsTo index) v ∧ base.inputs.map v = x ∧
      v (g (f o)) = y) ↔ ∃ v, net.RunsAt a (net.LeadsTo index) v ∧ net.inputs.map v = x ∧
        v o = y := fun y => hbase.exists_runsAt_iff hnet hnode
  have halters : ∀ z, (∃ u, altered.RunsAt b (net.LeadsTo index) u ∧ altered.inputs.map u = x ∧
      u (table.apply (f o)) = z) ↔ ∃ w r, net.Recomputes a ov.kindAt (net.LeadsTo index) w r ∧
        net.WithinBounds a ov.kindAt (net.LeadsTo index) w ∧ net.inputs.map w = x ∧ r o = z := by
    intro z
    exact (halt.exists_runsAt_iff h.wellFormed hearlier hplaces (.inr rfl) hattwin
      (List.mem_map_of_mem hmem)).trans (hcopy.exists_recomputes_iff hnet hnode)
  rw [leadsTo_congr hbase.layerCount_eq, leadsTo_congr hcount]
  constructor
  · rintro ⟨v, u, hv, hu, hxv, hxu, hgap⟩
    obtain ⟨v', hv', hxv', hy⟩ := (hruns _).1 ⟨v, hv, hxv, rfl⟩
    obtain ⟨w, r, hw, hbounds, hxw, hz⟩ := (halters _).1 ⟨u, hu, hxu, rfl⟩
    exact ⟨v', w, r, ⟨hv', hw, hbounds, hxw.trans hxv'.symm, o, hout, by rwa [hy, hz]⟩, hxv'⟩
  · rintro ⟨v, w, r, ⟨hv, hw, hbounds, hinputs, o₁, ho₁, hgap⟩, hxv⟩
    obtain rfl : o = o₁ := Except.ok.inj (hout.symm.trans ho₁)
    obtain ⟨v', hv', hxv', hy⟩ := (hruns _).2 ⟨v, hv, hxv, rfl⟩
    obtain ⟨u, hu, hxu, hz⟩ := (halters _).2 ⟨w, r, hw, hbounds, hinputs.trans hxv, rfl⟩
    exact ⟨v', u, hv', hu, hxv', hxu, by rwa [hy, hz]⟩

end Network

end PiecewiseNet
