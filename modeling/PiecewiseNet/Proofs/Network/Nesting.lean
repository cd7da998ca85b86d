import PiecewiseNet.Proofs.Network.Effects

/-!
# Parts of networks

A part of a network in which first nodes are dropped and free nodes stand for computed ones asks for
less than the network: what runs the network, or recomputes it with overrides, also does so with the
part. So an effect of overrides on what a range keeps is an effect on what a range with the same end
keeps that starts later, as long as the overrides lie behind its first layer.

## Main definitions

- `Network.Relaxes`: a part of a network asks for less.
- `ClipRange.fromStart`: the range with the same end that starts at the first layer.

## Main statements

- `Network.Relaxes.runsAt`, `Network.Relaxes.recomputes`: what a part asks for.
- `Network.chainAt_trimmed_fromStart`: the neurons of a range that starts later.
- `Network.Effect.of_fromStart`: an effect on the longer range is one on the shorter range.
-/

namespace PiecewiseNet

/-- The range with the same end that starts at the first nodes of the first layer. -/
def ClipRange.fromStart (r : ClipRange) : ClipRange :=
  { r with firstLayer := 0, firstCut := 0 }

namespace Network

variable {net : Network} {range : ClipRange} {a b : Arena Rat}
  {kinds : Nat → Nat → Option OverrideKind} {d : Direction} {index : Nat} {margin : Rat}
  {v w r : Valuation Rat} {id : NodeId}

/-! ## What parts ask for -/

/-- A node is as it was, or free within the bounds that it had. -/
def Loosened (a b : Arena Rat) (id : NodeId) : Prop :=
  ∃ m o, a.get? id = some m ∧ b.get? id = some o ∧ o.bounds = m.bounds ∧
    (o.kind = .plain ∨ o.kind = m.kind)

/-- The neurons of a part are neurons of a network, `k` layers further, but for some first nodes of
neurons without an override; and the nodes are loosened. -/
structure Relaxes (net : Network) (a : Arena Rat) (kinds : Nat → Nat → Option OverrideKind)
    (places : Nat → Nat → Prop) (k : Nat) (part : Network) (b : Arena Rat)
    (places' : Nat → Nat → Prop) : Prop where
  chain : ∀ l n c, places' l n → chainAt part.layers l n = some c →
    ∃ e, places (k + l) n ∧ chainAt net.layers (k + l) n = some e ∧ c <:+ e ∧
      (kinds (k + l) n = none ∨ c = e)
  node : ∀ id ∈ part.nodes, Loosened a b id

namespace Relaxes

variable {places places' : Nat → Nat → Prop} {k : Nat} {part : Network}
  (h : net.Relaxes a kinds places k part b places')

include h

theorem stays (hid : part.Stays (fun l n => kinds (k + l) n) places' id) :
    net.Stays kinds places id := by
  obtain ⟨l, n, c, hplace, hc, hmem, hkind⟩ := hid
  obtain ⟨e, hplace', he, hsuffix, hcases⟩ := h.chain l n c hplace hc
  refine ⟨k + l, n, e, hplace', he, hsuffix.subset hmem, ?_⟩
  rcases hcases with hnone | rfl
  · exact .inl hnone
  · exact hkind

/-- What recomputes the network recomputes the part. -/
theorem recomputes (hw : net.Recomputes a kinds places w r) :
    part.Recomputes b (fun l n => kinds (k + l) n) places' w r := by
  refine ⟨?_, ?_, ?_⟩
  · intro id hid
    obtain ⟨m, o, hm, ho, -, hcases⟩ := h.node id hid.mem_nodes
    have hvalue := hw.value_eq (h.stays hid) hm
    rcases hcases with hplain | hkind
    · exact ⟨o, ho, by rw [hplain, NodeKind.value_plain]⟩
    · exact ⟨o, ho, by rwa [hkind]⟩
  · intro l n c id hplace hc hid hnot
    obtain ⟨e, hplace', he, ⟨pre, rfl⟩, -⟩ := h.chain l n c hplace hc
    refine hw.read _ n _ id hplace' he (List.mem_append_right _ hid) (hnot.imp_right ?_)
    rw [List.getLast?_append_of_ne_nil _ (List.ne_nil_of_mem hid)]
    exact fun hlast => hlast
  · intro l n c kind head tail o hplace hc hkind hhead htail ho
    obtain ⟨e, hplace', he, -, hcases⟩ := h.chain l n c hplace hc
    obtain rfl : c = e := hcases.resolve_left (by rw [hkind]; exact Option.some_ne_none kind)
    obtain ⟨m, o', hm, ho', hbounds, -⟩ :=
      h.node tail (mem_nodes hc (List.mem_of_getLast? htail))
    obtain rfl : o = o' := by simpa [ho] using ho'
    rw [hbounds]
    exact hw.replaced _ n c kind head tail m hplace' he hkind hhead htail hm

theorem withinBounds (hw : net.WithinBounds a kinds places w) :
    part.WithinBounds b (fun l n => kinds (k + l) n) places' w := by
  intro id hid
  obtain ⟨m, o, hm, ho, hbounds, -⟩ := h.node id hid.mem_nodes
  exact ⟨o, ho, hbounds.symm ▸ hw.holds (h.stays hid) hm⟩

/-- What runs the network runs the part. -/
theorem runsAt (hv : net.RunsAt a places v) : part.RunsAt b places' v := by
  have hnone : net.Relaxes a (fun _ _ => none) places k part b places' := by
    refine ⟨?_, h.node⟩
    intro l n c hplace hc
    obtain ⟨e, hplace', he, hsuffix, -⟩ := h.chain l n c hplace hc
    exact ⟨e, hplace', he, hsuffix, .inl rfl⟩
  rw [runsAt_iff] at hv ⊢
  exact ⟨hnone.recomputes hv.1, hnone.withinBounds hv.2⟩

end Relaxes

/-- A network with some nodes freed asks for less. -/
theorem relaxes_freed (kinds : Nat → Nat → Option OverrideKind) {places places' : Nat → Nat → Prop}
    (hnet : net.WellFormed a) (hsub : ∀ l n, places' l n → places l n) (ids : List NodeId) :
    net.Relaxes a kinds places 0 net (a.freed ids) places' := by
  refine ⟨?_, ?_⟩
  · intro l n c hplace hc
    rw [Nat.zero_add]
    exact ⟨c, hsub l n hplace, hc, List.suffix_refl c, .inr rfl⟩
  · intro id hid
    obtain ⟨m, hm⟩ := Arena.exists_get? (hnet.held id hid)
    refine ⟨m, _, hm, by rw [Arena.get?_freed, hm, Option.map_some], ?_, ?_⟩
    · split <;> rfl
    · split
      · exact .inl rfl
      · exact .inr rfl

/-! ## Ranges that start later -/

section

variable (hfirst : range.firstLayer < range.resolveLast net.layerCount)
  (hlast : range.resolveLast net.layerCount < net.layerCount)

include hfirst hlast

theorem layerCount_trimmed_fromStart :
    (net.trimmed range.fromStart).layerCount =
      range.firstLayer + (net.trimmed range).layerCount := by
  have hcount : (net.trimmed range.fromStart).layerCount =
      range.resolveLast net.layerCount - 0 + 1 :=
    layerCount_trimmed (Nat.zero_lt_of_lt hfirst) hlast
  rw [hcount, layerCount_trimmed hfirst hlast]
  omega

/-- A range that starts later keeps the later layers as they are, but for the first one, of which it
drops the first nodes. -/
theorem chainAt_trimmed_fromStart (l n : Nat) :
    chainAt (net.trimmed range).layers l n =
      (chainAt (net.trimmed range.fromStart).layers (range.firstLayer + l) n).map fun c =>
        if l = 0 then c.drop range.firstCut else c := by
  have hlen : (net.keptLayers range.fromStart).length = range.resolveLast net.layerCount - 0 + 1 :=
    length_keptLayers (Nat.zero_le _) hlast
  rw [chainAt_trimmed, chainAt_trimmed, chainAt_keptLayers_eq, chainAt_keptLayers_eq,
    length_keptLayers hfirst.le hlast, hlen, Option.map_map]
  have hplace : range.fromStart.firstLayer + (range.firstLayer + l) = range.firstLayer + l :=
    Nat.zero_add _
  have hiff : range.firstLayer + l < range.fromStart.resolveLast net.layerCount -
      range.fromStart.firstLayer + 1 ↔
        l < range.resolveLast net.layerCount - range.firstLayer + 1 := by
    show range.firstLayer + l < range.resolveLast net.layerCount - 0 + 1 ↔ _
    omega
  rw [hplace]
  simp only [hiff]
  split
  · refine congrFun (congrArg Option.map ?_) _
    funext c
    -- The first kept layer is not the last one, so it is cut at one end only.
    have hdrop : (if range.firstLayer + l = 0 then c.drop 0 else c) = c := by
      rw [List.drop_zero, ite_self]
    show range.keep _ l c = if l = 0 then (range.fromStart.keep _ _ c).drop _ else _
    simp only [ClipRange.keep, ClipRange.fromStart, hdrop]
    by_cases hl : l = 0
    · subst hl
      rw [if_pos rfl, if_pos rfl, if_neg (by omega), if_neg (by omega)]
    · rw [if_neg hl, if_neg hl]
      refine if_congr ?_ rfl rfl
      omega
  · rfl

/-- The neurons of the shorter range are what is left of neurons of the longer one at the tail. -/
theorem exists_chainAt_fromStart {l n : Nat} {c : Chain}
    (hc : chainAt (net.trimmed range).layers l n = some c) :
    ∃ e, chainAt (net.trimmed range.fromStart).layers (range.firstLayer + l) n = some e ∧
      c <:+ e ∧ (0 < l → c = e) := by
  rw [chainAt_trimmed_fromStart hfirst hlast, Option.map_eq_some_iff] at hc
  obtain ⟨e, he, rfl⟩ := hc
  refine ⟨e, he, ?_, ?_⟩
  · split
    · exact List.drop_suffix ..
    · exact List.suffix_refl _
  · intro hl
    rw [if_neg (by omega)]

/-- An input of the longer range that the shorter one keeps is an input there too. -/
theorem mem_inputs_of_fromStart (hnd : net.nodes.Nodup) (hid : id ∈ (net.trimmed range).nodes)
    (hinput : id ∈ (net.trimmed range.fromStart).inputs) : id ∈ (net.trimmed range).inputs := by
  obtain ⟨l, n, c, hc, hmem⟩ := mem_nodes_iff.1 hid
  obtain ⟨e, he, ⟨pre, rfl⟩, -⟩ := exists_chainAt_fromStart hfirst hlast hc
  obtain ⟨n', e', he', hhead⟩ := mem_inputs_iff.1 hinput
  have hnd' : (net.trimmed range.fromStart).nodes.Nodup := nodup_trimmed hnd
  obtain ⟨hl, rfl, rfl⟩ :=
    place_unique hnd' he he' (List.mem_append_right _ hmem) (List.mem_of_head? hhead)
  obtain rfl : l = 0 := by omega
  refine mem_inputs_iff.2 ⟨n, c, hc, ?_⟩
  cases pre with
  | nil => exact hhead
  | cons i pre =>
    obtain rfl : i = id := Option.some.inj hhead
    have hnot := nodup_chainAt hnd' he
    rw [List.cons_append, List.nodup_cons] at hnot
    exact absurd (List.mem_append_right _ hmem) hnot.1

/-- The nodes of the shorter range have their bounds, and are freed or have their kind. -/
theorem loosened_fromStart (hnet : net.WellFormed a) (hsame : ∀ i ∈ net.nodes, b.get? i = a.get? i)
    (hid : id ∈ (net.trimmed range).nodes) :
    Loosened (a.freed (net.trimmed range.fromStart).inputs) (b.freed (net.trimmed range).inputs)
      id := by
  have hmem := nodes_trimmed_subset hid
  obtain ⟨n, hn⟩ := Arena.exists_get? (hnet.held id hmem)
  refine ⟨_, _, by rw [Arena.get?_freed, hn, Option.map_some],
    by rw [Arena.get?_freed, hsame id hmem, hn, Option.map_some], ?_, ?_⟩
  · split <;> split <;> rfl
  · by_cases hinput : id ∈ (net.trimmed range).inputs
    · rw [if_pos hinput]
      exact .inl rfl
    · rw [if_neg hinput, if_neg fun hmem =>
        hinput (mem_inputs_of_fromStart hfirst hlast hnet.nodup hid hmem)]
      exact .inr rfl

/-- A range that starts later asks for less, if there are no overrides in its first layer. -/
theorem relaxes_fromStart (index : Nat) (hnet : net.WellFormed a)
    (hsame : ∀ i ∈ net.nodes, b.get? i = a.get? i) (hkinds : ∀ n, kinds range.firstLayer n = none) :
    (net.trimmed range.fromStart).Relaxes (a.freed (net.trimmed range.fromStart).inputs) kinds
      ((net.trimmed range.fromStart).LeadsTo index) range.firstLayer (net.trimmed range)
      (b.freed (net.trimmed range).inputs) ((net.trimmed range).LeadsTo index) := by
  refine ⟨?_, fun id hid => loosened_fromStart hfirst hlast hnet hsame hid⟩
  intro l n c hplace hc
  obtain ⟨e, he, hsuffix, hpart⟩ := exists_chainAt_fromStart hfirst hlast hc
  refine ⟨e, ?_, he, hsuffix, ?_⟩
  · rw [LeadsTo, layerCount_trimmed_fromStart hfirst hlast]
    refine hplace.imp_left ?_
    intro hlt
    omega
  · rcases Nat.eq_zero_or_pos l with rfl | hpos
    · exact .inl (hkinds n)
    · exact .inr (hpart hpos)

end

/-- A range that cuts nothing off keeps the network. -/
theorem trimmed_eq_self (hne : net.layers ≠ []) (hfirst : range.firstLayer = 0)
    (hcut : range.firstCut = 0) (hend : range.resolveLast net.layerCount = net.layerCount - 1)
    (houtputs : ∀ layer ∈ net.layers.getLast?, ∀ c ∈ layer, c.length = 1) :
    net.trimmed range = net := by
  have hpos : 0 < net.layerCount := List.length_pos_iff.2 hne
  have hkept : net.keptLayers range = net.layers := by
    rw [keptLayers, hfirst, hend, List.drop_zero, List.take_of_length_le]
    show net.layerCount ≤ _
    omega
  have hlayers : (net.trimmed range).layers = net.layers := by
    refine layers_ext ?_ ?_
    · rw [trimmed, List.length_mapIdx, hkept]
    · intro l n
      rw [chainAt_trimmed, hkept]
      cases hc : chainAt net.layers l n with
      | none => rfl
      | some c =>
        have hkeep : range.keep net.layers.length l c = c := by
          simp only [ClipRange.keep, hcut, List.drop_zero, ite_self]
          split
          · rename_i hl
            obtain ⟨layer, hlayer, hn⟩ := chainAt_eq_some_iff.1 hc
            have hlast : net.layers.getLast? = some layer := by
              rw [List.getLast?_eq_getElem?, ← hl, Nat.add_sub_cancel, hlayer]
            have hone := houtputs layer hlast c (List.mem_of_getElem? hn)
            exact List.take_of_length_le (hone.trans_le (Nat.le_add_left 1 _))
          · rfl
        rw [Option.map_some, hkeep]
  rw [trimmed] at hlayers ⊢
  exact congrArg Network.mk hlayers

/-- An effect of overrides behind its first layer on a range that starts at the first layer is an
effect on the range that starts later. -/
theorem Effect.of_fromStart (hfirst : range.firstLayer < range.resolveLast net.layerCount)
    (hlast : range.resolveLast net.layerCount < net.layerCount) (hnet : net.WellFormed a)
    (hfree : net.FreeAtInputs a) (hearlier : net.ReadsEarlier a)
    (hwell : (net.trimmed range.fromStart).WellFormed
      (a.freed (net.trimmed range.fromStart).inputs))
    (hsame : ∀ i ∈ net.nodes, b.get? i = a.get? i)
    (hkinds : ∀ l n, l ≤ range.firstLayer → kinds l n = none)
    (h : (net.trimmed range.fromStart).Effect (a.freed (net.trimmed range.fromStart).inputs) kinds d
      index margin v w r) :
    (net.trimmed range).Effect (b.freed (net.trimmed range).inputs)
      (fun l n => kinds (range.firstLayer + l) n) d index margin v w r := by
  have hshift : ∀ k e l : Nat, k + e < k + l → e < l := fun k e l => Nat.lt_of_add_lt_add_left
  have hcount := layerCount_trimmed_fromStart hfirst hlast
  have htwo := layerCount_trimmed hfirst hlast
  have hzero : ∀ n, kinds range.firstLayer n = none := fun n => hkinds _ n (Nat.le_refl _)
  have hrelaxes := relaxes_fromStart hfirst hlast index hnet hsame hzero
  refine ⟨hrelaxes.runsAt h.runs, hrelaxes.recomputes h.recomputes,
    hrelaxes.withinBounds h.bounds, ?_, ?_⟩
  · -- Up to its first layer the overrides change nothing.
    have hkinds' : ∀ l n, l < range.firstLayer + 1 → kinds l n = none := fun l n hl =>
      hkinds l n (Nat.le_of_lt_succ hl)
    have hbefore := h.recomputes.eq_of_runsAt h.runs hwell
      (readsFrom_trimmed hshift hnet.nodup hearlier hwell.closed) (initial_leadsTo _ index) hkinds'
      fun id hid hplain =>
        List.map_inj_left.1 h.inputs id ((isFree_trimmed_iff hnet hfree hid).1 hplain)
    refine List.map_congr_left ?_
    intro id hid
    obtain ⟨n, c, hc, hhead⟩ := mem_inputs_iff.1 hid
    obtain ⟨e, he, hsuffix, -⟩ := exists_chainAt_fromStart hfirst hlast hc
    exact hbefore _ n e id (Nat.lt_succ_self _) (.inl (by omega)) he
      (hsuffix.subset (List.mem_of_head? hhead))
  · obtain ⟨o, ho, hgap⟩ := h.moved
    refine ⟨o, ?_, hgap⟩
    obtain ⟨e, he, hlaste⟩ := (output_eq_ok_iff hwell.layers_ne_nil).1 ho
    have hne : (net.trimmed range).layers ≠ [] := by
      rw [← List.length_pos_iff]
      exact Nat.lt_of_lt_of_eq (Nat.succ_pos _) htwo.symm
    refine (output_eq_ok_iff hne).2 ⟨e, ?_, hlaste⟩
    have hplace : (net.trimmed range.fromStart).layerCount - 1 =
        range.firstLayer + ((net.trimmed range).layerCount - 1) := by omega
    rw [chainAt_trimmed_fromStart hfirst hlast, ← hplace, he, Option.map_some, if_neg (by omega)]

end Network

end PiecewiseNet
