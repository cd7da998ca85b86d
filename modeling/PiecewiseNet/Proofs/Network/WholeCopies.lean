import PiecewiseNet.Proofs.Network.ClippedValues
import PiecewiseNet.Proofs.Network.Nesting
import PiecewiseNet.Proofs.Network.Whole

/-!
# Whole copies

The position behind which a range cuts the neurons of its last layer counts from the front, so the
default range, and every range that reaches the output layer, keeps of each output neuron its first
node. What is kept is the whole network exactly when the output neurons are single nodes. Otherwise
the outputs of what is kept are the pre-activations of the outputs.

## Main definitions

- `Network.LoneOutputs`: the output neurons are single nodes.
- `Network.chainLengths`: the layers, with the number of nodes of each neuron.
- `Network.outputHeads`: the first nodes of the output neurons.
- `Network.keptOutput`: what ranges that reach the output layer keep of an output neuron.

## Main statements

- `Network.WellFormed.determined`: the value of a node is settled by those of the free nodes that it
  depends on.
- `Network.WellFormed.eq_compute`: values that respect a network are those computed from its free
  nodes.
- `Network.outputs_of_whole_copy`: what the outputs of a copy of the whole network compute.
- `Network.whole_copy_iff`: when the default range keeps the whole network, and what ranges that
  reach the output layer keep of it.
-/

namespace PiecewiseNet

variable {α : Type}

namespace Network

variable {net net' : Network} {r : ClipRange} {a b : Arena α} {f : NodeId → NodeId} {id : NodeId}

/-! ## Output neurons -/

/-- The output neurons are single nodes. -/
def LoneOutputs (net : Network) : Prop :=
  ∀ layer ∈ net.layers.getLast?, ∀ c ∈ layer, c.length = 1

/-- The layers, with the number of nodes of each neuron. -/
def chainLengths (net : Network) : List (List Nat) :=
  net.layers.map (List.map List.length)

/-- The first nodes of the output neurons. -/
def outputHeads (net : Network) : List NodeId :=
  (net.layers.getLast?.getD []).filterMap List.head?

/-- The output neurons, by their index. -/
theorem getElem?_lastLayer (net : Network) (n : Nat) :
    (net.layers.getLast?.getD [])[n]? = chainAt net.layers (net.layerCount - 1) n := by
  rw [chainAt_eq_getElem?_getD, layerCount, List.getLast?_eq_getElem?]

theorem loneOutputs_iff : net.LoneOutputs ↔
    ∀ n c, chainAt net.layers (net.layerCount - 1) n = some c → c.length = 1 := by
  have hlast : net.LoneOutputs ↔ ∀ c ∈ net.layers.getLast?.getD [], c.length = 1 := by
    rw [LoneOutputs]
    cases net.layers.getLast? <;> simp
  simp only [hlast, List.mem_iff_getElem?, getElem?_lastLayer, forall_exists_index]
  exact forall_comm

theorem mem_outputHeads_iff : id ∈ net.outputHeads ↔
    ∃ n c, chainAt net.layers (net.layerCount - 1) n = some c ∧ c.head? = some id := by
  rw [outputHeads, List.mem_filterMap]
  simp only [List.mem_iff_getElem?, getElem?_lastLayer]
  exact ⟨fun ⟨c, ⟨n, hc⟩, hid⟩ => ⟨n, c, hc, hid⟩, fun ⟨n, c, hc, hid⟩ => ⟨c, ⟨n, hc⟩, hid⟩⟩

/-- The only node of an output neuron is its first and its last one. -/
theorem LoneOutputs.outputHeads_eq (h : net.LoneOutputs) : net.outputHeads = net.outputs := by
  refine List.filterMap_congr fun c hc => ?_
  obtain ⟨n, hn⟩ := List.mem_iff_getElem?.1 hc
  rw [getElem?_lastLayer] at hn
  obtain ⟨id, rfl⟩ := List.length_eq_one_iff.1 (loneOutputs_iff.1 h n c hn)
  rfl

theorem getElem?_chainLengths (net : Network) (l n : Nat) :
    net.chainLengths[l]?.bind (·[n]?) = (chainAt net.layers l n).map List.length := by
  rw [chainLengths, chainAt, List.getElem?_map]
  cases net.layers[l]? <;> simp

/-! ## Values that respect a network -/

section

variable [Scalar α] {v w : Valuation α}

/-- Computed values respect a network. -/
theorem WellFormed.respects_compute (hnet : net.WellFormed a) (v : Valuation α)
    (hid : id ∈ net.nodes) : a.Respects (a.compute net.nodes v) id := by
  obtain ⟨n, hn⟩ := Arena.exists_get? (hnet.held id hid)
  refine ⟨n, hn, ?_⟩
  have hvalue := hnet.compute_eq v hid hn
  cases hkind : n.kind with
  | plain => rfl
  | affine terms bias => rw [hvalue, hkind]; rfl
  | relu input relaxed => rw [hvalue, hkind]; rfl
  | abs input => rw [hvalue, hkind]; rfl

/-- Free nodes keep their values. -/
theorem WellFormed.compute_of_isFree (hnet : net.WellFormed a) (v : Valuation α)
    (hid : id ∈ net.nodes) (hfree : IsFree a id) : a.compute net.nodes v id = v id := by
  obtain ⟨n, hn, hkind⟩ := hfree
  rw [hnet.compute_eq v hid hn, hkind]
  rfl

/-- The value of a node is settled by those of the free nodes that it depends on. -/
theorem WellFormed.determined (hnet : net.WellFormed a)
    (hv : ∀ id ∈ net.nodes, a.Respects v id) (hw : ∀ id ∈ net.nodes, a.Respects w id)
    (hid : id ∈ net.nodes)
    (hfree : ∀ j ∈ net.nodes, IsFree a j → a.DependsOn id j → w j = v j) : w id = v id := by
  have hall : ∀ id ∈ net.nodes, id ∈ net.nodes →
      (∀ j ∈ net.nodes, IsFree a j → a.DependsOn id j → w j = v j) → w id = v id := by
    refine hnet.induction fun id hid ih _ hfree => ?_
    obtain ⟨n, hn, hvalue⟩ := hv id hid
    obtain ⟨m, hm, hvalue'⟩ := hw id hid
    obtain rfl : n = m := Option.some.inj (hn.symm.trans hm)
    have hrefs : ∀ t ∈ n.kind.references, w t = v t := by
      intro t ht
      have hread : a.Reads id t := (Arena.reads_iff hn).2 ht
      exact ih t hread (hnet.closed id hid t hread) fun j hj hjfree hdep =>
        hfree j hj hjfree (.head hread hdep)
    rw [hvalue', hvalue, NodeKind.value_congr hrefs]
    cases hkind : n.kind with
    | plain => exact hfree id hid ⟨n, hn, hkind⟩ .refl
    | affine terms bias => rfl
    | relu input relaxed => rfl
    | abs input => rfl
  exact hall id hid hid hfree

/-- Values that respect a network are those computed from its free nodes. -/
theorem WellFormed.eq_compute (hnet : net.WellFormed a) (hv : ∀ id ∈ net.nodes, a.Respects v id)
    (hfree : ∀ id ∈ net.nodes, IsFree a id → w id = v id) :
    ∀ id ∈ net.nodes, a.compute net.nodes w id = v id := by
  intro id hid
  refine hnet.determined hv (fun id => hnet.respects_compute w) hid fun j hj hjfree _ => ?_
  rw [hnet.compute_of_isFree w hj hjfree, hfree j hj hjfree]

end

/-! ## The default range -/

/-- A network stays well-formed when nodes are freed: they read less. -/
theorem WellFormed.freed (hnet : net.WellFormed a) (ids : List NodeId) :
    net.WellFormed (a.freed ids) := by
  refine ⟨hnet.layers_ne_nil, hnet.chains_ne_nil, ?_, hnet.nodup, ?_, ?_, ?_⟩
  · intro id hid
    rw [Arena.size_freed]
    exact hnet.held id hid
  · exact fun id hid t ht => hnet.closed id hid t (Arena.reads_freed_iff.1 ht).2
  · exact fun id hid hself => hnet.irrefl id hid (Arena.reads_freed_iff.1 hself).2
  · exact hnet.ordered.imp fun hnot hread => hnot (Arena.reads_freed_iff.1 hread).2

/-- Of a network with single output nodes the default range keeps everything. -/
theorem LoneOutputs.trimmed_eq (h : net.LoneOutputs) (hne : net.layers ≠ []) :
    net.trimmed {} = net :=
  trimmed_eq_self hne rfl rfl rfl h

theorem outputs_trimmed_whole (hne : net.layers ≠ []) :
    (net.trimmed {}).outputs = net.outputHeads := by
  have hcount : (net.trimmed {}).layerCount = net.layerCount := by
    rw [layerCount, trimmed, List.length_mapIdx, keptLayers_whole hne, layerCount]
  have hpos : 0 < net.layerCount := List.length_pos_iff.2 hne
  have hlast : (net.trimmed {}).layers.getLast?.getD [] =
      (net.layers.getLast?.getD []).map (List.take 1) := by
    refine List.ext_getElem? fun n => ?_
    rw [List.getElem?_map, getElem?_lastLayer, getElem?_lastLayer, hcount,
      chainAt_trimmed_whole hne]
    simp only [if_pos (Nat.sub_add_cancel hpos)]
  rw [outputs, hlast, List.filterMap_map, outputHeads]
  refine List.filterMap_congr fun c _ => ?_
  cases c <;> rfl

theorem inputs_trimmed_whole (hcount : 2 ≤ net.layerCount) :
    (net.trimmed {}).inputs = net.inputs := by
  have hne : net.layers ≠ [] := List.length_pos_iff.1 (Nat.zero_lt_of_lt hcount)
  have hshort : ¬0 + 1 = net.layerCount := by omega
  have hheads : (net.trimmed {}).inputs = net.inputs.map fun id => id := inputs_eq_map fun n => by
    rw [chainAt_trimmed_whole hne]
    simp [hshort]
  rwa [List.map_id'] at hheads

/-- With single output nodes a copy of the whole network can be made. -/
theorem LoneOutputs.exists_duplicateAndClip (h : net.LoneOutputs) (hnet : net.WellFormed a)
    (hcount : 2 ≤ net.layerCount) (suffix : String) :
    ∃ net' b, (net.duplicateAndClip {} suffix).Yields a net' b := by
  obtain ⟨dup, b, hdup⟩ := exists_duplicate suffix hnet
  obtain ⟨f, hcopy, -, -, hdupwell⟩ := duplicate_yields hdup hnet.nodup hnet.held
  have hkept : (net.trimmed {}).WellFormed (a.freed (net.trimmed {}).inputs) := by
    rw [h.trimmed_eq hnet.layers_ne_nil]
    exact hnet.freed _
  obtain ⟨net', c, hclip⟩ := exists_clip_whole hdupwell ((hcopy.trimmed {}).wellFormed hkept)
  have hrange : ¬ClipRange.resolveLast {} net.layerCount ≤ ({} : ClipRange).firstLayer := by
    show ¬net.layerCount - 1 ≤ 0
    omega
  refine ⟨net', c, ?_⟩
  unfold duplicateAndClip
  dsimp only
  rw [if_neg hrange]
  exact Edit.yields_bind.2 ⟨dup, b, hdup, hclip⟩

/-- A copy computes the values of the original node by node. -/
theorem Copy.compute_apply [Scalar α] (h : net.Copy a f net' b) (hnet : net.WellFormed a)
    {v w : Valuation α} (hfree : ∀ id ∈ net.nodes, IsFree a id → w (f id) = v id) :
    ∀ id ∈ net.nodes, b.compute net'.nodes w (f id) = a.compute net.nodes v id := by
  have hall := h.compute_eq hnet hfree
  rwa [h.nodes_eq, List.map_map, ← h.nodes_eq, List.map_inj_left] at hall

/-- From the values that the inputs have in the network, a copy of the whole network computes at its
outputs what the network computes at the first nodes of its output neurons. -/
theorem outputs_of_whole_copy [Scalar α] {suffix : String} (hnet : net.WellFormed a)
    (hfree : net.FreeAtInputs a) (hcount : 2 ≤ net.layerCount)
    (h : (net.duplicateAndClip {} suffix).Yields a net' b) {v w : Valuation α}
    (hinputs : net'.inputs.map w = net.inputs.map (a.compute net.nodes v)) :
    net'.outputs.map (b.compute net'.nodes w) =
      net.outputHeads.map (a.compute net.nodes v) := by
  obtain ⟨f, hcopy, -, -, hkept, -, -⟩ := duplicateAndClip_yields h hnet
  have hsame : (net.trimmed {}).inputs = net.inputs := inputs_trimmed_whole hcount
  -- With the inputs freed, the values of the network still respect what is kept.
  have hrespects : ∀ id ∈ (net.trimmed {}).nodes,
      (a.freed (net.trimmed {}).inputs).Respects (a.compute net.nodes v) id := by
    intro id hid
    have hmem := nodes_trimmed_subset hid
    by_cases hinput : id ∈ (net.trimmed {}).inputs
    · exact Arena.respects_of_isFree
        ((Arena.isFree_freed_iff (hnet.held id hmem)).2 (.inl hinput))
    · have hget : (a.freed (net.trimmed {}).inputs).get? id = a.get? id := by
        rw [Arena.get?_freed]
        simp [hinput]
      exact (Arena.respects_of_get?_eq hget).2 (hnet.respects_compute v hmem)
  have hfrom : ∀ id ∈ (net.trimmed {}).nodes, IsFree (a.freed (net.trimmed {}).inputs) id →
      w (f id) = a.compute net.nodes v id := by
    intro id hid hidfree
    have hinput := (isFree_trimmed_iff hnet hfree hid).1 hidfree
    rw [hcopy.inputs_eq, hsame, List.map_map, List.map_inj_left] at hinputs
    exact hinputs id (hsame ▸ hinput)
  have hvalues := hcopy.compute_apply hkept hfrom
  have hcomputed := hkept.eq_compute hrespects fun _ _ _ => rfl
  rw [hcopy.outputs_eq, outputs_trimmed_whole hnet.layers_ne_nil, List.map_map]
  refine List.map_congr_left fun id hid => ?_
  have hkeptid : id ∈ (net.trimmed {}).nodes :=
    outputs_subset_nodes (outputs_trimmed_whole hnet.layers_ne_nil ▸ hid)
  exact (hvalues id hkeptid).trans (hcomputed id hkeptid)

/-! ## Ranges that reach the output layer -/

/-- A range that reaches the output layer ends there, and cuts behind the first nodes. -/
theorem eq_of_reachesOutput (h : r.reachesOutput (α := α) net.layerCount = .ok true) :
    r.resolveLast net.layerCount + 1 = net.layerCount ∧ r.lastCut = 0 := by
  unfold ClipRange.reachesOutput nextIndex at h
  split at h
  · cases h
  · rename_i next hnext
    split at hnext
    · obtain rfl := Except.ok.inj hnext
      simpa using Except.ok.inj h
    · cases hnext

/-- What a range that reaches the output layer keeps of an output neuron: one node, which is the
first one unless the range also begins in this layer. -/
def keptOutput (net : Network) (r : ClipRange) (c : Chain) : Chain :=
  (if r.firstLayer < r.resolveLast net.layerCount then c else c.drop r.firstCut).take 1

theorem keptOutput_eq_take (hfirst : r.firstLayer < r.resolveLast net.layerCount) :
    net.keptOutput r = List.take 1 := by
  funext c
  rw [keptOutput, if_pos hfirst]

section

variable (hfirst : r.firstLayer ≤ r.resolveLast net.layerCount)
  (hend : r.resolveLast net.layerCount + 1 = net.layerCount) (hcut : r.lastCut = 0)

include hfirst hend hcut

theorem chainAt_trimmed_last (n : Nat) :
    chainAt (net.trimmed r).layers ((net.trimmed r).layerCount - 1) n =
      (chainAt net.layers (net.layerCount - 1) n).map (net.keptOutput r) := by
  have hlen : (net.keptLayers r).length = r.resolveLast net.layerCount - r.firstLayer + 1 :=
    length_keptLayers hfirst (by omega)
  have hcount : (net.trimmed r).layerCount - 1 = r.resolveLast net.layerCount - r.firstLayer := by
    rw [layerCount, trimmed, List.length_mapIdx, hlen, Nat.add_sub_cancel]
  have hlayer : r.firstLayer + (r.resolveLast net.layerCount - r.firstLayer) =
      net.layerCount - 1 := by omega
  have hkeep : r.keep (net.keptLayers r).length
      (r.resolveLast net.layerCount - r.firstLayer) = net.keptOutput r := by
    funext c
    simp only [ClipRange.keep, hlen, hcut, if_true, keptOutput]
    by_cases hlt : r.firstLayer < r.resolveLast net.layerCount
    · rw [if_pos hlt, if_neg (by omega)]
    · rw [if_neg hlt, if_pos (by omega)]
  rw [hcount, chainAt_trimmed, chainAt_keptLayers_of_lt (by omega), hlayer, hkeep]

variable (h : (net.trimmed r).Copy (a.freed (net.trimmed r).inputs) f net' b)

include h

theorem Copy.chainAt_last (n : Nat) :
    chainAt net'.layers (net'.layerCount - 1) n =
      (chainAt net.layers (net.layerCount - 1) n).map fun c => (net.keptOutput r c).map f := by
  rw [h.layerCount_eq, h.chainAt_eq, chainAt_trimmed_last hfirst hend hcut, Option.map_map]
  rfl

/-- Behind other layers the first nodes of the output neurons are not severed, so they are copied as
they are. -/
theorem Copy.mirrors_outputHead (hlt : r.firstLayer < r.resolveLast net.layerCount)
    (hnd : net.nodes.Nodup) (hid : id ∈ net.outputHeads) : a.Mirrors b f id := by
  obtain ⟨n, c, hc, hhead⟩ := mem_outputHeads_iff.1 hid
  have hlen : (net.keptLayers r).length = r.resolveLast net.layerCount - r.firstLayer + 1 :=
    length_keptLayers hfirst (by omega)
  obtain ⟨rest, rfl⟩ := List.head?_eq_some_iff.1 hhead
  have hat := chainAt_trimmed_last hfirst hend hcut n
  rw [hc, Option.map_some, keptOutput_eq_take hlt] at hat
  have hnot : id ∉ (net.trimmed r).inputs := fun hinput =>
    not_isSevered_of_later hnd hc (by omega) (List.mem_cons_self ..)
      ((mem_inputs_trimmed_iff_isSevered (by omega)).1 hinput)
  refine (h.mirrors id (Network.mem_nodes hat (List.mem_cons_self ..))).of_get?_eq ?_ rfl
  rw [Arena.get?_freed]
  simp [hnot]

/-- Where the output layer is the only one that is kept, all that is kept is severed. -/
theorem Copy.isFree_of_lone_layer (hlt : ¬r.firstLayer < r.resolveLast net.layerCount) :
    ∀ id ∈ net'.nodes, IsFree b id := by
  intro id hid
  obtain ⟨l, n, c, hc, hidc⟩ := mem_nodes_iff.1 hid
  have hcount : (net.trimmed r).layerCount = 1 := by
    rw [layerCount, Network.trimmed, List.length_mapIdx, length_keptLayers hfirst (by omega)]
    omega
  have hl := lt_layerCount hc
  rw [h.layerCount_eq, hcount] at hl
  obtain rfl : l = 0 := by omega
  rw [h.chainAt_eq, Option.map_eq_some_iff] at hc
  obtain ⟨d, hd, rfl⟩ := hc
  obtain ⟨i, hi, rfl⟩ := List.mem_map.1 hidc
  have hlast := chainAt_trimmed_last hfirst hend hcut n
  rw [hcount, Nat.sub_self, hd] at hlast
  obtain ⟨e, -, rfl⟩ := Option.map_eq_some_iff.1 hlast.symm
  -- Of the neuron one node is kept, which is its head.
  have hhead : (net.keptOutput r e).head? = some i := by
    rw [keptOutput] at hi ⊢
    cases hdrop : if r.firstLayer < r.resolveLast net.layerCount then e else e.drop r.firstCut with
    | nil => simp [hdrop] at hi
    | cons j rest =>
      rw [hdrop, List.take_succ_cons, List.take_zero, List.mem_singleton] at hi
      rw [hi]
      rfl
  have hinput : i ∈ (net.trimmed r).inputs := mem_inputs_iff.2 ⟨n, _, hd, hhead⟩
  obtain ⟨n₀, m, hn₀, hm, hkind, -⟩ := h.mirrors i (Network.mem_nodes hd hi)
  obtain ⟨k, hk, -, ⟨-, hplain⟩ | ⟨hnot, -⟩⟩ := Arena.exists_of_get?_freed hn₀
  · exact ⟨m, hm, by rw [hkind, hplain]; rfl⟩
  · exact absurd hinput hnot

end

/-- A clipped network and a clipped copy are copies of what the range keeps. -/
theorem exists_copy_trimmed {suffix : String} (hnet : net.WellFormed a)
    (h : (net.clip r).Yields a net' b ∨ (net.duplicateAndClip r suffix).Yields a net' b) :
    (∃ f, (net.trimmed r).Copy (a.freed (net.trimmed r).inputs) f net' b) ∧ net'.WellFormed b := by
  rcases h with hclip | hboth
  · obtain ⟨f, hcopy, -, -, -, -, hwell, -⟩ := clip_yields hclip hnet.nodup hnet.held
    exact ⟨⟨f, hcopy⟩, hwell⟩
  · obtain ⟨f, hcopy, -, -, -, hwell, -⟩ := duplicateAndClip_yields hboth hnet
    exact ⟨⟨f, hcopy⟩, hwell⟩

/-- Something is kept, so the range does not begin behind the output layer. -/
theorem Copy.firstLayer_le (h : (net.trimmed r).Copy (a.freed (net.trimmed r).inputs) f net' b)
    (hwell : net'.WellFormed b) (hend : r.resolveLast net.layerCount + 1 = net.layerCount) :
    r.firstLayer ≤ r.resolveLast net.layerCount := by
  have hpos : 0 < (net.keptLayers r).length := by
    have hcount := h.layerCount_eq
    rw [layerCount, layerCount, Network.trimmed, List.length_mapIdx] at hcount
    exact hcount ▸ List.length_pos_iff.2 hwell.layers_ne_nil
  have hlen : net.layers.length = net.layerCount := rfl
  rw [keptLayers, List.length_take, List.length_drop] at hpos
  omega

/-- Output neurons of which one node is kept are whole exactly when they are single nodes. -/
theorem loneOutputs_iff_whole (hwell : net'.WellFormed b)
    (hlast : ∀ n, chainAt net'.layers (net'.layerCount - 1) n =
      (chainAt net.layers (net.layerCount - 1) n).map fun c => (net.keptOutput r c).map f) :
    net.LoneOutputs ↔ ∀ n, (chainAt net'.layers (net'.layerCount - 1) n).map List.length =
      (chainAt net.layers (net.layerCount - 1) n).map List.length := by
  rw [loneOutputs_iff]
  refine forall_congr' fun n => ?_
  cases hc : chainAt net.layers (net.layerCount - 1) n with
  | none => simp [hlast, hc]
  | some c =>
    have hat := hlast n
    rw [hc, Option.map_some] at hat
    have hpos := List.length_pos_iff.2 (hwell.chains_ne_nil _ n _ hat)
    have hone : ((net.keptOutput r c).map f).length = 1 := by
      refine Nat.le_antisymm ?_ hpos
      rw [List.length_map]
      exact List.length_take_le 1 _
    rw [hat, Option.map_some, Option.map_some, hone]
    simp [eq_comm]

/-- The default range keeps the whole of a network, with its outputs, exactly when the output
neurons are single nodes. In any case its outputs are the first nodes of the output neurons. Every
range that reaches the output layer keeps one node of each output neuron: a copy of the first one,
or a free node if it keeps no other layer. -/
theorem whole_copy_iff [Scalar α] (hnet : net.Accepted a) (hfree : net.FreeAtInputs a)
    (hcount : 2 ≤ net.layerCount) (suffix : String) :
    (net.LoneOutputs ↔ ∃ net' b, (net.duplicateAndClip {} suffix).Yields a net' b ∧
      net'.chainLengths = net.chainLengths ∧
      ∀ v w : Valuation α, net'.inputs.map w = net.inputs.map (a.compute net.nodes v) →
        net'.outputs.map (b.compute net'.nodes w) = net.outputs.map (a.compute net.nodes v)) ∧
    (∀ net' b, (net.duplicateAndClip {} suffix).Yields a net' b →
      ∀ v w : Valuation α, net'.inputs.map w = net.inputs.map (a.compute net.nodes v) →
        net'.outputs.map (b.compute net'.nodes w) =
          net.outputHeads.map (a.compute net.nodes v)) ∧
    ∀ r net' b, r.reachesOutput (α := α) net.layerCount = .ok true →
      (net.clip r).Yields a net' b ∨ (net.duplicateAndClip r suffix).Yields a net' b →
      ∃ f : NodeId → NodeId,
        (∀ n, chainAt net'.layers (net'.layerCount - 1) n =
          (chainAt net.layers (net.layerCount - 1) n).map fun c => (net.keptOutput r c).map f) ∧
        (if r.firstLayer < r.resolveLast net.layerCount
          then ∀ id ∈ net.outputHeads, a.Mirrors b f id
          else ∀ id ∈ net'.nodes, IsFree b id) ∧
        (net.LoneOutputs ↔ ∀ n, (chainAt net'.layers (net'.layerCount - 1) n).map List.length =
          (chainAt net.layers (net.layerCount - 1) n).map List.length) := by
  rw [accepted_iff] at hnet
  refine ⟨⟨fun hlone => ?_, ?_⟩, fun net' b h v w => outputs_of_whole_copy hnet hfree hcount h, ?_⟩
  · obtain ⟨net', b, h⟩ := hlone.exists_duplicateAndClip hnet hcount suffix
    obtain ⟨⟨f, hcopy⟩, -⟩ := exists_copy_trimmed hnet (.inr h)
    refine ⟨net', b, h, ?_, ?_⟩
    · rw [chainLengths, hcopy.layers, hlone.trimmed_eq hnet.layers_ne_nil, chainLengths, redirect]
      simp
    · intro v w hinputs
      rw [outputs_of_whole_copy hnet hfree hcount h hinputs, hlone.outputHeads_eq]
  · rintro ⟨net', b, h, hlengths, -⟩
    obtain ⟨⟨f, hcopy⟩, hwell⟩ := exists_copy_trimmed hnet (.inr h)
    have hsame : net'.layerCount = net.layerCount := by
      simpa [chainLengths, layerCount] using congrArg List.length hlengths
    have hend : ClipRange.resolveLast {} net.layerCount + 1 = net.layerCount :=
      Nat.sub_add_cancel (Nat.one_le_of_lt hcount)
    refine (loneOutputs_iff_whole hwell (hcopy.chainAt_last (Nat.zero_le _) hend rfl)).2 fun n => ?_
    rw [← getElem?_chainLengths, ← getElem?_chainLengths, hlengths, hsame]
  · intro r net' b hreaches h
    obtain ⟨hend, hcut⟩ := eq_of_reachesOutput hreaches
    obtain ⟨⟨f, hcopy⟩, hwell⟩ := exists_copy_trimmed hnet h
    have hfirst := hcopy.firstLayer_le hwell hend
    have hlast := hcopy.chainAt_last hfirst hend hcut
    refine ⟨f, hlast, ?_, loneOutputs_iff_whole hwell hlast⟩
    split
    · rename_i hlt
      exact fun id hid => hcopy.mirrors_outputHead hfirst hend hcut hlt hnet.nodup hid
    · rename_i hlt
      exact hcopy.isFree_of_lone_layer hfirst hend hcut hlt

/-- The output of the sample is a single node, so a copy of the whole sample puts out the absolute
value of its input. -/
theorem whole_copy_iff_sample :
    sample.Accepted Arena.sample ∧ sample.FreeAtInputs Arena.sample ∧ sample.LoneOutputs ∧
      ∃ net' b, (sample.duplicateAndClip {} "_dup").Yields Arena.sample net' b ∧
        net'.chainLengths = [[1], [2, 2], [1]] ∧
        ∀ w : Valuation Rat, net'.inputs.map w = [-2] →
          net'.outputs.map (b.compute net'.nodes w) = [2] := by
  have haccepted : sample.Accepted Arena.sample := by rfl
  have hfree : sample.FreeAtInputs Arena.sample := by decide
  have hlone : sample.LoneOutputs := by simp [LoneOutputs, sample]
  obtain ⟨net', b, h, hlengths, hvalues⟩ :=
    (whole_copy_iff haccepted hfree (by decide) "_dup").1.1 hlone
  refine ⟨haccepted, hfree, hlone, net', b, h, hlengths.trans rfl, fun w hw => ?_⟩
  rw [hvalues (fun _ => -2) w (hw.trans (by decide +kernel))]
  decide +kernel

/-- One input and an output that is a rectifier of it. -/
def rectified : Network :=
  ⟨[[[0]], [[1, 2]]]⟩

/-- The nodes of the rectifier. -/
def rectifiedArena : Arena Rat :=
  ⟨#[{ kind := .plain }, { kind := .affine [(1, 0)] 0 }, { kind := .relu 1 false }]⟩

/-- The default range drops the rectifier: at minus one the network puts out zero, and the copy puts
out minus one. -/
theorem whole_copy_drops_output :
    rectified.Accepted rectifiedArena ∧ rectified.FreeAtInputs rectifiedArena ∧
      ClipRange.reachesOutput (α := Rat) {} rectified.layerCount = .ok true ∧
      rectified.outputs.map (rectifiedArena.compute rectified.nodes fun _ => -1) = [0] ∧
      ∃ net' b, (rectified.duplicateAndClip {} "_dup").Yields rectifiedArena net' b ∧
        net'.chainLengths = [[1], [1]] ∧
        net'.outputs.map (b.compute net'.nodes fun _ => -1) = [-1] := by
  refine ⟨by rfl, by decide, by rfl, by decide +kernel, ?_⟩
  rw [Edit.exists_yields_and_iff]
  decide +kernel

end Network

end PiecewiseNet
