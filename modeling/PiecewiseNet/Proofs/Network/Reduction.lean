import PiecewiseNet.Comparison
import PiecewiseNet.Proofs.Network.Copies

/-!
# Networks reduced to some of their outputs

A comparison keeps some output neurons of a network, and everything before the last layer.

## Main definitions

- `Network.withLast`: the network with another last layer.
- `Network.reduced`: the network with one neuron in its last layer.

## Main statements

- `Network.keepOutputs_eq_ok_iff`: keeping output neurons.
- `Network.Copy.withLast`: a copy of a network with fewer outputs.
- `Network.output_eq_ok_iff`: the outputs are the tails of the last layer.
-/

namespace PiecewiseNet

namespace Network

variable {α : Type} {net net' : Network} {a b : Arena α} {f : NodeId → NodeId} {i l n : Nat}
  {c d : Chain} {cs : Layer} {id : NodeId}

/-- The network with other neurons in its last layer. -/
def withLast (net : Network) (cs : Layer) : Network :=
  ⟨net.layers.dropLast ++ [cs]⟩

/-- The network with its last layer reduced to one neuron. -/
def reduced (net : Network) (c : Chain) : Network :=
  ⟨net.layers.dropLast ++ [[c]]⟩

theorem reduced_eq_withLast (net : Network) (c : Chain) : net.reduced c = net.withLast [c] := rfl

theorem layerCount_withLast (hne : net.layers ≠ []) :
    (net.withLast cs).layerCount = net.layerCount := by
  have hpos := List.length_pos_iff.2 hne
  simp only [layerCount, withLast, List.length_append, List.length_dropLast, List.length_singleton]
  omega

theorem chainAt_withLast (hne : net.layers ≠ []) :
    chainAt (net.withLast cs).layers l n =
      if l + 1 < net.layerCount then chainAt net.layers l n
      else if l + 1 = net.layerCount then cs[n]? else none := by
  have hpos := List.length_pos_iff.2 hne
  have hlen : net.layers.dropLast.length = net.layers.length - 1 := List.length_dropLast
  rw [layerCount, chainAt, withLast]
  by_cases hlt : l + 1 < net.layers.length
  · rw [if_pos hlt, List.getElem?_append_left (by omega), List.getElem?_dropLast,
      if_pos (by omega), chainAt]
  · rw [if_neg hlt, List.getElem?_append_right (by omega), hlen]
    by_cases heq : l + 1 = net.layers.length
    · have hsub : l - (net.layers.length - 1) = 0 := by omega
      simp [hsub, heq]
    · obtain ⟨k, hk⟩ : ∃ k, l - (net.layers.length - 1) = k + 1 :=
        ⟨l - net.layers.length, by omega⟩
      simp [hk, heq]

theorem chainAt_reduced (hne : net.layers ≠ []) :
    chainAt (net.reduced c).layers l n =
      if l + 1 < net.layerCount then chainAt net.layers l n
      else if l + 1 = net.layerCount ∧ n = 0 then some c else none := by
  rw [reduced_eq_withLast, chainAt_withLast hne]
  cases n <;> simp

/-- The neurons that are kept are neurons of the network, and lie in the same layer. -/
theorem exists_chainAt_of_withLast (hne : net.layers ≠ [])
    (hcs : ∀ c ∈ cs, ∃ i, chainAt net.layers (net.layerCount - 1) i = some c)
    (hd : chainAt (net.withLast cs).layers l n = some d) :
    ∃ n', chainAt net.layers l n' = some d ∧ (l + 1 < net.layerCount ∨ d ∈ cs) := by
  rw [chainAt_withLast hne] at hd
  split at hd
  · rename_i hlt
    exact ⟨n, hd, .inl hlt⟩
  · split at hd
    · rename_i hlast
      have hmem := List.mem_of_getElem? hd
      obtain ⟨i, hi⟩ := hcs d hmem
      have hl : l = net.layerCount - 1 := by omega
      exact ⟨i, hl ▸ hi, .inr hmem⟩
    · cases hd

theorem exists_chainAt_of_reduced (hne : net.layers ≠ [])
    (hc : chainAt net.layers (net.layerCount - 1) i = some c)
    (hd : chainAt (net.reduced c).layers l n = some d) :
    ∃ n', chainAt net.layers l n' = some d ∧ (l + 1 < net.layerCount ∨ d = c) := by
  have hcs : ∀ e ∈ [c], ∃ i, chainAt net.layers (net.layerCount - 1) i = some e := by
    simpa using ⟨i, hc⟩
  obtain ⟨n', hd', hplace⟩ := exists_chainAt_of_withLast hne hcs hd
  exact ⟨n', hd', by simpa using hplace⟩

theorem nodes_withLast_subset (hne : net.layers ≠ [])
    (hcs : ∀ c ∈ cs, ∃ i, chainAt net.layers (net.layerCount - 1) i = some c) :
    (net.withLast cs).nodes ⊆ net.nodes := by
  intro id hid
  obtain ⟨l, n, d, hd, hid⟩ := mem_nodes_iff.1 hid
  obtain ⟨n', hd', -⟩ := exists_chainAt_of_withLast hne hcs hd
  exact mem_nodes hd' hid

theorem nodes_reduced_subset (hne : net.layers ≠ [])
    (hc : chainAt net.layers (net.layerCount - 1) i = some c) :
    (net.reduced c).nodes ⊆ net.nodes :=
  nodes_withLast_subset hne (by simpa using ⟨i, hc⟩)

theorem mem_nodes_withLast (hc : c ∈ cs) (hid : id ∈ c) : id ∈ (net.withLast cs).nodes := by
  simp only [nodes, withLast, List.flatten_append, List.mem_append]
  exact .inr (by simpa using ⟨c, hc, hid⟩)

theorem mem_nodes_reduced (hid : id ∈ c) : id ∈ (net.reduced c).nodes :=
  mem_nodes_withLast (List.mem_singleton_self c) hid

theorem inputs_withLast (h : 2 ≤ net.layerCount) : (net.withLast cs).inputs = net.inputs := by
  have hlen : 2 ≤ net.layers.length := h
  have hhead : (net.layers.dropLast ++ [cs]).head? = net.layers.head? := by
    rw [List.head?_eq_getElem?, List.getElem?_append_left (by rw [List.length_dropLast]; omega),
      List.getElem?_dropLast, if_pos (by omega), List.head?_eq_getElem?]
  rw [inputs, inputs, withLast, hhead]

theorem inputs_reduced (h : 2 ≤ net.layerCount) : (net.reduced c).inputs = net.inputs :=
  inputs_withLast h

/-- With some of its output neurons, a copy of a network is a copy of the network with these. -/
theorem Copy.withLast (h : net.Copy a f net' b) (hne : net.layers ≠ [])
    (hcs : ∀ c ∈ cs, ∃ i, chainAt net.layers (net.layerCount - 1) i = some c) :
    (net.withLast cs).Copy a f (net'.withLast (cs.map (List.map f))) b := by
  have hsub := nodes_withLast_subset hne hcs
  refine ⟨?_, ?_, ?_⟩
  · simp only [Network.withLast, h.layers, redirect, List.map_append, List.map_dropLast,
      List.map_cons, List.map_nil]
  · intro j hj k hk
    exact h.injOn j (hsub hj) k (hsub hk)
  · intro id hid
    exact h.mirrors id (hsub hid)

theorem Copy.reduced (h : net.Copy a f net' b) (hne : net.layers ≠ [])
    (hc : chainAt net.layers (net.layerCount - 1) i = some c) :
    (net.reduced c).Copy a f (net'.reduced (c.map f)) b :=
  h.withLast hne (by simpa using ⟨i, hc⟩)

theorem Copy.exists_chainAt_last (h : net.Copy a f net' b)
    (hd : chainAt net'.layers (net'.layerCount - 1) i = some d) :
    ∃ c, chainAt net.layers (net.layerCount - 1) i = some c ∧ d = c.map f := by
  rw [h.layerCount_eq, h.chainAt_eq, Option.map_eq_some_iff] at hd
  obtain ⟨c, hc, rfl⟩ := hd
  exact ⟨c, hc, rfl⟩

/-! ## Keeping outputs -/

theorem pickChains_eq_ok_iff {layer : Layer} {is : List Nat} :
    pickChains (α := α) layer is = .ok cs ↔ is.map (layer[·]?) = cs.map some := by
  induction is generalizing cs with
  | nil => cases cs <;> simp [pickChains]
  | cons i is ih =>
    unfold pickChains
    rw [List.map_cons]
    cases hi : layer[i]? with
    | none => cases cs <;> simp
    | some c =>
      dsimp only
      cases hp : pickChains (α := α) layer is with
      | error e =>
        have hnot : ∀ cs, is.map (layer[·]?) ≠ List.map some cs := by
          intro cs hcs
          rw [ih.2 hcs] at hp
          cases hp
        cases cs <;> simp [hnot]
      | ok ds =>
        cases cs with
        | nil => simp
        | cons d cs => simp [ih.1 hp, List.map_inj_right]

/-- Keeping output neurons succeeds exactly when they are there and what is left is well-formed. -/
theorem keepOutputs_eq_ok_iff {is : List Nat} :
    net.keepOutputs is a = .ok net' ↔
      net.layers ≠ [] ∧ ∃ cs, is.map (chainAt net.layers (net.layerCount - 1)) = cs.map some ∧
        net' = net.withLast cs ∧ net'.WellFormed a := by
  have hlast : net.layers.getLast? = net.layers[net.layers.length - 1]? :=
    List.getLast?_eq_getElem?
  unfold keepOutputs
  rw [hlast, layerCount]
  cases hl : net.layers[net.layers.length - 1]? with
  | none =>
    have hnil : net.layers = [] := by
      rw [List.getElem?_eq_none_iff] at hl
      exact List.length_eq_zero_iff.1 (by omega)
    simp [hnil]
  | some layer =>
    have hne : net.layers ≠ [] := by
      intro hnil
      rw [hnil] at hl
      cases hl
    have hat : chainAt net.layers (net.layers.length - 1) = (layer[·]?) := by
      funext i
      rw [chainAt, hl, Option.bind_some]
    simp only [hat, ← pickChains_eq_ok_iff (α := α)]
    cases pickChains (α := α) layer is with
    | error e => simp
    | ok cs => simp [new_eq_ok_iff, withLast, hne]

theorem keepOutputs_singleton_eq_ok_iff :
    net.keepOutputs [i] a = .ok net' ↔
      net.layers ≠ [] ∧ ∃ c, chainAt net.layers (net.layerCount - 1) i = some c ∧
        net' = net.reduced c ∧ net'.WellFormed a := by
  rw [keepOutputs_eq_ok_iff]
  refine and_congr_right fun _ => ?_
  constructor
  · rintro ⟨cs, hcs, rfl, hwell⟩
    obtain ⟨c, rfl⟩ := List.length_eq_one_iff.1 (by simpa using (congrArg List.length hcs).symm)
    exact ⟨c, by simpa using hcs, rfl, hwell⟩
  · rintro ⟨c, hc, rfl, hwell⟩
    exact ⟨[c], by simp [hc], rfl, hwell⟩

theorem keepOutputs_pair_eq_ok_iff {j : Nat} :
    net.keepOutputs [i, j] a = .ok net' ↔
      net.layers ≠ [] ∧ ∃ c d, chainAt net.layers (net.layerCount - 1) i = some c ∧
        chainAt net.layers (net.layerCount - 1) j = some d ∧ net' = net.withLast [c, d] ∧
        net'.WellFormed a := by
  rw [keepOutputs_eq_ok_iff]
  refine and_congr_right fun _ => ?_
  constructor
  · rintro ⟨cs, hcs, rfl, hwell⟩
    obtain ⟨c, d, rfl⟩ := List.length_eq_two.1 (by simpa using (congrArg List.length hcs).symm)
    obtain ⟨hc, hd⟩ : _ ∧ _ := by simpa using hcs
    exact ⟨c, d, hc, hd, rfl, hwell⟩
  · rintro ⟨c, d, hc, hd, rfl, hwell⟩
    exact ⟨[c, d], by simp [hc, hd], rfl, hwell⟩

/-! ## Outputs -/

/-- An output is the tail of a neuron of the last layer. -/
theorem output_eq_ok_iff (hne : net.layers ≠ []) :
    net.output (α := α) i = .ok id ↔
      ∃ c, chainAt net.layers (net.layerCount - 1) i = some c ∧ c.getLast? = some id := by
  have hpos := List.length_pos_iff.2 hne
  obtain ⟨layer, hget⟩ : ∃ layer, net.layers[net.layerCount - 1]? = some layer :=
    ⟨_, List.getElem?_eq_getElem (by rw [layerCount]; omega)⟩
  unfold output
  simp only [Network.layer, chainAt, hget, bind, Except.bind, Option.bind_some]
  cases layer[i]? with
  | none => simp
  | some c => cases hc : c.getLast? <;> simp [hc]

theorem output_withLast (hne : net.layers ≠ []) :
    (net.withLast cs).output (α := α) i = .ok id ↔ ∃ c, cs[i]? = some c ∧ c.getLast? = some id := by
  have hne' : (net.withLast cs).layers ≠ [] := by simp [withLast]
  have hpos := List.length_pos_iff.2 hne
  rw [output_eq_ok_iff hne', layerCount_withLast hne, chainAt_withLast hne, layerCount,
    if_neg (by omega), if_pos (by omega)]

theorem output_reduced (hne : net.layers ≠ []) :
    (net.reduced c).output (α := α) 0 = .ok id ↔ c.getLast? = some id := by
  rw [reduced_eq_withLast, output_withLast hne]
  simp

/-- The outputs in order. -/
theorem getElem?_outputs (hnet : net.WellFormed a) :
    net.outputs[i]? = some id ↔ net.output (α := α) i = .ok id := by
  have htails : ∀ layer : Layer, (∀ c ∈ layer, c ≠ []) →
      (layer.filterMap List.getLast?)[i]? = layer[i]?.bind List.getLast? := by
    intro layer hlayer
    induction layer generalizing i with
    | nil => rfl
    | cons c layer ih =>
      obtain ⟨hc, hlayer⟩ := List.forall_mem_cons.1 hlayer
      rw [List.filterMap_cons, List.getLast?_eq_some_getLast hc]
      cases i with
      | zero => simp [List.getLast?_eq_some_getLast hc]
      | succ i => simpa using ih hlayer
  have hlast : net.layers.getLast? = net.layers[net.layerCount - 1]? := List.getLast?_eq_getElem?
  have hchain : chainAt net.layers (net.layerCount - 1) i = (net.layers.getLast?.getD [])[i]? := by
    rw [chainAt_eq_getElem?_getD, hlast]
  rw [output_eq_ok_iff hnet.layers_ne_nil, outputs, htails, hchain, Option.bind_eq_some_iff]
  intro c hc
  obtain ⟨n, hn⟩ := List.mem_iff_getElem?.1 hc
  refine hnet.chains_ne_nil (net.layerCount - 1) n c ?_
  rw [chainAt_eq_getElem?_getD, ← hlast, hn]

end Network

end PiecewiseNet
