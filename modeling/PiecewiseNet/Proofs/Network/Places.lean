import PiecewiseNet.Shape
import Mathlib.Data.List.Pairwise

/-!
# Places of neurons

A neuron has a place in its network: the index of its layer and its index there. When no node is
listed twice, a node lies at one place only.

## Main definitions

- `chainAt`: the neuron at a place.

## Main statements

- `Network.mem_nodes_iff`: the nodes of a network are those of its neurons.
- `Network.pairwise_nodes_iff`: when a relation holds along the nodes of a network.
- `Network.nodup_nodes_iff`: when no node is listed twice.
-/

namespace PiecewiseNet

/-- The neuron with an index of the layer with an index. -/
def chainAt (layers : List Layer) (l n : Nat) : Option Chain :=
  layers[l]?.bind fun layer => layer[n]?

variable {layers layers' : List Layer} {l n l' n' : Nat} {c c' : Chain} {id : NodeId}

theorem chainAt_eq_some_iff :
    chainAt layers l n = some c ↔ ∃ layer, layers[l]? = some layer ∧ layer[n]? = some c := by
  simp [chainAt, Option.bind_eq_some_iff]

theorem chainAt_eq_getElem?_getD (layers : List Layer) (l n : Nat) :
    chainAt layers l n = (layers[l]?.getD [])[n]? := by
  rw [chainAt]
  cases layers[l]? <;> simp

/-- Layers are known from their number and their neurons. -/
theorem layers_ext (hlen : layers.length = layers'.length)
    (h : ∀ l n, chainAt layers l n = chainAt layers' l n) : layers = layers' := by
  refine List.ext_getElem hlen ?_
  intro l hl hl'
  refine List.ext_getElem? ?_
  intro n
  have hn := h l n
  simpa [chainAt, hl, hl'] using hn

/-- Replacing a neuron changes the neuron at its place and no other. -/
theorem chainAt_set {layer : Layer} (hl : layers[l]? = some layer) (hn : layer[n]? = some c') :
    chainAt (layers.set l (layer.set n c)) l' n' =
      if l' = l ∧ n' = n then some c else chainAt layers l' n' := by
  obtain ⟨hlt, rfl⟩ := List.getElem?_eq_some_iff.1 hl
  obtain ⟨hnt, -⟩ := List.getElem?_eq_some_iff.1 hn
  by_cases hll : l' = l
  · subst hll
    by_cases hnn : n' = n
    · subst hnn
      simp [chainAt, hlt, hnt]
    · simp [chainAt, hlt, hnn, List.getElem?_set_ne (Ne.symm hnn)]
  · simp [chainAt, hll, List.getElem?_set_ne (Ne.symm hll)]

namespace Network

variable {net : Network}

@[simp] theorem chainAt_redirect (f : NodeId → NodeId) :
    chainAt (net.redirect f) l n = (chainAt net.layers l n).map (List.map f) := by
  simp only [chainAt, redirect, List.getElem?_map]
  cases net.layers[l]? <;> simp

/-- There is a neuron at each index below the size of a layer. -/
theorem exists_chainAt_iff : (∃ c, chainAt net.layers l n = some c) ↔ n < net.layerSize l := by
  simp only [chainAt, layerSize]
  cases net.layers[l]? with
  | none => simp
  | some layer =>
    simp only [Option.bind_some, Option.getD_some]
    constructor
    · rintro ⟨c, hc⟩
      exact (List.getElem?_eq_some_iff.1 hc).1
    · intro hn
      exact ⟨_, List.getElem?_eq_getElem hn⟩

/-- Asking for a neuron gives the one at its place. -/
theorem chain_eq_ok_iff {α : Type} :
    net.chain (α := α) l n = .ok c ↔ chainAt net.layers l n = some c := by
  unfold chain layer
  rw [chainAt]
  cases net.layers[l]? with
  | none => simp [bind, Except.bind]
  | some layer =>
    simp only [bind, Except.bind, Option.bind_some]
    cases layer[n]? <;> simp

theorem lt_layerCount (h : chainAt net.layers l n = some c) : l < net.layerCount := by
  obtain ⟨layer, hl, -⟩ := chainAt_eq_some_iff.1 h
  exact (List.getElem?_eq_some_iff.1 hl).1

/-- Networks whose first layers have the same heads, up to a map of nodes, have the same inputs up
to this map. -/
theorem inputs_eq_map {net' : Network} {f : NodeId → NodeId}
    (h : ∀ n, (chainAt net'.layers 0 n).map List.head? =
      (chainAt net.layers 0 n).map fun c => c.head?.map f) :
    net'.inputs = net.inputs.map f := by
  have hinputs : ∀ net : Network,
      net.inputs = ((net.layers[0]?.getD []).map List.head?).filterMap fun x => x := by
    intro net
    rw [Network.inputs, List.head?_eq_getElem?, List.filterMap_map]
    rfl
  have hheads : (net'.layers[0]?.getD []).map List.head? =
      ((net.layers[0]?.getD []).map List.head?).map (Option.map f) := by
    refine List.ext_getElem? ?_
    intro n
    rw [List.getElem?_map, List.getElem?_map, List.getElem?_map, ← chainAt_eq_getElem?_getD,
      ← chainAt_eq_getElem?_getD, h n, Option.map_map]
    rfl
  rw [hinputs net', hinputs net, hheads, List.filterMap_map, List.map_filterMap]
  rfl

/-- Layers with neurons at the same indices have the same size. -/
theorem layerSize_congr {net' : Network}
    (h : ∀ n, (∃ c, chainAt net.layers l n = some c) ↔ ∃ c, chainAt net'.layers l' n = some c) :
    net.layerSize l = net'.layerSize l' := by
  simp only [exists_chainAt_iff] at h
  have hle := h (net'.layerSize l')
  have hge := h (net.layerSize l)
  omega

/-- A node lies in a neuron of a layer exactly when it lies at a place of this layer. -/
theorem lies_iff : net.Lies l c id ↔ ∃ n, chainAt net.layers l n = some c ∧ id ∈ c := by
  simp only [Lies, chainAt_eq_some_iff]
  constructor
  · rintro ⟨layer, hl, hc, hid⟩
    obtain ⟨n, hn⟩ := List.mem_iff_getElem?.1 hc
    exact ⟨n, ⟨layer, hl, hn⟩, hid⟩
  · rintro ⟨n, ⟨layer, hl, hn⟩, hid⟩
    exact ⟨layer, hl, List.mem_of_getElem? hn, hid⟩

theorem shortChains_iff :
    net.ShortChains ↔ ∀ l n c, chainAt net.layers l n = some c → c.length ≤ 2 := by
  simp only [ShortChains, chainAt_eq_some_iff]
  constructor
  · rintro h l n c ⟨layer, hl, hn⟩
    exact h layer (List.mem_of_getElem? hl) c (List.mem_of_getElem? hn)
  · intro h layer hlayer c hc
    obtain ⟨l, hl⟩ := List.mem_iff_getElem?.1 hlayer
    obtain ⟨n, hn⟩ := List.mem_iff_getElem?.1 hc
    exact h l n c ⟨layer, hl, hn⟩

/-- The nodes of a network are those of the neurons at its places. -/
theorem mem_nodes_iff : id ∈ net.nodes ↔ ∃ l n c, chainAt net.layers l n = some c ∧ id ∈ c := by
  simp only [nodes, List.mem_flatten, chainAt_eq_some_iff]
  constructor
  · rintro ⟨c, ⟨layer, hlayer, hc⟩, hid⟩
    obtain ⟨l, hl⟩ := List.mem_iff_getElem?.1 hlayer
    obtain ⟨n, hn⟩ := List.mem_iff_getElem?.1 hc
    exact ⟨l, n, c, ⟨layer, hl, hn⟩, hid⟩
  · rintro ⟨l, n, c, ⟨layer, hl, hn⟩, hid⟩
    exact ⟨c, ⟨layer, List.mem_of_getElem? hl, List.mem_of_getElem? hn⟩, hid⟩

theorem mem_nodes (h : chainAt net.layers l n = some c) (hid : id ∈ c) : id ∈ net.nodes :=
  mem_nodes_iff.2 ⟨l, n, c, h, hid⟩

/-- A relation holds along the nodes of a network exactly when it holds along every neuron, and
between the nodes of one neuron and those of any later one. -/
theorem pairwise_nodes_iff {r : NodeId → NodeId → Prop} :
    net.nodes.Pairwise r ↔
      (∀ l n c, chainAt net.layers l n = some c → c.Pairwise r) ∧
        ∀ l n c l' n' c', chainAt net.layers l n = some c → chainAt net.layers l' n' = some c' →
          l < l' ∨ l = l' ∧ n < n' → ∀ x ∈ c, ∀ y ∈ c', r x y := by
  rw [nodes, List.pairwise_flatten, List.pairwise_flatten]
  simp only [chainAt_eq_some_iff]
  constructor
  · rintro ⟨hchains, hwithin, hacross⟩
    refine ⟨?_, ?_⟩
    · rintro l n c ⟨layer, hl, hn⟩
      exact hchains c (List.mem_flatten.2
        ⟨layer, List.mem_of_getElem? hl, List.mem_of_getElem? hn⟩)
    · rintro l n c l' n' c' ⟨layer, hl, hn⟩ ⟨layer', hl', hn'⟩ hbefore
      obtain ⟨hll, rfl⟩ := List.getElem?_eq_some_iff.1 hl
      obtain ⟨hll', rfl⟩ := List.getElem?_eq_some_iff.1 hl'
      obtain ⟨hnn, rfl⟩ := List.getElem?_eq_some_iff.1 hn
      obtain ⟨hnn', rfl⟩ := List.getElem?_eq_some_iff.1 hn'
      rcases hbefore with hlt | ⟨rfl, hlt⟩
      · exact List.pairwise_iff_getElem.1 hacross l l' hll hll' hlt _ (List.getElem_mem hnn) _
          (List.getElem_mem hnn')
      · exact List.pairwise_iff_getElem.1 (hwithin _ (List.getElem_mem hll)) n n' hnn hnn' hlt
  · rintro ⟨hchains, hbetween⟩
    refine ⟨?_, ?_, ?_⟩
    · intro c hc
      obtain ⟨layer, hlayer, hc⟩ := List.mem_flatten.1 hc
      obtain ⟨l, hl⟩ := List.mem_iff_getElem?.1 hlayer
      obtain ⟨n, hn⟩ := List.mem_iff_getElem?.1 hc
      exact hchains l n c ⟨layer, hl, hn⟩
    · intro layer hlayer
      obtain ⟨l, hl⟩ := List.mem_iff_getElem?.1 hlayer
      refine List.pairwise_iff_getElem.2 ?_
      intro n n' hn hn' hlt
      exact hbetween l n _ l n' _ ⟨layer, hl, List.getElem?_eq_getElem hn⟩
        ⟨layer, hl, List.getElem?_eq_getElem hn'⟩ (.inr ⟨rfl, hlt⟩)
    · refine List.pairwise_iff_getElem.2 ?_
      intro l l' hl hl' hlt c hc c' hc'
      obtain ⟨n, hn⟩ := List.mem_iff_getElem?.1 hc
      obtain ⟨n', hn'⟩ := List.mem_iff_getElem?.1 hc'
      exact hbetween l n c l' n' c' ⟨_, List.getElem?_eq_getElem hl, hn⟩
        ⟨_, List.getElem?_eq_getElem hl', hn'⟩ (.inl hlt)

/-- No node is listed twice exactly when no neuron repeats a node and no two neurons share one. -/
theorem nodup_nodes_iff :
    net.nodes.Nodup ↔
      (∀ l n c, chainAt net.layers l n = some c → c.Nodup) ∧
        ∀ l n c l' n' c' id, chainAt net.layers l n = some c →
          chainAt net.layers l' n' = some c' → id ∈ c → id ∈ c' → l = l' ∧ n = n' := by
  rw [List.nodup_iff_pairwise_ne, pairwise_nodes_iff]
  simp only [← List.nodup_iff_pairwise_ne]
  refine and_congr_right fun _ => ?_
  constructor
  · intro h l n c l' n' c' id hc hc' hid hid'
    have h₁ := h l n c l' n' c' hc hc'
    have h₂ := h l' n' c' l n c hc' hc
    by_contra hne
    have hdisj : (l < l' ∨ l = l' ∧ n < n') ∨ (l' < l ∨ l' = l ∧ n' < n) := by omega
    rcases hdisj with hlt | hlt
    · exact h₁ hlt id hid id hid' rfl
    · exact h₂ hlt id hid' id hid rfl
  · rintro h l n c l' n' c' hc hc' hbefore x hx y hy rfl
    obtain ⟨rfl, rfl⟩ := h l n c l' n' c' x hc hc' hx hy
    omega

/-- A node that is listed once lies at one place. -/
theorem place_unique (h : net.nodes.Nodup) (hc : chainAt net.layers l n = some c)
    (hc' : chainAt net.layers l' n' = some c') (hid : id ∈ c) (hid' : id ∈ c') :
    l = l' ∧ n = n' ∧ c = c' := by
  obtain ⟨rfl, rfl⟩ := (nodup_nodes_iff.1 h).2 l n c l' n' c' id hc hc' hid hid'
  rw [hc] at hc'
  exact ⟨rfl, rfl, Option.some.inj hc'⟩

/-- What is given for every place is given for every node. -/
theorem exists_at_places {β : Type} (h : net.nodes.Nodup) (f : Nat → Nat → β) :
    ∃ g : NodeId → β, ∀ l n c, chainAt net.layers l n = some c → ∀ id ∈ c, g id = f l n := by
  have hone : ∀ id, ∃ y, ∀ l n c, chainAt net.layers l n = some c → id ∈ c → y = f l n := by
    intro id
    by_cases hid : ∃ l n c, chainAt net.layers l n = some c ∧ id ∈ c
    · obtain ⟨l, n, c, hc, hid⟩ := hid
      refine ⟨f l n, fun l' n' c' hc' hid' => ?_⟩
      obtain ⟨rfl, rfl, -⟩ := place_unique h hc hc' hid hid'
      rfl
    · exact ⟨f 0 0, fun l n c hc hmem => absurd ⟨l, n, c, hc, hmem⟩ hid⟩
  obtain ⟨g, hg⟩ := Classical.skolem.1 hone
  exact ⟨g, fun l n c hc id hid => hg id l n c hc hid⟩

theorem nodup_chainAt (h : net.nodes.Nodup) (hc : chainAt net.layers l n = some c) : c.Nodup :=
  (nodup_nodes_iff.1 h).1 l n c hc

/-- A node of a neuron at one place is not in the neuron at another place. -/
theorem not_mem_of_place_ne (h : net.nodes.Nodup) (hc : chainAt net.layers l n = some c)
    (hc' : chainAt net.layers l' n' = some c') (hne : (l, n) ≠ (l', n')) (hid : id ∈ c) :
    id ∉ c' := by
  intro hid'
  obtain ⟨rfl, rfl, -⟩ := place_unique h hc hc' hid hid'
  exact hne rfl

section Set

variable {layer : Layer} (hl : layers[l]? = some layer) (hn : layer[n]? = some c')

include hl hn

/-- With a neuron replaced, the neurons are the new one and the old ones at other places. -/
theorem chainAt_set_cases {d : Chain}
    (hd : chainAt (layers.set l (layer.set n c)) l' n' = some d) :
    (l', n') = (l, n) ∧ d = c ∨ (l', n') ≠ (l, n) ∧ chainAt layers l' n' = some d := by
  rw [chainAt_set hl hn] at hd
  split at hd
  · rename_i hplace
    exact .inl ⟨Prod.ext hplace.1 hplace.2, (Option.some.inj hd).symm⟩
  · rename_i hplace
    exact .inr ⟨fun heq => hplace (Prod.mk.inj heq), hd⟩

/-- With a neuron replaced, the nodes are those of the new one and old ones. -/
theorem mem_nodes_set (hid : id ∈ nodes ⟨layers.set l (layer.set n c)⟩) :
    id ∈ c ∨ id ∈ nodes ⟨layers⟩ := by
  obtain ⟨l', n', d, hd, hid'⟩ := mem_nodes_iff.1 hid
  rcases chainAt_set_cases hl hn hd with ⟨-, rfl⟩ | ⟨-, hd⟩
  · exact .inl hid'
  · exact .inr (mem_nodes hd hid')

/-- A neuron can be replaced by distinct nodes, each of them its own or new. -/
theorem nodup_nodes_set (hnd : (nodes ⟨layers⟩).Nodup) (hc : c.Nodup)
    (hown : ∀ id ∈ c, id ∈ c' ∨ id ∉ nodes ⟨layers⟩) :
    (nodes ⟨layers.set l (layer.set n c)⟩).Nodup := by
  have hat : chainAt layers l n = some c' := chainAt_eq_some_iff.2 ⟨layer, hl, hn⟩
  have hapart : ∀ l' n' d id, (l', n') ≠ (l, n) → chainAt layers l' n' = some d → id ∈ d →
      id ∉ c := by
    intro l' n' d id hplace hd hid hid'
    rcases hown id hid' with hold | hnew
    · exact not_mem_of_place_ne hnd hd hat hplace hid hold
    · exact hnew (mem_nodes hd hid)
  refine nodup_nodes_iff.2 ⟨?_, ?_⟩
  · intro l' n' d hd
    rcases chainAt_set_cases hl hn hd with ⟨-, rfl⟩ | ⟨-, hd⟩
    · exact hc
    · exact nodup_chainAt hnd hd
  · intro l₁ n₁ c₁ l₂ n₂ c₂ id hc₁ hc₂ hid₁ hid₂
    rcases chainAt_set_cases hl hn hc₁ with ⟨hplace₁, rfl⟩ | ⟨hplace₁, hc₁⟩ <;>
      rcases chainAt_set_cases hl hn hc₂ with ⟨hplace₂, heq⟩ | ⟨hplace₂, hc₂⟩
    · exact Prod.mk.inj (hplace₁.trans hplace₂.symm)
    · exact absurd hid₁ (hapart l₂ n₂ c₂ id hplace₂ hc₂ hid₂)
    · exact absurd (heq ▸ hid₂) (hapart l₁ n₁ c₁ id hplace₁ hc₁ hid₁)
    · exact (nodup_nodes_iff.1 hnd).2 l₁ n₁ c₁ l₂ n₂ c₂ id hc₁ hc₂ hid₁ hid₂

end Set

end Network

end PiecewiseNet
