import PiecewiseNet.Clip
import PiecewiseNet.Proofs.Network.Copies

/-!
# Trimmed networks

What a clip range keeps of a network, on the nodes of the network itself. The heads of its first
layer become free values; a clipped copy is a copy of what is kept with these nodes freed.

## Main definitions

- `Arena.freed`: the arena with some nodes turned into free values.
- `Network.keptLayers`, `ClipRange.keep`, `Network.trimmed`: what a range keeps.

## Main statements

- `Network.trimmed_redirect`: trimming the same shape over other nodes.
- `Network.readsFrom_trimmed`: what is kept of a network of layers is one.
- `Network.isFree_trimmed_iff`: the free nodes of what is kept are its inputs.
-/

namespace PiecewiseNet

variable {α : Type}

/-! ## Freed nodes -/

/-- The arena in which the nodes of a list are free values, with bounds as before. -/
def Arena.freed (a : Arena α) (ids : List NodeId) : Arena α :=
  ⟨a.nodes.mapIdx fun i n => if i ∈ ids then { n with kind := .plain } else n⟩

@[simp] theorem Arena.size_freed (a : Arena α) (ids : List NodeId) :
    (a.freed ids).size = a.size := by
  simp [freed, size]

theorem Arena.get?_freed (a : Arena α) (ids : List NodeId) (id : NodeId) :
    (a.freed ids).get? id =
      (a.get? id).map fun n => if id ∈ ids then { n with kind := .plain } else n := by
  simp [freed, get?]

theorem Arena.get?_freed_of_get?_eq {a b : Arena α} {ids : List NodeId} {id : NodeId}
    (h : b.get? id = a.get? id) : (b.freed ids).get? id = (a.freed ids).get? id := by
  rw [get?_freed, get?_freed, h]

/-- A freed node has the bounds that it had. It is free if it is listed, else of its old kind. -/
theorem Arena.exists_of_get?_freed {a : Arena α} {ids : List NodeId} {id : NodeId} {n : Node α}
    (h : (a.freed ids).get? id = some n) : ∃ m, a.get? id = some m ∧ n.bounds = m.bounds ∧
      (id ∈ ids ∧ n.kind = .plain ∨ id ∉ ids ∧ n.kind = m.kind) := by
  rw [get?_freed, Option.map_eq_some_iff] at h
  obtain ⟨m, hm, rfl⟩ := h
  by_cases hid : id ∈ ids
  · exact ⟨m, hm, by rw [if_pos hid], .inl ⟨hid, by rw [if_pos hid]⟩⟩
  · exact ⟨m, hm, by rw [if_neg hid], .inr ⟨hid, by rw [if_neg hid]⟩⟩

/-- A freed node reads nothing, and any other one what it read before. -/
theorem Arena.reads_freed_iff {a : Arena α} {ids : List NodeId} {id r : NodeId} :
    (a.freed ids).Reads id r ↔ id ∉ ids ∧ a.Reads id r := by
  simp only [Reads, Network.references, get?_freed]
  cases a.get? id with
  | none => simp
  | some n =>
    by_cases hid : id ∈ ids
    · simp [hid, Node.references, NodeKind.references]
    · simp [hid]

theorem Arena.isFree_freed_iff {a : Arena α} {ids : List NodeId} {id : NodeId} (h : id < a.size) :
    Network.IsFree (a.freed ids) id ↔ id ∈ ids ∨ Network.IsFree a id := by
  obtain ⟨n, hn⟩ := exists_get? h
  simp only [Network.IsFree, get?_freed, hn, Option.map_some, Option.some.injEq, exists_eq_left']
  by_cases hid : id ∈ ids <;> simp [hid]

/-! ## What a range keeps -/

/-- What a range keeps of a neuron in layer `l` of so many kept layers. -/
def ClipRange.keep (r : ClipRange) (count l : Nat) (c : Chain) : Chain :=
  let c := if l = 0 then c.drop r.firstCut else c
  if l + 1 = count then c.take (r.lastCut + 1) else c

namespace Network

/-- The layers that a range keeps. -/
def keptLayers (net : Network) (r : ClipRange) : List Layer :=
  (net.layers.drop r.firstLayer).take (r.resolveLast net.layerCount - r.firstLayer + 1)

/-- What a range keeps of a network. -/
def trimmed (net : Network) (r : ClipRange) : Network :=
  ⟨(net.keptLayers r).mapIdx fun l layer => layer.map (r.keep (net.keptLayers r).length l)⟩

variable {net : Network} {r : ClipRange} {a : Arena α} {l n : Nat} {c : Chain} {id : NodeId}

theorem chainAt_trimmed :
    chainAt (net.trimmed r).layers l n =
      (chainAt (net.keptLayers r) l n).map (r.keep (net.keptLayers r).length l) := by
  simp only [chainAt, trimmed, List.getElem?_mapIdx]
  cases (net.keptLayers r)[l]? <;> simp

/-- The layers that are kept are those of the range. -/
theorem chainAt_keptLayers_eq (l n : Nat) :
    chainAt (net.keptLayers r) l n =
      if l < r.resolveLast net.layerCount - r.firstLayer + 1 then
        chainAt net.layers (r.firstLayer + l) n
      else none := by
  rw [chainAt, keptLayers, List.getElem?_take]
  split
  · rw [List.getElem?_drop, chainAt]
  · rfl

theorem length_keptLayers (hfirst : r.firstLayer ≤ r.resolveLast net.layerCount)
    (hlast : r.resolveLast net.layerCount < net.layerCount) :
    (net.keptLayers r).length = r.resolveLast net.layerCount - r.firstLayer + 1 := by
  have hcount : net.layers.length = net.layerCount := rfl
  rw [keptLayers, List.length_take, List.length_drop]
  omega

theorem layerCount_trimmed (hfirst : r.firstLayer < r.resolveLast net.layerCount)
    (hlast : r.resolveLast net.layerCount < net.layerCount) :
    (net.trimmed r).layerCount = r.resolveLast net.layerCount - r.firstLayer + 1 := by
  rw [layerCount, trimmed, List.length_mapIdx, length_keptLayers hfirst.le hlast]

theorem keptLayers_redirect (f : NodeId → NodeId) :
    keptLayers ⟨net.redirect f⟩ r = redirect ⟨net.keptLayers r⟩ f := by
  simp only [keptLayers, redirect, layerCount, List.length_map, List.map_take, List.map_drop]

theorem keep_map (count : Nat) (f : NodeId → NodeId) (c : Chain) :
    r.keep count l (c.map f) = (r.keep count l c).map f := by
  unfold ClipRange.keep
  split <;> split <;> simp only [List.map_take, List.map_drop]

/-- What is kept of the same shape over other nodes is what is kept of the shape, over these. -/
theorem trimmed_redirect (f : NodeId → NodeId) :
    trimmed ⟨net.redirect f⟩ r = ⟨(net.trimmed r).redirect f⟩ := by
  have hlen : (keptLayers ⟨net.redirect f⟩ r).length = (net.keptLayers r).length := by
    rw [keptLayers_redirect, redirect, List.length_map]
  have hlayers : (trimmed ⟨net.redirect f⟩ r).layers = (net.trimmed r).redirect f := by
    refine layers_ext ?_ ?_
    · rw [trimmed, List.length_mapIdx, hlen, redirect, List.length_map, trimmed, List.length_mapIdx]
    · intro l n
      rw [chainAt_redirect, chainAt_trimmed, chainAt_trimmed, hlen, keptLayers_redirect,
        chainAt_redirect]
      cases chainAt (net.keptLayers r) l n with
      | none => rfl
      | some c => simp [keep_map]
  rw [← hlayers]

/-- What is kept of a neuron is a contiguous part of it. -/
theorem isInfix_keep (count : Nat) (c : Chain) : r.keep count l c <:+: c := by
  have hdrop : (if l = 0 then c.drop r.firstCut else c) <:+: c := by
    split
    · exact (List.drop_suffix _ _).isInfix
    · exact List.infix_rfl
  unfold ClipRange.keep
  dsimp only
  split
  · exact (List.take_prefix _ _).isInfix.trans hdrop
  · exact hdrop

theorem chainAt_keptLayers {l n : Nat} {c : Chain} (h : chainAt (net.keptLayers r) l n = some c) :
    chainAt net.layers (r.firstLayer + l) n = some c := by
  rw [chainAt_keptLayers_eq] at h
  split at h
  · exact h
  · cases h

/-- Each neuron of what is kept is a part of a neuron of the network, and the layers are numbered
from the first kept one. -/
theorem exists_chainAt_of_trimmed (h : chainAt (net.trimmed r).layers l n = some c) :
    ∃ c₀, chainAt net.layers (r.firstLayer + l) n = some c₀ ∧ c <:+: c₀ := by
  rw [chainAt_trimmed, Option.map_eq_some_iff] at h
  obtain ⟨c₀, hc₀, rfl⟩ := h
  exact ⟨c₀, chainAt_keptLayers hc₀, isInfix_keep _ _⟩

theorem nodes_trimmed_subset : (net.trimmed r).nodes ⊆ net.nodes := by
  intro id hid
  obtain ⟨l, n, c, hc, hid⟩ := mem_nodes_iff.1 hid
  obtain ⟨c₀, hc₀, hsub⟩ := exists_chainAt_of_trimmed hc
  exact mem_nodes hc₀ (hsub.subset hid)

theorem shortChains_trimmed (h : net.ShortChains) : (net.trimmed r).ShortChains := by
  rw [shortChains_iff] at h ⊢
  intro l n c hc
  obtain ⟨c₀, hc₀, hsub⟩ := exists_chainAt_of_trimmed hc
  exact hsub.length_le.trans (h _ n c₀ hc₀)

theorem nodup_trimmed (h : net.nodes.Nodup) : (net.trimmed r).nodes.Nodup := by
  refine nodup_nodes_iff.2 ⟨?_, ?_⟩
  · intro l n c hc
    obtain ⟨c₀, hc₀, hsub⟩ := exists_chainAt_of_trimmed hc
    exact (nodup_chainAt h hc₀).sublist hsub.sublist
  · intro l n c l' n' c' id hc hc' hid hid'
    obtain ⟨c₀, hc₀, hsub⟩ := exists_chainAt_of_trimmed hc
    obtain ⟨c₀', hc₀', hsub'⟩ := exists_chainAt_of_trimmed hc'
    obtain ⟨hl, hn, -⟩ := place_unique h hc₀ hc₀' (hsub.subset hid) (hsub'.subset hid')
    exact ⟨by omega, hn⟩

/-- The inputs are the heads of the first layer. -/
theorem mem_inputs_iff :
    id ∈ net.inputs ↔ ∃ n c, chainAt net.layers 0 n = some c ∧ c.head? = some id := by
  cases hnet : net.layers with
  | nil => simp [inputs, hnet, chainAt]
  | cons layer ls =>
    simp only [inputs, hnet, List.head?_cons, Option.getD_some, List.mem_filterMap, chainAt,
      List.getElem?_cons_zero, Option.bind_some]
    constructor
    · rintro ⟨c, hc, hid⟩
      obtain ⟨n, hn⟩ := List.mem_iff_getElem?.1 hc
      exact ⟨n, c, hn, hid⟩
    · rintro ⟨n, c, hn, hid⟩
      exact ⟨c, List.mem_of_getElem? hn, hid⟩

theorem inputs_subset_nodes : net.inputs ⊆ net.nodes := by
  intro id hid
  obtain ⟨n, c, hc, hhead⟩ := mem_inputs_iff.1 hid
  exact mem_nodes hc (List.mem_of_head? hhead)

theorem outputs_subset_nodes : net.outputs ⊆ net.nodes := by
  intro id hid
  obtain ⟨c, hc, hlast⟩ := List.mem_filterMap.1 hid
  cases hl : net.layers.getLast? with
  | none =>
    rw [hl] at hc
    cases hc
  | some l =>
    rw [hl] at hc
    exact List.mem_flatten.2 ⟨c, List.mem_flatten.2 ⟨l, List.mem_of_getLast? hl, hc⟩,
      List.mem_of_getLast? hlast⟩

/-- What is kept of a network of layers is a network of layers, as soon as it reads its own nodes
only. -/
theorem readsFrom_trimmed {near : Nat → Nat → Prop}
    (hshift : ∀ k e l, near (k + e) (k + l) → near e l) (hnd : net.nodes.Nodup)
    (hf : net.ReadsFrom near a)
    (hclosed : ∀ id ∈ (net.trimmed r).nodes, ∀ t, (a.freed (net.trimmed r).inputs).Reads id t →
      t ∈ (net.trimmed r).nodes) :
    (net.trimmed r).ReadsFrom near (a.freed (net.trimmed r).inputs) := by
  intro l c id hid t ht
  obtain ⟨n, hc, hid⟩ := lies_iff.1 hid
  obtain ⟨c₀, hc₀, hsub⟩ := exists_chainAt_of_trimmed hc
  obtain ⟨l', n', c', hc', ht'⟩ := mem_nodes_iff.1 (hclosed id (mem_nodes hc hid) t ht)
  obtain ⟨c₀', hc₀', hsub'⟩ := exists_chainAt_of_trimmed hc'
  have hread := (Arena.reads_freed_iff.1 ht).2
  rcases hf _ c₀ id (lies_iff.2 ⟨n, hc₀, hsub.subset hid⟩) t hread with hown | ⟨l'', c'', hlt, hl⟩
  · obtain ⟨hll, rfl, -⟩ := place_unique hnd hc₀ hc₀' hown (hsub'.subset ht')
    obtain rfl : l = l' := by omega
    rw [hc] at hc'
    cases hc'
    exact .inl ht'
  · obtain ⟨n'', hc'', ht''⟩ := lies_iff.1 hl
    obtain ⟨rfl, -, -⟩ := place_unique hnd hc'' hc₀' ht'' (hsub'.subset ht')
    exact .inr ⟨l', c', hshift _ _ _ hlt, lies_iff.2 ⟨n', hc', ht'⟩⟩

/-- If the free nodes of a network are its lone input neurons, those of what is kept of it are its
inputs. -/
theorem isFree_trimmed_iff (hnet : net.WellFormed a) (hfree : net.FreeAtInputs a)
    (hid : id ∈ (net.trimmed r).nodes) :
    IsFree (a.freed (net.trimmed r).inputs) id ↔ id ∈ (net.trimmed r).inputs := by
  have hmem := nodes_trimmed_subset hid
  rw [Arena.isFree_freed_iff (hnet.held id hmem)]
  refine ⟨?_, .inl⟩
  rintro (hinput | hplain)
  · exact hinput
  · obtain ⟨layer, hhead, halone⟩ := (hfree id hmem).1 hplain
    obtain ⟨n₀, hn₀⟩ := List.mem_iff_getElem?.1 halone
    have hat : chainAt net.layers 0 n₀ = some [id] :=
      chainAt_eq_some_iff.2 ⟨layer, by rw [← List.head?_eq_getElem?, hhead], hn₀⟩
    obtain ⟨l, n, c, hc, hidc⟩ := mem_nodes_iff.1 hid
    obtain ⟨c₀, hc₀, hsub⟩ := exists_chainAt_of_trimmed hc
    obtain ⟨hl, rfl, rfl⟩ :=
      place_unique hnet.nodup hat hc₀ (List.mem_singleton.2 rfl) (hsub.subset hidc)
    -- A part of a neuron of one node that has this node is the neuron.
    have hlen : c.length ≤ 1 := hsub.length_le
    obtain rfl : c = [id] := by
      match c, hidc, hlen with
      | [j], hidc, _ => rw [List.mem_singleton.1 hidc]
    obtain rfl : l = 0 := by omega
    exact mem_inputs_iff.2 ⟨n₀, [id], hc, rfl⟩

end Network

end PiecewiseNet
