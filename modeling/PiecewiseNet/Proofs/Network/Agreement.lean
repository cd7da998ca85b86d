import PiecewiseNet.Proofs.Network.Altered
import PiecewiseNet.Proofs.Network.Sharing

/-!
# Agreement of altered networks with their base

Two copies of one network of layers, one of them with overrides, agree up to the first overridden
layer.

## Main statements

- `Network.Altered.agreesBefore`: an altered copy agrees with its base before the boundary.
- `Network.Altered.reads_from_boundary`: where nodes read the layer directly before, those behind
  the boundary read nothing before it.
-/

namespace PiecewiseNet

variable {α : Type}

namespace Network

variable [Scalar α] {net base altered : Network} {a b : Arena α} {ov : Overrides}
  {table : Substitution} {boundary : Nat} {g : NodeId → NodeId} {id : NodeId}

theorem Replaces.head?_eq {kind : OverrideKind} {chain chain' : Chain}
    (h : Replaces kind a b table chain chain') : chain'.head? = chain.head? := by
  obtain ⟨head, tail, n, hhead, -, -, ⟨-, rfl, -⟩ | ⟨bounds, new, m, -, rfl, -⟩⟩ := h
  · exact hhead.symm
  · exact hhead.symm

namespace Altered

variable (h : net.Altered a ov altered b table)

include h

theorem exists_chainAt_iff {l n : Nat} :
    (∃ c, chainAt altered.layers l n = some c) ↔ ∃ c, chainAt net.layers l n = some c := by
  cases hkey : ov.contains (l, n) with
  | false => rw [h.kept l n hkey]
  | true =>
    obtain ⟨kind, chain, chain', -, hat, hat', -⟩ := h.replaced l n hkey
    exact ⟨fun _ => ⟨chain, hat⟩, fun _ => ⟨chain', hat'⟩⟩

theorem layerSize_eq (l : Nat) : altered.layerSize l = net.layerSize l :=
  layerSize_congr fun _ => h.exists_chainAt_iff

variable (hmin : ∀ l n, ov.contains (l, n) = true → boundary ≤ l)

include hmin

/-- A shared node is an old one. Its neuron has no override, or lies in the boundary layer and the
node is its head. -/
theorem exists_of_shared (hid : altered.Shared ov boundary id) :
    ∃ l n pre post, chainAt net.layers l n = some (pre ++ id :: post) ∧ l ≤ boundary ∧
      (ov.contains (l, n) = false ∨ pre = []) := by
  obtain ⟨l, n, c', hc', hidc, hcases⟩ := hid
  have hl : l ≤ boundary := by omega
  cases hkey : ov.contains (l, n) with
  | false =>
    obtain ⟨pre, post, rfl⟩ := List.append_of_mem hidc
    exact ⟨l, n, pre, post, (h.kept l n hkey).symm.trans hc', hl, .inl hkey⟩
  | true =>
    obtain ⟨kind, chain, chain', -, hat, hat', hrep⟩ := h.replaced l n hkey
    obtain rfl : chain' = c' := Option.some.inj (hat'.symm.trans hc')
    have hge := hmin l n hkey
    have hhead : chain.head? = some id := by
      rcases hcases with hlt | ⟨-, hhead⟩
      · omega
      · rw [← hrep.head?_eq, hhead hkey]
    obtain ⟨post, rfl⟩ := List.head?_eq_some_iff.1 hhead
    exact ⟨l, n, [], post, hat, hl, .inr rfl⟩

omit hmin in
/-- A node of the network lies in the altered one, and is shared, if its neuron has no override and
is not behind the boundary. -/
theorem shared_of_kept {l n : Nat} {c : Chain} (hc : chainAt net.layers l n = some c)
    (hid : id ∈ c) (hl : l ≤ boundary) (hkey : ov.contains (l, n) = false) :
    altered.Shared ov boundary id := by
  refine ⟨l, n, c, (h.kept l n hkey).trans hc, hid, ?_⟩
  rcases Nat.lt_or_ge l boundary with hlt | hge
  · exact .inl hlt
  · refine .inr ⟨by omega, ?_⟩
    rw [hkey]
    intro hfalse
    cases hfalse

/-- What a shared node reads is shared, and not led elsewhere. -/
theorem reads_of_shared (hnet : net.WellFormed a) (he : net.ReadsEarlier a)
    (hid : altered.Shared ov boundary id) {r : NodeId} (hr : a.Reads id r) :
    altered.Shared ov boundary r ∧ table.apply r = r := by
  obtain ⟨l, n, pre, post, hc, hl, hcases⟩ := h.exists_of_shared hmin hid
  rcases hnet.reads_from he hc hr with hpre | ⟨l', n', c', hlt, hc', hrc⟩
  · rcases hcases with hkey | rfl
    · have hmem : r ∈ pre ++ id :: post := List.mem_append_left _ hpre
      exact ⟨h.shared_of_kept hc hmem hl hkey, h.apply_of_kept hnet.nodup hc hmem hkey⟩
    · cases hpre
  · have hkey : ov.contains (l', n') = false := by
      by_contra hkey
      have hge := hmin l' n' (by simpa using hkey)
      omega
    exact ⟨h.shared_of_kept hc' hrc (by omega) hkey,
      h.apply_of_kept hnet.nodup hc' hrc hkey⟩

/-- The node of a shared place is what it was, and it lies in the network. -/
theorem node_of_shared (hnet : net.WellFormed a) (he : net.ReadsEarlier a)
    (hid : altered.Shared ov boundary id) :
    id ∈ net.nodes ∧ ∃ n m, a.get? id = some n ∧ b.get? id = some m ∧ m.kind = n.kind ∧
      m.bounds = n.bounds := by
  obtain ⟨l, k, pre, post, hc, -, -⟩ := h.exists_of_shared hmin hid
  have hmem : id ∈ net.nodes := mem_nodes hc (by simp)
  obtain ⟨n, m, hn, hm, hkind, hbounds⟩ := h.node id hid.mem_nodes (hnet.held id hmem)
  refine ⟨hmem, n, m, hn, hm, ?_, hbounds⟩
  rw [hkind]
  refine NodeKind.redirect_of_eq ?_
  intro r hr
  exact (h.reads_of_shared hmin hnet he hid ((Arena.reads_iff hn).2 hr)).2

omit hmin in
/-- Every neuron has a counterpart in the network, with the same head. -/
theorem exists_head? {l n : Nat} {c' : Chain} (hc' : chainAt altered.layers l n = some c') :
    ∃ c, chainAt net.layers l n = some c ∧ c.head? = c'.head? := by
  cases hkey : ov.contains (l, n) with
  | false => exact ⟨c', (h.kept l n hkey).symm.trans hc', rfl⟩
  | true =>
    obtain ⟨kind, chain, chain', -, hat, hat', hrep⟩ := h.replaced l n hkey
    obtain rfl : chain' = c' := Option.some.inj (hat'.symm.trans hc')
    exact ⟨chain, hat, hrep.head?_eq.symm⟩

/-- A copy and an altered copy of one network of layers agree up to the first overridden layer. -/
theorem agreesBefore (hnet : net.WellFormed a) (he : net.ReadsEarlier a)
    (hcopy : net.Copy a g base a) (hdisj : ∀ id ∈ net.nodes, id ∉ base.nodes)
    (hwell : altered.WellFormed b) : base.AgreesBefore altered ov boundary g b := by
  have hbase := hcopy.wellFormed hnet
  have hunchanged : ∀ id ∈ base.nodes, b.get? id = a.get? id := fun id hid =>
    h.outside id (hbase.held id hid) fun hmem => hdisj id hmem hid
  have hshared : ∀ id, altered.Shared ov boundary id → id ∈ net.nodes := fun id hid =>
    (h.node_of_shared hmin hnet he hid).1
  refine ⟨hbase.of_get?_eq hunchanged, hwell, ?_, ?_, ?_, ?_, ?_, ?_, ?_, ?_, ?_⟩
  · intro id hid hidbase
    obtain ⟨l, n, c', hc', hidc⟩ := mem_nodes_iff.1 hid
    obtain ⟨c, hc, hidc⟩ := h.mem_chain hc' hidc (hbase.held id hidbase)
    exact hdisj id (mem_nodes hc hidc) hidbase
  · rw [h.length]
    exact hcopy.layerCount_eq.symm
  · rw [h.layerSize_eq, hcopy.layerSize_eq]
  · intro l n hl
    have hkey : ov.contains (l, n) = false := by
      by_contra hkey
      have hge := hmin l n (by simpa using hkey)
      omega
    rw [hcopy.chainAt_eq, h.kept l n hkey]
  · intro n hkey
    rw [hcopy.chainAt_eq, h.kept boundary n hkey]
  · intro n c' hc'
    obtain ⟨c, hc, hhead⟩ := h.exists_head? hc'
    refine ⟨c.map g, ?_, ?_⟩
    · rw [hcopy.chainAt_eq, hc, Option.map_some]
    · rw [List.head?_map, hhead]
  · intro i hi j hj
    exact hcopy.injOn i (hshared i hi) j (hshared j hj)
  · intro id hid
    obtain ⟨-, n, m, hn, hm, hkind, hbounds⟩ := h.node_of_shared hmin hnet he hid
    obtain ⟨n', o, hn', ho, hkind', hbounds'⟩ := hcopy.mirrors id (hshared id hid)
    obtain rfl : n = n' := by simpa [hn] using hn'
    have ho' := (hunchanged _ (hcopy.mem_nodes (hshared id hid))).trans ho
    exact ⟨m, o, hm, ho', hkind'.trans (by rw [hkind]), hbounds'.trans hbounds.symm⟩
  · intro id hid r hr
    obtain ⟨-, n, m, hn, hm, hkind, -⟩ := h.node_of_shared hmin hnet he hid
    rw [Arena.reads_iff hm, Node.references, hkind] at hr
    exact (h.reads_of_shared hmin hnet he hid ((Arena.reads_iff hn).2 hr)).1

omit hmin in
/-- Where nodes read the layer directly before, those behind the boundary read nothing before it. -/
theorem reads_from_boundary (hnet : net.WellFormed a) (hp : net.ReadsPrevious a)
    (hshort : net.ShortChains) (hid : id ∈ altered.nodes)
    (hnot : ¬altered.Shared ov boundary id) {r : NodeId} (hr : b.Reads id r) {l n : Nat} {c : Chain}
    (hc : chainAt altered.layers l n = some c) (hrc : r ∈ c) : boundary ≤ l := by
  obtain ⟨l', n', c', hc', hidc⟩ := mem_nodes_iff.1 hid
  rw [shared_iff h.nodup hc' hidc, not_or, not_and] at hnot
  obtain ⟨pre, post, rfl⟩ := List.append_of_mem hidc
  rcases h.reads_from hnet hp (hshort.shortAt ov) hc' hr with hpre | ⟨l'', n'', d, hl'', hd, hrd⟩
  · obtain ⟨rfl, -⟩ := place_unique h.nodup hc hc' hrc (List.mem_append_left _ hpre)
    omega
  · obtain ⟨rfl, -⟩ := place_unique h.nodup hc hd hrc hrd
    rcases Nat.lt_or_ge boundary l' with hlt | hge
    · omega
    · -- Behind the head of an overridden neuron there is at most a free node.
      obtain rfl : l' = boundary := by omega
      exfalso
      refine hnot.2 rfl fun hkey => ?_
      obtain ⟨kind, chain, chain', -, hat, hat', hrep⟩ := h.replaced l' n' hkey
      obtain rfl := Option.some.inj (hat'.symm.trans hc')
      obtain ⟨hlt, -⟩ := h.reads hid hr
      rw [hrep.head?_eq]
      rcases hrep.mem hidc with hhead | ⟨hnew, -⟩
      · exact hhead
      · exact absurd hlt (Nat.not_lt.2 hnew)

end Altered

end Network

end PiecewiseNet
