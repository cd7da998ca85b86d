import PiecewiseNet.Proofs.Network.Altered
import PiecewiseNet.Proofs.Network.ClippedValues
import PiecewiseNet.Proofs.Network.Recomputing

/-!
# Overrides of clipped copies

An analysis first clips a copy of a network and then overrides neurons of the copy. Seen from the
network, every node that the range keeps has a stand-in, and whatever read the node reads either its
stand-in or, for the last kept node of an overridden neuron, what the override puts in its place.

## Main definitions

- `Network.ClippedUnder`: a network is what a range keeps of another one, with overrides.

## Main statements

- `Network.Altered.clippedUnder`: overriding a clipped copy gives such a network.
- `Network.ClippedUnder.reads`: what its nodes read.
-/

namespace PiecewiseNet

variable {α : Type}

namespace Network

variable [Scalar α]

/-- What a range keeps of a network, on other nodes and with overrides, which are given by their
places in the network. The map `f` leads from each node that is kept to its stand-in, and `g` from
each node that may be read to what is read in its place. -/
structure ClippedUnder (net : Network) (r : ClipRange) (a : Arena α)
    (kinds : Nat → Nat → Option OverrideKind) (f g : NodeId → NodeId) (net' : Network)
    (b : Arena α) : Prop where
  range : r.firstLayer < r.resolveLast net.layerCount ∧
    r.resolveLast net.layerCount < net.layerCount
  layerCount : net'.layerCount = r.resolveLast net.layerCount - r.firstLayer + 1
  /-- The stand-ins are new. -/
  fresh : ∀ id ∈ (net.trimmed r).nodes, a.size ≤ f id
  injOn : ∀ i ∈ (net.trimmed r).nodes, ∀ j ∈ (net.trimmed r).nodes, f i = f j → i = j
  /-- Of a neuron without an override the range keeps a part, on the stand-ins. -/
  kept : ∀ l n, l < net'.layerCount → kinds (r.firstLayer + l) n = none →
    chainAt net'.layers l n = (chainAt net.layers (r.firstLayer + l) n).map fun c =>
      (r.keep net'.layerCount l c).map f
  /-- Of an overridden neuron the stand-in of the first kept node is left, possibly with a new free
  node behind it. What read the last kept node reads the last of these. -/
  replaced : ∀ l n kind, kinds (r.firstLayer + l) n = some kind → ∃ c head tail m,
    chainAt net.layers (r.firstLayer + l) n = some c ∧
    (r.keep net'.layerCount l c).head? = some head ∧
    (r.keep net'.layerCount l c).getLast? = some tail ∧ a.get? tail = some m ∧
    (kind.addedBounds m.bounds = none ∧ chainAt net'.layers l n = some [f head] ∧
        g tail = f head ∨
      ∃ bounds new o, kind.addedBounds m.bounds = some bounds ∧
        chainAt net'.layers l n = some [f head, new] ∧ g tail = new ∧ a.size ≤ new ∧
        (∀ id ∈ (net.trimmed r).nodes, f id ≠ new) ∧ b.get? new = some o ∧ o.kind = .plain ∧
        o.bounds = bounds)
  /-- What read any other node reads its stand-in. -/
  other : ∀ id ∈ (net.trimmed r).nodes, (∀ l n c, kinds (r.firstLayer + l) n ≠ none →
    chainAt net.layers (r.firstLayer + l) n = some c →
    (r.keep net'.layerCount l c).getLast? ≠ some id) → g id = f id
  /-- The stand-in of a severed node is free, and any other stand-in is of the kind of its node;
  both have the bounds of their nodes. -/
  node : ∀ id ∈ (net.trimmed r).nodes, f id ∈ net'.nodes → ∃ n m, a.get? id = some n ∧
    b.get? (f id) = some m ∧ m.bounds = n.bounds ∧
    (net.IsSevered r id ∧ m.kind = .plain ∨
      ¬net.IsSevered r id ∧ m.kind = n.kind.redirect g)

variable {net twin altered : Network} {r : ClipRange} {a b c : Arena α} {ov : Overrides}
  {table : Substitution} {f g : NodeId → NodeId} {kinds : Nat → Nat → Option OverrideKind}

omit [Scalar α] in
/-- What a range keeps of a neuron, in the network that it keeps. -/
theorem chainAt_trimmed_of_lt {l : Nat} (hl : l < (net.trimmed r).layerCount) (n : Nat) :
    chainAt (net.trimmed r).layers l n = (chainAt net.layers (r.firstLayer + l) n).map
      (r.keep (net.trimmed r).layerCount l) := by
  have hlen : (net.trimmed r).layerCount = (net.keptLayers r).length := by
    rw [Network.layerCount, trimmed, List.length_mapIdx]
  rw [hlen] at hl ⊢
  rw [chainAt_trimmed, chainAt_keptLayers_of_lt hl]

section

variable (hcopy : (net.trimmed r).Copy (a.freed (net.trimmed r).inputs) f twin c)

include hcopy

omit [Scalar α] in
/-- A neuron of a clipped copy is on the stand-ins of what is kept of a neuron. -/
theorem Copy.exists_keep {l n : Nat} {chain : Chain} (hat : chainAt twin.layers l n = some chain) :
    ∃ d, chainAt net.layers (r.firstLayer + l) n = some d ∧
      chainAt (net.trimmed r).layers l n = some (r.keep (net.trimmed r).layerCount l d) ∧
      chain = (r.keep (net.trimmed r).layerCount l d).map f := by
  rw [hcopy.chainAt_eq, Option.map_eq_some_iff] at hat
  obtain ⟨d, hd, rfl⟩ := hat
  have hkept := hd
  rw [chainAt_trimmed_of_lt (lt_layerCount hd), Option.map_eq_some_iff] at hkept
  obtain ⟨d, hat, rfl⟩ := hkept
  exact ⟨d, hat, hd, rfl⟩

variable (halt : twin.Altered c ov altered b table) (htwin : twin.WellFormed c)

include halt

/-- Only the stand-in of the last kept node of an overridden neuron is led elsewhere. -/
theorem Altered.apply_of_clipped {id : NodeId} (hid : id ∈ (net.trimmed r).nodes)
    (hnot : ∀ l n d, ov.kindAt l n ≠ none → chainAt net.layers (r.firstLayer + l) n = some d →
      (r.keep (net.trimmed r).layerCount l d).getLast? ≠ some id) :
    table.apply (f id) = f id := by
  refine halt.other (f id) fun l n chain hkey hat hlast => ?_
  obtain ⟨d, hd, hkept, rfl⟩ := hcopy.exists_keep hat
  rw [List.getLast?_map, Option.map_eq_some_iff] at hlast
  obtain ⟨tail, htail, heq⟩ := hlast
  obtain rfl := hcopy.injOn tail (mem_nodes hkept (List.mem_of_getLast? htail)) id hid heq
  refine hnot l n d ?_ hd htail
  rw [ne_eq, Overrides.kindAt_eq_none_iff, hkey]
  exact Bool.noConfusion

include htwin

/-- What is left of an overridden neuron. -/
theorem Altered.replaced_of_clipped (hsize : a.size ≤ c.size) {l n : Nat} {kind : OverrideKind}
    (hkind : ov.kindAt l n = some kind) : ∃ d head tail m,
      chainAt net.layers (r.firstLayer + l) n = some d ∧
      (r.keep (net.trimmed r).layerCount l d).head? = some head ∧
      (r.keep (net.trimmed r).layerCount l d).getLast? = some tail ∧ a.get? tail = some m ∧
      (kind.addedBounds m.bounds = none ∧ chainAt altered.layers l n = some [f head] ∧
          table.apply (f tail) = f head ∨
        ∃ bounds new o, kind.addedBounds m.bounds = some bounds ∧
          chainAt altered.layers l n = some [f head, new] ∧ table.apply (f tail) = new ∧
          a.size ≤ new ∧ (∀ id ∈ (net.trimmed r).nodes, f id ≠ new) ∧ b.get? new = some o ∧
          o.kind = .plain ∧ o.bounds = bounds) := by
  have hkey : ov.contains (l, n) = true := by
    rw [← Bool.not_eq_false, ← Overrides.kindAt_eq_none_iff, hkind]
    exact Option.some_ne_none kind
  obtain ⟨kind', chain, chain', hentry, hat, hat', hrep⟩ := halt.replaced l n hkey
  obtain rfl : kind = kind' := Option.some.inj (hkind.symm.trans (Overrides.kindAt_of_mem hentry))
  obtain ⟨d, hd, hkept, rfl⟩ := hcopy.exists_keep hat
  obtain ⟨_, _, m', hhead, htail, hm', hcases⟩ := hrep
  rw [List.head?_map, Option.map_eq_some_iff] at hhead
  rw [List.getLast?_map, Option.map_eq_some_iff] at htail
  obtain ⟨head, hhead, rfl⟩ := hhead
  obtain ⟨tail, htail, rfl⟩ := htail
  -- The copy of the tail has the bounds of the tail.
  obtain ⟨n₀, m₀, hn₀, hm₀, -, hbounds⟩ :=
    hcopy.mirrors tail (mem_nodes hkept (List.mem_of_getLast? htail))
  obtain rfl : m' = m₀ := Option.some.inj (hm'.symm.trans hm₀)
  obtain ⟨m, hm, hsame, -⟩ := Arena.exists_of_get?_freed hn₀
  rw [hbounds, hsame] at hcases
  refine ⟨d, head, tail, m, hd, hhead, htail, hm, ?_⟩
  rcases hcases with ⟨hadded, rfl, hto⟩ | ⟨bounds, new, o, hadded, rfl, hto, hnew, ho⟩
  · exact .inl ⟨hadded, hat', hto⟩
  · refine .inr ⟨bounds, new, o, hadded, hat', hto, hsize.trans hnew, ?_, ho⟩
    intro id hid heq
    exact absurd (htwin.held _ (hcopy.mem_nodes hid)) (Nat.not_lt.2 (heq ▸ hnew))

/-- A stand-in that is left reads what the table leads to. -/
theorem Altered.node_of_clipped (hpos : 0 < (net.keptLayers r).length) {id : NodeId}
    (hid : id ∈ (net.trimmed r).nodes) (hmem : f id ∈ altered.nodes) :
    ∃ n m, a.get? id = some n ∧ b.get? (f id) = some m ∧ m.bounds = n.bounds ∧
      (net.IsSevered r id ∧ m.kind = .plain ∨
        ¬net.IsSevered r id ∧ m.kind = n.kind.redirect fun i => table.apply (f i)) := by
  obtain ⟨n', m, hn', hm, hkind, hbounds⟩ :=
    halt.node (f id) hmem (htwin.held _ (hcopy.mem_nodes hid))
  obtain ⟨n₀, m₀, hn₀, hm₀, hkind₀, hbounds₀⟩ := hcopy.mirrors id hid
  obtain rfl : n' = m₀ := Option.some.inj (hn'.symm.trans hm₀)
  obtain ⟨n, hn, hsame, hcases⟩ := Arena.exists_of_get?_freed hn₀
  rw [hkind₀, NodeKind.redirect_redirect] at hkind
  refine ⟨n, m, hn, hm, hbounds.trans (hbounds₀.trans hsame), ?_⟩
  simp only [mem_inputs_trimmed_iff_isSevered hpos] at hcases
  rcases hcases with ⟨hsevered, hplain⟩ | ⟨hsevered, hold⟩
  · exact .inl ⟨hsevered, by rw [hkind, hplain]; rfl⟩
  · exact .inr ⟨hsevered, by rw [hkind, hold]⟩

/-- Overriding a clipped copy. -/
theorem Altered.clippedUnder (hfirst : r.firstLayer < r.resolveLast net.layerCount)
    (hlast : r.resolveLast net.layerCount < net.layerCount)
    (hfresh : ∀ id ∈ (net.trimmed r).nodes, a.size ≤ f id) (hsize : a.size ≤ c.size)
    (hkinds : ∀ l n, ov.kindAt l n = kinds (r.firstLayer + l) n) :
    net.ClippedUnder r a kinds f (fun id => table.apply (f id)) altered b := by
  have hcount : altered.layerCount = (net.trimmed r).layerCount := by
    rw [Network.layerCount, halt.length]
    exact hcopy.layerCount_eq
  have hpos : 0 < (net.keptLayers r).length := by
    rw [length_keptLayers hfirst.le hlast]
    exact Nat.succ_pos _
  refine ⟨⟨hfirst, hlast⟩, hcount.trans (layerCount_trimmed hfirst hlast), hfresh, hcopy.injOn,
    ?_, ?_, ?_, fun id => halt.node_of_clipped hcopy htwin hpos⟩
  · intro l n hl hnone
    rw [← hkinds, Overrides.kindAt_eq_none_iff] at hnone
    rw [halt.kept l n hnone, hcopy.chainAt_eq, hcount, chainAt_trimmed_of_lt (hcount ▸ hl),
      Option.map_map]
    rfl
  · intro l n kind hkind
    rw [hcount]
    exact halt.replaced_of_clipped hcopy htwin hsize ((hkinds l n).trans hkind)
  · intro id hid hnot
    simp only [hcount, ← hkinds] at hnot
    exact halt.apply_of_clipped hcopy hid hnot

end

/-! ## What is read -/

namespace ClippedUnder

variable (h : net.ClippedUnder r a kinds f g altered b) {id t : NodeId} {l n : Nat} {d : Chain}

include h

/-- What is kept of a neuron, if it has no override. -/
theorem chainAt_kept (hl : l < altered.layerCount) (hkind : kinds (r.firstLayer + l) n = none)
    (hd : chainAt net.layers (r.firstLayer + l) n = some d) :
    chainAt altered.layers l n = some ((r.keep altered.layerCount l d).map f) := by
  rw [h.kept l n hl hkind, hd, Option.map_some]

/-- Of a neuron that puts out its pre-activation one node is left, and it is read in place of the
last kept node. -/
theorem chainAt_active (hkind : kinds (r.firstLayer + l) n = some .active)
    (hd : chainAt net.layers (r.firstLayer + l) n = some d) :
    ∃ head tail, (r.keep altered.layerCount l d).head? = some head ∧
      (r.keep altered.layerCount l d).getLast? = some tail ∧
      chainAt altered.layers l n = some [f head] ∧ g tail = f head := by
  obtain ⟨d', head, tail, m, hd', hhead, htail, -, hcases⟩ := h.replaced l n _ hkind
  obtain rfl : d = d' := Option.some.inj (hd.symm.trans hd')
  rcases hcases with ⟨-, hat, hto⟩ | ⟨bounds, new, o, hadded, -⟩
  · exact ⟨head, tail, hhead, htail, hat, hto⟩
  · cases hadded

/-- What the range keeps of a neuron. -/
theorem chainAt_trimmed (hl : l < altered.layerCount) (n : Nat) :
    chainAt (net.trimmed r).layers l n = (chainAt net.layers (r.firstLayer + l) n).map
      (r.keep altered.layerCount l) := by
  have hcount : altered.layerCount = (net.trimmed r).layerCount :=
    h.layerCount.trans (layerCount_trimmed h.range.1 h.range.2).symm
  rw [hcount] at hl ⊢
  exact chainAt_trimmed_of_lt hl n

/-- A node that the range keeps lies in a layer of the range. -/
theorem exists_keep (hid : id ∈ (net.trimmed r).nodes) : ∃ l n d, l < altered.layerCount ∧
    chainAt net.layers (r.firstLayer + l) n = some d ∧ id ∈ r.keep altered.layerCount l d := by
  obtain ⟨l, n, c, hc, hidc⟩ := mem_nodes_iff.1 hid
  have hl := lt_layerCount hc
  rw [layerCount_trimmed h.range.1 h.range.2, ← h.layerCount] at hl
  rw [h.chainAt_trimmed hl, Option.map_eq_some_iff] at hc
  obtain ⟨d, hd, rfl⟩ := hc
  exact ⟨l, n, d, hl, hd, hidc⟩

/-- A stand-in that is left stands for a node of a neuron without an override, or for the first kept
node of one with an override. -/
theorem exists_keep_of_mem (hid : id ∈ (net.trimmed r).nodes) (hmem : f id ∈ altered.nodes) :
    ∃ l n d, chainAt net.layers (r.firstLayer + l) n = some d ∧
      id ∈ r.keep altered.layerCount l d ∧ (kinds (r.firstLayer + l) n = none ∨
        (r.keep altered.layerCount l d).head? = some id) := by
  obtain ⟨l, n, c, hc, hidc⟩ := mem_nodes_iff.1 hmem
  have hl := lt_layerCount hc
  have hkeptnodes : ∀ d, chainAt net.layers (r.firstLayer + l) n = some d →
      ∀ i ∈ r.keep altered.layerCount l d, i ∈ (net.trimmed r).nodes := by
    intro d hd i hi
    refine mem_nodes (l := l) (n := n) ?_ hi
    rw [h.chainAt_trimmed hl, hd, Option.map_some]
  cases hkind : kinds (r.firstLayer + l) n with
  | none =>
    rw [h.kept l n hl hkind, Option.map_eq_some_iff] at hc
    obtain ⟨d, hd, rfl⟩ := hc
    obtain ⟨i, hi, heq⟩ := List.mem_map.1 hidc
    obtain rfl := h.injOn i (hkeptnodes d hd i hi) id hid heq
    exact ⟨l, n, d, hd, hi, .inl hkind⟩
  | some kind =>
    obtain ⟨d, head, tail, m, hd, hhead, -, -, hcases⟩ := h.replaced l n kind hkind
    have hmemhead := List.mem_of_head? hhead
    -- What is left besides the first stand-in is no stand-in.
    have heq : f head = f id := by
      rcases hcases with ⟨-, hat, -⟩ | ⟨bounds, new, o, -, hat, -, -, hnew, -⟩
      · cases hc.symm.trans hat
        exact (List.mem_singleton.1 hidc).symm
      · cases hc.symm.trans hat
        rcases List.mem_cons.1 hidc with heq | hidc
        · exact heq.symm
        · exact absurd (List.mem_singleton.1 hidc) (hnew id hid)
    obtain rfl := h.injOn head (hkeptnodes d hd head hmemhead) id hid heq
    exact ⟨l, n, d, hd, hmemhead, .inr hhead⟩

/-- A stand-in of a node that is not severed reads what is read in place of what the node reads. -/
theorem reads (hid : id ∈ (net.trimmed r).nodes) (hmem : f id ∈ altered.nodes)
    (hnot : ¬net.IsSevered r id) (ht : a.Reads id t) : b.Reads (f id) (g t) := by
  obtain ⟨n, m, hn, hm, -, ⟨hsevered, -⟩ | ⟨-, hkind⟩⟩ := h.node id hid hmem
  · exact absurd hsevered hnot
  · rw [Arena.reads_iff hm, Node.references, hkind, NodeKind.references_redirect]
    exact List.mem_map_of_mem ((Arena.reads_iff hn).1 ht)

section

variable {head tail : NodeId} (hkind : kinds (r.firstLayer + l) n = some .active)
  (hd : chainAt net.layers (r.firstLayer + l) n = some [head, tail])
  (hl : l + 1 < altered.layerCount)

include hkind hd hl

/-- Of a neuron whose activation is severed nothing but the input in its place is kept, and this is
read. -/
theorem active_of_severed (hfirst : l = 0) (hcut : r.firstCut = 1) :
    g tail = f tail ∧ IsFree b (f tail) := by
  subst hfirst
  have hkeep : r.keep altered.layerCount 0 [head, tail] = [tail] := by
    simp only [ClipRange.keep, hcut, if_true, if_neg (Nat.ne_of_lt hl)]
    rfl
  obtain ⟨_, _, hhead, htail, hat, hto⟩ := h.chainAt_active hkind hd
  rw [hkeep] at hhead htail
  cases hhead
  cases htail
  refine ⟨hto, ?_⟩
  have hkept : tail ∈ (net.trimmed r).nodes := by
    refine mem_nodes (l := 0) (n := n) (c := [tail]) ?_ (List.mem_singleton.2 rfl)
    rw [h.chainAt_trimmed (Nat.zero_lt_of_lt hl), hd, Option.map_some, hkeep]
  have hsevered : net.IsSevered r tail := ⟨n, [head, tail], hd, by rw [hcut]; rfl⟩
  obtain ⟨_, m, -, hm, -, ⟨-, hplain⟩ | ⟨hnot, -⟩⟩ :=
    h.node tail hkept (mem_nodes hat (List.mem_singleton.2 rfl))
  · exact ⟨m, hm, hplain⟩
  · exact absurd hsevered hnot

/-- Otherwise the pre-activation is read in place of the activation, which is dropped. -/
theorem active_of_not_severed (hnd : net.nodes.Nodup) (hcut : ¬(l = 0 ∧ r.firstCut = 1)) :
    g tail = f head ∧ f tail ∉ altered.nodes := by
  obtain ⟨_, _, hhead, htail, -, hto⟩ := h.chainAt_active hkind hd
  -- A range that cuts behind both nodes keeps nothing of the neuron, but something is kept.
  have hkeep : r.keep altered.layerCount l [head, tail] = [head, tail] := by
    simp only [ClipRange.keep, if_neg (Nat.ne_of_lt hl)] at hhead ⊢
    split
    · rename_i hzero
      rw [if_pos hzero] at hhead
      rcases hfirst : r.firstCut with _ | _ | k
      · rfl
      · exact absurd ⟨hzero, hfirst⟩ hcut
      · rw [hfirst] at hhead
        simp at hhead
    · rfl
  rw [hkeep] at hhead htail
  cases hhead
  cases htail
  refine ⟨hto, fun hmem => ?_⟩
  have hkept : tail ∈ (net.trimmed r).nodes := by
    refine mem_nodes (l := l) (n := n) (c := [head, tail]) ?_ (by simp)
    rw [h.chainAt_trimmed (Nat.lt_of_succ_lt hl), hd, Option.map_some, hkeep]
  obtain ⟨l', n', d, hd', hmemd, hcases⟩ := h.exists_keep_of_mem hkept hmem
  obtain ⟨hlayer, rfl, rfl⟩ :=
    place_unique hnd hd hd' (by simp) ((isInfix_keep _ _).subset hmemd)
  obtain rfl : l = l' := Nat.add_left_cancel hlayer
  rcases hcases with hnone | hfirst
  · cases hkind.symm.trans hnone
  · rw [hkeep] at hfirst
    cases hfirst
    exact absurd (nodup_chainAt hnd hd) (by simp)

end

end ClippedUnder

end Network

end PiecewiseNet
