import PiecewiseNet.Proofs.Network.Agreement
import PiecewiseNet.Proofs.Network.Checking
import PiecewiseNet.Proofs.Network.Reduction
import PiecewiseNet.Proofs.Network.Trimming
import Mathlib.Algebra.Order.Ring.Rat

/-!
# Recomputed networks

Overriding neurons comes to recomputing the network: every node has the value that it computes from
what it reads, and whatever reads the output of an overridden neuron reads what replaces its
activation. Without overrides the recomputations within the bounds are the runs.

## Main definitions

- `OverrideKind.Gives`: what replaces an activation.
- `Network.Recomputes`: values that are recomputed, and values that are read.
- `Network.WithinBounds`: the recomputed values lie within the bounds of their nodes.
- `Network.RunsAt`: values that satisfy some neurons of a network.

## Main statements

- `Network.runsAt_iff`: runs are the recomputations without overrides.
- `Network.Copy.exists_recomputes_iff`: a copy has the recomputations of the original.
- `Network.Recomputes.eq_of_runsAt`: before the first override nothing changes.
-/

namespace PiecewiseNet

/-- What is read in place of the output of a neuron: `x` is its pre-activation, and `old` are the
bounds of its output. -/
def OverrideKind.Gives (kind : OverrideKind) (old : Interval Rat) (x y : Rat) : Prop :=
  match kind with
  | .active => y = x
  | .inactive => y = 0
  | .nofunc => old.Holds y

/-- The overrides by places. -/
def Overrides.kindAt (ov : Overrides) (l n : Nat) : Option OverrideKind :=
  ov.get? (l, n)

namespace OverrideKind

variable {kind : OverrideKind} {old bounds : Interval Rat} {x y : Rat}

theorem gives_of_addedBounds_eq_none (h : kind.addedBounds old = none) :
    kind.Gives old x y ↔ y = x := by
  cases kind with
  | active => exact Iff.rfl
  | inactive => cases h
  | nofunc => cases h

/-- A node that is added has the values that an override gives. -/
theorem gives_of_addedBounds_eq_some (h : kind.addedBounds old = some bounds) :
    kind.Gives old x y ↔ bounds.Holds y := by
  cases kind with
  | active => cases h
  | inactive =>
    obtain rfl := Option.some.inj h
    show y = 0 ↔ (∀ l, some 0 = some l → l ≤ y) ∧ ∀ u, some 0 = some u → y ≤ u
    simp only [Option.some.injEq, forall_eq']
    exact ⟨fun hy => ⟨hy.ge, hy.le⟩, fun hy => le_antisymm hy.2 hy.1⟩
  | nofunc =>
    obtain rfl := Option.some.inj h
    exact Iff.rfl

end OverrideKind

theorem Overrides.kindAt_eq_none_iff {ov : Overrides} {l n : Nat} :
    ov.kindAt l n = none ↔ ov.contains (l, n) = false := by
  rw [kindAt, OrderedMap.contains, Option.isSome_eq_false_iff, Option.isNone_iff_eq_none]

theorem Overrides.kindAt_of_mem {ov : Overrides} {l n : Nat} {kind : OverrideKind}
    (h : ((l, n), kind) ∈ ov.entries) : ov.kindAt l n = some kind :=
  OrderedMap.get?_of_mem ov.nodup_keys h

namespace Network

variable {net net' : Network} {a b : Arena Rat} {kinds : Nat → Nat → Option OverrideKind}
  {places : Nat → Nat → Prop} {u v w r : Valuation Rat} {id : NodeId}

/-- A node of one of these neurons that overrides leave in the network: its neuron has no override,
or it is the head. -/
def Stays (net : Network) (kinds : Nat → Nat → Option OverrideKind) (places : Nat → Nat → Prop)
    (id : NodeId) : Prop :=
  ∃ l n c, places l n ∧ chainAt net.layers l n = some c ∧ id ∈ c ∧
    (kinds l n = none ∨ c.head? = some id)

/-- The neurons at these places, recomputed with overrides: `w` are the values of the nodes and `r`
the values that are read. -/
structure Recomputes (net : Network) (a : Arena Rat) (kinds : Nat → Nat → Option OverrideKind)
    (places : Nat → Nat → Prop) (w r : Valuation Rat) : Prop where
  /-- A node that stays has the value that it computes from what is read. -/
  value : ∀ id, net.Stays kinds places id → ∃ n, a.get? id = some n ∧ w id = n.kind.value r (w id)
  /-- All nodes but the tails of overridden neurons are read as they are. -/
  read : ∀ l n c id, places l n → chainAt net.layers l n = some c → id ∈ c →
    (kinds l n = none ∨ c.getLast? ≠ some id) → r id = w id
  /-- In place of such a tail what replaces the activation is read. -/
  replaced : ∀ l n c kind head tail m, places l n → chainAt net.layers l n = some c →
    kinds l n = some kind → c.head? = some head → c.getLast? = some tail →
      a.get? tail = some m → kind.Gives m.bounds (w head) (r tail)

/-- The values of the nodes that stay lie within the bounds that the nodes have. -/
def WithinBounds (net : Network) (a : Arena Rat) (kinds : Nat → Nat → Option OverrideKind)
    (places : Nat → Nat → Prop) (w : Valuation Rat) : Prop :=
  ∀ id, net.Stays kinds places id → ∃ n, a.get? id = some n ∧ n.bounds.Holds (w id)

/-- The values satisfy the neurons at these places. -/
def RunsAt (net : Network) (a : Arena Rat) (places : Nat → Nat → Prop) (v : Valuation Rat) :
    Prop :=
  ∀ l n c, places l n → chainAt net.layers l n = some c → ∀ id ∈ c, a.Satisfies v id

/-- With a neuron all neurons of earlier layers are among these places. -/
def Initial (net : Network) (places : Nat → Nat → Prop) : Prop :=
  ∀ l n l' n', places l n → l < net.layerCount → l' < l → places l' n'

theorem Recomputes.value_eq (h : net.Recomputes a kinds places w r)
    (hid : net.Stays kinds places id) {n : Node Rat} (hn : a.get? id = some n) :
    w id = n.kind.value r (w id) := by
  obtain ⟨m, hm, hvalue⟩ := h.value id hid
  obtain rfl := Option.some.inj (hn.symm.trans hm)
  exact hvalue

theorem WithinBounds.holds (h : net.WithinBounds a kinds places w)
    (hid : net.Stays kinds places id) {n : Node Rat} (hn : a.get? id = some n) :
    n.bounds.Holds (w id) := by
  obtain ⟨m, hm, hholds⟩ := h id hid
  obtain rfl := Option.some.inj (hn.symm.trans hm)
  exact hholds

/-- A run is a recomputation without overrides, within the bounds. -/
theorem runsAt_iff :
    net.RunsAt a places v ↔ net.Recomputes a (fun _ _ => none) places v v ∧
      net.WithinBounds a (fun _ _ => none) places v := by
  constructor
  · intro h
    refine ⟨⟨?_, fun _ _ _ _ _ _ _ _ => rfl, ?_⟩, ?_⟩
    · rintro id ⟨l, n, c, hplace, hc, hid, -⟩
      obtain ⟨m, hm, hholds⟩ := h l n c hplace hc id hid
      exact ⟨m, hm, hholds.value⟩
    · intro l n c kind head tail m _ _ hkind
      cases hkind
    · rintro id ⟨l, n, c, hplace, hc, hid, -⟩
      obtain ⟨m, hm, hholds⟩ := h l n c hplace hc id hid
      exact ⟨m, hm, hholds.bounds⟩
  · rintro ⟨hvalue, hbounds⟩ l n c hplace hc id hid
    have hstays : net.Stays (fun _ _ => none) places id := ⟨l, n, c, hplace, hc, hid, .inl rfl⟩
    obtain ⟨m, hm, heq⟩ := hvalue.value id hstays
    exact ⟨m, hm, heq, hbounds.holds hstays hm⟩

theorem Stays.mem_nodes (h : net.Stays kinds places id) : id ∈ net.nodes := by
  obtain ⟨l, n, c, -, hc, hid, -⟩ := h
  exact Network.mem_nodes hc hid

/-! ## One output neuron -/

/-- The neurons that are left when one output neuron is kept. -/
def LeadsTo (net : Network) (index l n : Nat) : Prop :=
  l + 1 < net.layerCount ∨ n = index

theorem initial_leadsTo (net : Network) (index : Nat) : net.Initial (net.LeadsTo index) :=
  fun _ _ _ _ _ hl hlt => .inl (by omega)

/-- The runs of a network reduced to one output neuron. -/
theorem runs_reduced_iff {index : Nat} {d : Chain} (hne : net.layers ≠ [])
    (hd : chainAt net.layers (net.layerCount - 1) index = some d) :
    (net.reduced d).Runs a v ↔ net.RunsAt a (net.LeadsTo index) v := by
  have hpos : 0 < net.layerCount := List.length_pos_iff.2 hne
  constructor
  · intro h l n c hplace hc id hid
    refine h id ?_
    by_cases hlt : l + 1 < net.layerCount
    · refine Network.mem_nodes (l := l) (n := n) (c := c) ?_ hid
      rw [chainAt_reduced hne, if_pos hlt, hc]
    · obtain rfl : n = index := hplace.resolve_left hlt
      have hl : l = net.layerCount - 1 := by have := lt_layerCount hc; omega
      obtain rfl : d = c := Option.some.inj (hd.symm.trans (hl ▸ hc))
      exact mem_nodes_reduced hid
  · intro h id hid
    obtain ⟨l, n, c, hc, hid⟩ := mem_nodes_iff.1 hid
    rw [chainAt_reduced hne] at hc
    split at hc
    · rename_i hlt
      exact h l n c (.inl hlt) hc id hid
    · split at hc
      · obtain rfl := Option.some.inj hc
        exact h _ index d (.inr rfl) hd id hid
      · cases hc

/-! ## Copies -/

theorem Copy.stays_iff {f : NodeId → NodeId} (h : net.Copy a f net' b) (hid : id ∈ net.nodes) :
    net'.Stays kinds places (f id) ↔ net.Stays kinds places id := by
  constructor
  · rintro ⟨l, n, c', hplace, hc', hmem, hkind⟩
    rw [h.chainAt_eq, Option.map_eq_some_iff] at hc'
    obtain ⟨c, hc, rfl⟩ := hc'
    have hback : ∀ j ∈ c, f j = f id → j = id := fun j hj =>
      h.injOn j (Network.mem_nodes hc hj) id hid
    obtain ⟨j, hj, heq⟩ := List.mem_map.1 hmem
    obtain rfl := hback j hj heq
    refine ⟨l, n, c, hplace, hc, hj, hkind.imp_right ?_⟩
    intro hhead
    rw [List.head?_map, Option.map_eq_some_iff] at hhead
    obtain ⟨i, hi, heq⟩ := hhead
    rw [hi, hback i (List.mem_of_head? hi) heq]
  · rintro ⟨l, n, c, hplace, hc, hmem, hkind⟩
    refine ⟨l, n, c.map f, hplace, ?_, List.mem_map_of_mem hmem, hkind.imp_right ?_⟩
    · rw [h.chainAt_eq, hc, Option.map_some]
    · intro hhead
      rw [List.head?_map, hhead, Option.map_some]

/-- The values of a copy recompute it when, read through the copies, they recompute the
original. -/
theorem Copy.recomputes_iff {f : NodeId → NodeId} (h : net.Copy a f net' b) :
    net'.Recomputes b kinds places w r ↔
      net.Recomputes a kinds places (fun i => w (f i)) fun i => r (f i) := by
  have hlast : ∀ l n c id, chainAt net.layers l n = some c → id ∈ c →
      ((c.map f).getLast? = some (f id) ↔ c.getLast? = some id) := by
    intro l n c id hc hid
    rw [List.getLast?_map, Option.map_eq_some_iff]
    constructor
    · rintro ⟨j, hj, heq⟩
      rw [hj, h.injOn j (Network.mem_nodes hc (List.mem_of_getLast? hj)) id
        (Network.mem_nodes hc hid) heq]
    · intro hid
      exact ⟨id, hid, rfl⟩
  constructor
  · intro hw
    refine ⟨?_, ?_, ?_⟩
    · intro id hid
      obtain ⟨n, m, hn, hm, hkind, -⟩ := h.mirrors id hid.mem_nodes
      have hvalue := hw.value_eq ((h.stays_iff hid.mem_nodes).2 hid) hm
      refine ⟨n, hn, ?_⟩
      rwa [hkind, NodeKind.value_redirect] at hvalue
    · intro l n c id hplace hc hid hkind
      refine hw.read l n (c.map f) (f id) hplace (by rw [h.chainAt_eq, hc, Option.map_some])
        (List.mem_map_of_mem hid) ?_
      rwa [ne_eq, hlast l n c id hc hid]
    · intro l n c kind head tail m hplace hc hkind hhead htail hm
      obtain ⟨m', o, hm', ho, -, hbounds⟩ := h.mirrors tail
        (Network.mem_nodes hc (List.mem_of_getLast? htail))
      obtain rfl : m = m' := by simpa [hm] using hm'
      rw [← hbounds]
      exact hw.replaced l n (c.map f) kind (f head) (f tail) o hplace
        (by rw [h.chainAt_eq, hc, Option.map_some]) hkind (by rw [List.head?_map, hhead]; rfl)
        (by rw [List.getLast?_map, htail]; rfl) ho
  · intro hw
    refine ⟨?_, ?_, ?_⟩
    · intro j hj
      have hmem := hj.mem_nodes
      rw [h.nodes_eq, List.mem_map] at hmem
      obtain ⟨id, hid, rfl⟩ := hmem
      obtain ⟨n, m, hn, hm, hkind, -⟩ := h.mirrors id hid
      refine ⟨m, hm, ?_⟩
      rw [hkind, NodeKind.value_redirect]
      exact hw.value_eq ((h.stays_iff hid).1 hj) hn
    · intro l n c' j hplace hc' hj hkind
      rw [h.chainAt_eq, Option.map_eq_some_iff] at hc'
      obtain ⟨c, hc, rfl⟩ := hc'
      obtain ⟨id, hid, rfl⟩ := List.mem_map.1 hj
      rw [ne_eq, hlast l n c id hc hid] at hkind
      exact hw.read l n c id hplace hc hid hkind
    · intro l n c' kind head' tail' o hplace hc' hkind hhead htail ho
      rw [h.chainAt_eq, Option.map_eq_some_iff] at hc'
      obtain ⟨c, hc, rfl⟩ := hc'
      rw [List.head?_map, Option.map_eq_some_iff] at hhead
      rw [List.getLast?_map, Option.map_eq_some_iff] at htail
      obtain ⟨head, hhead, rfl⟩ := hhead
      obtain ⟨tail, htail, rfl⟩ := htail
      obtain ⟨m, o', hm, ho', -, hbounds⟩ := h.mirrors tail
        (Network.mem_nodes hc (List.mem_of_getLast? htail))
      obtain rfl : o = o' := by simpa [ho] using ho'
      rw [hbounds]
      exact hw.replaced l n c kind head tail m hplace hc hkind hhead htail hm

theorem Copy.withinBounds_iff {f : NodeId → NodeId} (h : net.Copy a f net' b) :
    net'.WithinBounds b kinds places w ↔ net.WithinBounds a kinds places fun i => w (f i) := by
  constructor
  · intro hw id hid
    obtain ⟨n, m, hn, hm, -, hbounds⟩ := h.mirrors id hid.mem_nodes
    exact ⟨n, hn, hbounds ▸ hw.holds ((h.stays_iff hid.mem_nodes).2 hid) hm⟩
  · intro hw j hj
    have hmem := hj.mem_nodes
    rw [h.nodes_eq, List.mem_map] at hmem
    obtain ⟨id, hid, rfl⟩ := hmem
    obtain ⟨n, m, hn, hm, -, hbounds⟩ := h.mirrors id hid
    exact ⟨m, hm, hbounds.symm ▸ hw.holds ((h.stays_iff hid).1 hj) hn⟩

/-! ## Values at the nodes -/

/-- Only the values of the nodes of a well-formed network matter. -/
theorem Recomputes.congr (h : net.Recomputes a kinds places w r) (hnet : net.WellFormed a)
    {w' r' : Valuation Rat} (hw : ∀ id ∈ net.nodes, w' id = w id)
    (hr : ∀ id ∈ net.nodes, r' id = r id) : net.Recomputes a kinds places w' r' := by
  refine ⟨?_, ?_, ?_⟩
  · intro id hid
    obtain ⟨n, hn, hvalue⟩ := h.value id hid
    refine ⟨n, hn, ?_⟩
    have hrefs : ∀ s ∈ n.kind.references, r' s = r s := by
      intro s hs
      exact hr s (hnet.closed id hid.mem_nodes s ((Arena.reads_iff hn).2 hs))
    rw [hw id hid.mem_nodes, NodeKind.value_congr hrefs]
    exact hvalue
  · intro l n c id hplace hc hid hkind
    rw [hw id (mem_nodes hc hid), hr id (mem_nodes hc hid)]
    exact h.read l n c id hplace hc hid hkind
  · intro l n c kind head tail m hplace hc hkind hhead htail hm
    rw [hw head (mem_nodes hc (List.mem_of_head? hhead)),
      hr tail (mem_nodes hc (List.mem_of_getLast? htail))]
    exact h.replaced l n c kind head tail m hplace hc hkind hhead htail hm

theorem WithinBounds.congr (h : net.WithinBounds a kinds places w) {w' : Valuation Rat}
    (hw : ∀ id ∈ net.nodes, w' id = w id) : net.WithinBounds a kinds places w' := by
  intro id hid
  rw [hw id hid.mem_nodes]
  exact h id hid

theorem Copy.map_inputs {f : NodeId → NodeId} (h : net.Copy a f net' b)
    (hw : ∀ id ∈ net.nodes, w (f id) = v id) : net'.inputs.map w = net.inputs.map v := by
  rw [h.inputs_eq, List.map_map]
  exact List.map_congr_left fun id hid => hw id (inputs_subset_nodes hid)

/-- Recomputations of a copy are recomputations of the original, with the same values at the inputs
and the same value that is read at a node. -/
theorem Copy.exists_recomputes_iff {f : NodeId → NodeId} (h : net.Copy a f net' b)
    (hnet : net.WellFormed a) {o : NodeId} (ho : o ∈ net.nodes) {x : List Rat} {y : Rat} :
    (∃ w r, net'.Recomputes b kinds places w r ∧ net'.WithinBounds b kinds places w ∧
        net'.inputs.map w = x ∧ r (f o) = y) ↔
      ∃ w r, net.Recomputes a kinds places w r ∧ net.WithinBounds a kinds places w ∧
        net.inputs.map w = x ∧ r o = y := by
  constructor
  · rintro ⟨w, r, hw, hbounds, hx, hy⟩
    refine ⟨_, _, h.recomputes_iff.1 hw, h.withinBounds_iff.1 hbounds, ?_, hy⟩
    rw [← hx, h.map_inputs fun _ _ => rfl]
  · rintro ⟨w, r, hw, hbounds, hx, hy⟩
    obtain ⟨w', hw'⟩ := exists_along h.injOn w
    obtain ⟨r', hr'⟩ := exists_along h.injOn r
    refine ⟨w', r', h.recomputes_iff.2 (hw.congr hnet hw' hr'),
      h.withinBounds_iff.2 (hbounds.congr hw'), ?_, (hr' o ho).trans hy⟩
    rw [← hx, h.map_inputs hw']

/-- Runs of a copy are runs of the original, with the same values at the inputs and at a node. -/
theorem Copy.exists_runsAt_iff {f : NodeId → NodeId} (h : net.Copy a f net' b)
    (hnet : net.WellFormed a) {o : NodeId} (ho : o ∈ net.nodes) {x : List Rat} {y : Rat} :
    (∃ v, net'.RunsAt b places v ∧ net'.inputs.map v = x ∧ v (f o) = y) ↔
      ∃ v, net.RunsAt a places v ∧ net.inputs.map v = x ∧ v o = y := by
  simp only [runsAt_iff]
  constructor
  · rintro ⟨v, ⟨hv, hbounds⟩, hx, hy⟩
    refine ⟨_, ⟨h.recomputes_iff.1 hv, h.withinBounds_iff.1 hbounds⟩, ?_, hy⟩
    rw [← hx, h.map_inputs fun _ _ => rfl]
  · rintro ⟨v, ⟨hv, hbounds⟩, hx, hy⟩
    obtain ⟨v', hv'⟩ := exists_along h.injOn v
    refine ⟨v', ⟨h.recomputes_iff.2 (hv.congr hnet hv' hv'),
      h.withinBounds_iff.2 (hbounds.congr hv')⟩, ?_, (hv' o ho).trans hy⟩
    rw [← hx, h.map_inputs hv']

/-! ## Before the first override -/

/-- What a node of one of these neurons reads lies in one of them. -/
theorem reads_at_places (hnet : net.WellFormed a) (he : net.ReadsEarlier a)
    (hplaces : net.Initial places) {l n : Nat} {c : Chain} (hplace : places l n)
    (hc : chainAt net.layers l n = some c) (hid : id ∈ c) {s : NodeId} (hs : a.Reads id s) :
    ∃ l' n' c', l' ≤ l ∧ places l' n' ∧ chainAt net.layers l' n' = some c' ∧ s ∈ c' := by
  obtain ⟨pre, post, rfl⟩ := List.append_of_mem hid
  rcases hnet.reads_from he hc hs with hpre | ⟨l', n', c', hlt, hc', hmem⟩
  · exact ⟨l, n, _, Nat.le_refl l, hplace, hc, List.mem_append_left _ hpre⟩
  · exact ⟨l', n', c', hlt.le, hplaces l n l' n' hplace (lt_layerCount hc) hlt, hc', hmem⟩

/-- Before the first layer with an override, a recomputation from the values of a run gives the
values of the run. -/
theorem Recomputes.eq_of_runsAt (hw : net.Recomputes a kinds places w r)
    (hv : net.RunsAt a places v) (hnet : net.WellFormed a) (he : net.ReadsEarlier a)
    (hplaces : net.Initial places) {boundary : Nat}
    (hkinds : ∀ l n, l < boundary → kinds l n = none)
    (hfree : ∀ id ∈ net.nodes, IsFree a id → w id = v id) :
    ∀ l n c id, l < boundary → places l n → chainAt net.layers l n = some c → id ∈ c →
      w id = v id := by
  have hmain : ∀ id ∈ net.nodes, ∀ l n c, l < boundary → places l n →
      chainAt net.layers l n = some c → id ∈ c → w id = v id := by
    refine hnet.induction ?_
    intro id hmem ih l n c hl hplace hc hid
    obtain ⟨m, hm, hholds⟩ := hv l n c hplace hc id hid
    have hvalue := hw.value_eq ⟨l, n, c, hplace, hc, hid, .inl (hkinds l n hl)⟩ hm
    -- What the node reads lies before the boundary too, where it is read as it is.
    have hrefs : ∀ s ∈ m.kind.references, r s = v s := by
      intro s hs
      have hread := (Arena.reads_iff hm).2 hs
      obtain ⟨l', n', c', hle, hplace', hc', hmem'⟩ :=
        reads_at_places hnet he hplaces hplace hc hid hread
      have hlt : l' < boundary := Nat.lt_of_le_of_lt hle hl
      rw [hw.read l' n' c' s hplace' hc' hmem' (.inl (hkinds l' n' hlt))]
      exact ih s hread l' n' c' hlt hplace' hc' hmem'
    rw [hvalue, hholds.value, NodeKind.value_congr hrefs]
    cases hk : m.kind with
    | plain => exact hfree id hmem ⟨m, hm, hk⟩
    | affine terms bias => rfl
    | relu input relaxed => rfl
    | abs input => rfl
  intro l n c id hl hplace hc hid
  exact hmain id (mem_nodes hc hid) l n c hl hplace hc hid

/-! ## Checking -/

instance {kind : OverrideKind} {old : Interval Rat} {x y : Rat} : Decidable (kind.Gives old x y) :=
  match kind with
  | .active => inferInstanceAs (Decidable (y = x))
  | .inactive => inferInstanceAs (Decidable (y = 0))
  | .nofunc => inferInstanceAs (Decidable (old.Holds y))

theorem forall_stays_iff {p : NodeId → Prop} :
    (∀ id, net.Stays kinds places id → p id) ↔ ∀ l n c, chainAt net.layers l n = some c →
      places l n → ∀ id ∈ c, (kinds l n = none ∨ c.head? = some id) → p id := by
  constructor
  · intro h l n c hc hplace id hid hkind
    exact h id ⟨l, n, c, hplace, hc, hid, hkind⟩
  · rintro h id ⟨l, n, c, hplace, hc, hid, hkind⟩
    exact h l n c hc hplace id hid hkind

variable [∀ l n, Decidable (places l n)]

instance {p : NodeId → Prop} [DecidablePred p] :
    Decidable (∀ id, net.Stays kinds places id → p id) :=
  decidable_of_iff _ forall_stays_iff.symm

instance : Decidable (net.WithinBounds a kinds places w) :=
  inferInstanceAs (Decidable (∀ id, net.Stays kinds places id →
    ∃ n, a.get? id = some n ∧ n.bounds.Holds (w id)))

instance : Decidable (net.Recomputes a kinds places w r) :=
  decidable_of_iff
    ((∀ id, net.Stays kinds places id → ∃ n, a.get? id = some n ∧ w id = n.kind.value r (w id)) ∧
      ∀ l n c, chainAt net.layers l n = some c → places l n →
        (∀ id ∈ c, (kinds l n = none ∨ c.getLast? ≠ some id) → r id = w id) ∧
        ∀ kind ∈ kinds l n, ∀ head ∈ c.head?, ∀ tail ∈ c.getLast?, ∀ m ∈ a.get? tail,
          kind.Gives m.bounds (w head) (r tail)) <| by
    constructor
    · rintro ⟨hvalue, hread⟩
      exact ⟨hvalue, fun l n c id hplace hc => (hread l n c hc hplace).1 id,
        fun l n c kind head tail m hplace hc hkind hhead htail =>
          (hread l n c hc hplace).2 kind hkind head hhead tail htail m⟩
    · rintro ⟨hvalue, hread, hreplaced⟩
      exact ⟨hvalue, fun l n c hc hplace => ⟨fun id => hread l n c id hplace hc,
        fun kind hkind head hhead tail htail m =>
          hreplaced l n c kind head tail m hplace hc hkind hhead htail⟩⟩

instance (index l n : Nat) : Decidable (net.LeadsTo index l n) :=
  inferInstanceAs (Decidable (l + 1 < net.layerCount ∨ n = index))

end Network

end PiecewiseNet
