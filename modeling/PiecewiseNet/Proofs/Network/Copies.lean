import PiecewiseNet.Proofs.Network.Integrity
import PiecewiseNet.Solution

/-!
# Copies of networks

A copy of a network has the same shape on other nodes, and each of its nodes has the kind and the
bounds of the original one over the copies of what that one reads.

## Main definitions

- `Arena.Mirrors`: a node is the same as another one over other nodes.
- `Network.Copy`: a network is a copy of another one.

## Main statements

- `Network.Copy.runs_iff`: the values of a copy satisfy it exactly when they satisfy the original.
- `Network.Copy.wellFormed`, `Network.Copy.wellFormed_of_copy`: a copy is well-formed exactly when
  the original is.
- `Network.Copy.between`: two copies of one network are copies of each other.
- `Network.Copy.compute_eq`: a copy computes the values of the original.
-/

namespace PiecewiseNet

variable {α : Type}

/-! ## Nodes over other nodes -/

theorem NodeKind.references_redirect (k : NodeKind α) (f : NodeId → NodeId) :
    (k.redirect f).references = k.references.map f := by
  cases k with
  | plain => rfl
  | affine terms bias => simp [redirect, references, Terms.redirect, Terms.nodes]
  | relu input relaxed => rfl
  | abs input => rfl

theorem NodeKind.redirect_congr {k : NodeKind α} {f g : NodeId → NodeId}
    (h : ∀ r ∈ k.references, f r = g r) : k.redirect f = k.redirect g := by
  cases k with
  | plain => rfl
  | affine terms bias =>
    have hterms : Terms.redirect terms f = Terms.redirect terms g := by
      refine List.map_congr_left ?_
      intro t ht
      rw [h t.2 (List.mem_map.2 ⟨t, ht, rfl⟩)]
    rw [redirect, redirect, hterms]
  | relu input relaxed => rw [redirect, redirect, h input (List.mem_singleton.2 rfl)]
  | abs input => rw [redirect, redirect, h input (List.mem_singleton.2 rfl)]

theorem NodeKind.redirect_redirect (k : NodeKind α) (f g : NodeId → NodeId) :
    (k.redirect f).redirect g = k.redirect fun r => g (f r) := by
  cases k with
  | plain => rfl
  | affine terms bias => simp [redirect, Terms.redirect]
  | relu input relaxed => rfl
  | abs input => rfl

theorem NodeKind.redirect_of_eq {k : NodeKind α} {f : NodeId → NodeId}
    (h : ∀ r ∈ k.references, f r = r) : k.redirect f = k := by
  cases k with
  | plain => rfl
  | affine terms bias =>
    have hterms : Terms.redirect terms f = terms := by
      refine (List.map_congr_left ?_).trans (List.map_id _)
      intro t ht
      rw [h t.2 (List.mem_map.2 ⟨t, ht, rfl⟩)]
      rfl
    rw [redirect, hterms]
  | relu input relaxed => rw [redirect, h input (List.mem_singleton.2 rfl)]
  | abs input => rw [redirect, h input (List.mem_singleton.2 rfl)]

theorem NodeKind.redirect_eq_plain_iff {k : NodeKind α} {f : NodeId → NodeId} :
    k.redirect f = .plain ↔ k = .plain := by
  cases k <;> simp [redirect]

/-- The node of `b` at `f id` is the node of `a` at `id` over the nodes that `f` leads to, up to its
label. -/
def Arena.Mirrors (a b : Arena α) (f : NodeId → NodeId) (id : NodeId) : Prop :=
  ∃ n m, a.get? id = some n ∧ b.get? (f id) = some m ∧ m.kind = n.kind.redirect f ∧
    m.bounds = n.bounds

namespace Arena.Mirrors

variable {a b c : Arena α} {f g : NodeId → NodeId} {id : NodeId}

theorem reads_iff (h : a.Mirrors b f id) {r' : NodeId} :
    b.Reads (f id) r' ↔ ∃ r, a.Reads id r ∧ f r = r' := by
  obtain ⟨n, m, hn, hm, hkind, -⟩ := h
  rw [Arena.reads_iff hm, Node.references, hkind, NodeKind.references_redirect, List.mem_map]
  simp only [Arena.reads_iff hn, Node.references]

theorem reads (h : a.Mirrors b f id) {r : NodeId} (hr : a.Reads id r) : b.Reads (f id) (f r) :=
  h.reads_iff.2 ⟨r, hr, rfl⟩

theorem isFree_iff (h : a.Mirrors b f id) : Network.IsFree b (f id) ↔ Network.IsFree a id := by
  obtain ⟨n, m, hn, hm, hkind, -⟩ := h
  simp [Network.IsFree, hn, hm, hkind, NodeKind.redirect_eq_plain_iff]

theorem congr (h : a.Mirrors b f id) (hid : g id = f id) (hr : ∀ r, a.Reads id r → g r = f r) :
    a.Mirrors b g id := by
  obtain ⟨n, m, hn, hm, hkind, hbounds⟩ := h
  refine ⟨n, m, hn, hid ▸ hm, ?_, hbounds⟩
  rw [hkind]
  refine NodeKind.redirect_congr ?_
  intro r hr'
  exact (hr r ((Arena.reads_iff hn).2 hr')).symm

theorem trans (h : a.Mirrors b f id) (h' : b.Mirrors c g (f id)) :
    a.Mirrors c (fun i => g (f i)) id := by
  obtain ⟨n, m, hn, hm, hkind, hbounds⟩ := h
  obtain ⟨m', o, hm', ho, hkind', hbounds'⟩ := h'
  obtain rfl : m = m' := by simpa [hm] using hm'
  refine ⟨n, o, hn, ho, ?_, hbounds'.trans hbounds⟩
  rw [hkind', hkind, NodeKind.redirect_redirect]

/-- Of two nodes that are the same as a third one, each is the same as the other. -/
theorem between (h : a.Mirrors b f id) {g' : NodeId → NodeId} (h' : a.Mirrors c g id)
    (hid : g' (f id) = g id) (hr : ∀ r, a.Reads id r → g' (f r) = g r) :
    b.Mirrors c g' (f id) := by
  obtain ⟨n, m, hn, hm, hkind, hbounds⟩ := h
  obtain ⟨n', o, hn', ho, hkind', hbounds'⟩ := h'
  obtain rfl : n = n' := by simpa [hn] using hn'
  refine ⟨m, o, hm, hid ▸ ho, ?_, hbounds'.trans hbounds.symm⟩
  rw [hkind', hkind, NodeKind.redirect_redirect]
  refine NodeKind.redirect_congr ?_
  intro r hr'
  exact (hr r ((Arena.reads_iff hn).2 hr')).symm

/-- Only the nodes at the two places matter. -/
theorem of_get?_eq (h : a.Mirrors b f id) {a' b' : Arena α} (ha : a'.get? id = a.get? id)
    (hb : b'.get? (f id) = b.get? (f id)) : a'.Mirrors b' f id := by
  obtain ⟨n, m, hn, hm, hkind, hbounds⟩ := h
  exact ⟨n, m, ha ▸ hn, hb ▸ hm, hkind, hbounds⟩

theorem satisfies_iff [Scalar α] (h : a.Mirrors b f id) {v : Valuation α} :
    b.Satisfies v (f id) ↔ a.Satisfies (fun i => v (f i)) id := by
  obtain ⟨n, m, hn, hm, hkind, hbounds⟩ := h
  have hholds : m.Holds v (v (f id)) ↔ n.Holds (fun i => v (f i)) (v (f id)) := by
    constructor
    · rintro ⟨hvalue, hb⟩
      refine ⟨?_, hbounds ▸ hb⟩
      rwa [hkind, NodeKind.value_redirect] at hvalue
    · rintro ⟨hvalue, hb⟩
      refine ⟨?_, hbounds ▸ hb⟩
      rwa [hkind, NodeKind.value_redirect]
  simp only [Arena.Satisfies, hn, hm, Option.some.injEq, exists_eq_left', hholds]

end Arena.Mirrors

/-- Along a map that keeps the nodes of a list apart, any values for these nodes are values for the
nodes that the map leads to. -/
theorem exists_along {β : Type} [Inhabited β] {ids : List NodeId} {f : NodeId → NodeId}
    (hinj : ∀ i ∈ ids, ∀ j ∈ ids, f i = f j → i = j) (v : NodeId → β) :
    ∃ u : NodeId → β, ∀ id ∈ ids, u (f id) = v id := by
  refine ⟨fun j => ((ids.find? fun id => f id = j).map v).getD default, ?_⟩
  intro id hid
  dsimp only
  cases hfind : ids.find? fun j => decide (f j = f id) with
  | none =>
    have hnone := List.find?_eq_none.1 hfind id hid
    simp at hnone
  | some j =>
    have heq : f j = f id := by simpa using List.find?_some hfind
    rw [hinj j (List.mem_of_find?_eq_some hfind) id hid heq]
    rfl

namespace Network

/-- A network has the shape of another one on other nodes, which are the same as the original
ones. -/
structure Copy (net : Network) (a : Arena α) (f : NodeId → NodeId) (net' : Network)
    (b : Arena α) : Prop where
  /-- The shape is the same. -/
  layers : net'.layers = net.redirect f
  /-- Distinct nodes have distinct copies. -/
  injOn : ∀ i ∈ net.nodes, ∀ j ∈ net.nodes, f i = f j → i = j
  /-- Each copy is the same as its original. -/
  mirrors : ∀ id ∈ net.nodes, a.Mirrors b f id

namespace Copy

variable {net net' net'' : Network} {a b c : Arena α} {f g : NodeId → NodeId}

theorem nodes_redirect (net : Network) (f : NodeId → NodeId) :
    nodes ⟨net.redirect f⟩ = net.nodes.map f := by
  simp only [nodes, redirect, List.map_flatten]

theorem inputs_redirect (net : Network) (f : NodeId → NodeId) :
    inputs ⟨net.redirect f⟩ = net.inputs.map f := by
  have hhead : ∀ l : Layer, (l.map fun c => c.map f).filterMap List.head? =
      (l.filterMap List.head?).map f := by
    intro l
    rw [List.filterMap_map, List.map_filterMap]
    refine List.filterMap_congr ?_
    intro c _
    cases c <;> rfl
  cases hnet : net.layers with
  | nil => simp [inputs, redirect, hnet]
  | cons l ls => simp [inputs, redirect, hnet, hhead]

theorem outputs_redirect (net : Network) (f : NodeId → NodeId) :
    outputs ⟨net.redirect f⟩ = net.outputs.map f := by
  have htail : ∀ l : Layer, (l.map (List.map f)).filterMap List.getLast? =
      (l.filterMap List.getLast?).map f := by
    intro l
    rw [List.filterMap_map, List.map_filterMap]
    exact List.filterMap_congr fun c _ => List.getLast?_map
  simp only [outputs, redirect, List.getLast?_map]
  cases net.layers.getLast? with
  | none => rfl
  | some l => exact htail l

theorem nodes_eq (h : net.Copy a f net' b) : net'.nodes = net.nodes.map f := by
  have hnet : net' = ⟨net.redirect f⟩ := by rw [← h.layers]
  rw [hnet, nodes_redirect]

theorem inputs_eq (h : net.Copy a f net' b) : net'.inputs = net.inputs.map f := by
  have hnet : net' = ⟨net.redirect f⟩ := by rw [← h.layers]
  rw [hnet, inputs_redirect]

theorem outputs_eq (h : net.Copy a f net' b) : net'.outputs = net.outputs.map f := by
  have hnet : net' = ⟨net.redirect f⟩ := by rw [← h.layers]
  rw [hnet, outputs_redirect]

theorem chainAt_eq (h : net.Copy a f net' b) (l n : Nat) :
    chainAt net'.layers l n = (chainAt net.layers l n).map (List.map f) := by
  rw [h.layers, chainAt_redirect]

theorem layerCount_eq (h : net.Copy a f net' b) : net'.layerCount = net.layerCount := by
  rw [layerCount, h.layers, redirect, List.length_map, layerCount]

theorem layerSize_eq (h : net.Copy a f net' b) (l : Nat) : net'.layerSize l = net.layerSize l :=
  layerSize_congr fun n => by
    rw [h.chainAt_eq]
    simp

theorem shortChains (h : net.Copy a f net' b) (hshort : net.ShortChains) : net'.ShortChains := by
  rw [shortChains_iff] at hshort ⊢
  intro l n c hc
  rw [h.chainAt_eq, Option.map_eq_some_iff] at hc
  obtain ⟨d, hd, rfl⟩ := hc
  rw [List.length_map]
  exact hshort l n d hd

theorem layers_ne_nil (h : net.Copy a f net' b) (hne : net.layers ≠ []) : net'.layers ≠ [] := by
  rw [h.layers, redirect, ne_eq, List.map_eq_nil_iff]
  exact hne

/-- The neurons have the same shapes, in the same order. -/
theorem shapes_eq (h : net.Copy a f net' b) :
    net'.layers.map (List.map (shape b)) = net.layers.map (List.map (shape a)) := by
  have hname : ∀ id ∈ net.nodes, ((b.get? (f id)).map (·.kind.name)).getD "" =
      ((a.get? id).map (·.kind.name)).getD "" := by
    intro id hid
    obtain ⟨n, m, hn, hm, hkind, -⟩ := h.mirrors id hid
    rw [hn, hm, Option.map_some, Option.map_some, hkind]
    cases n.kind <;> rfl
  rw [h.layers, redirect, List.map_map]
  refine List.map_congr_left fun l hl => ?_
  rw [Function.comp_apply, List.map_map]
  refine List.map_congr_left fun c hc => ?_
  rw [Function.comp_apply, shape, shape, List.map_map]
  congr 1
  exact List.map_congr_left fun id hid =>
    hname id (List.mem_flatten.2 ⟨c, List.mem_flatten.2 ⟨l, hl, hc⟩, hid⟩)

theorem mem_nodes (h : net.Copy a f net' b) {id : NodeId} (hid : id ∈ net.nodes) :
    f id ∈ net'.nodes := by
  rw [h.nodes_eq]
  exact List.mem_map_of_mem hid

/-- Only the nodes of the two networks matter. -/
theorem of_get?_eq (h : net.Copy a f net' b) {a' b' : Arena α}
    (ha : ∀ id ∈ net.nodes, a'.get? id = a.get? id)
    (hb : ∀ id ∈ net'.nodes, b'.get? id = b.get? id) : net.Copy a' f net' b' :=
  ⟨h.layers, h.injOn, fun id hid =>
    (h.mirrors id hid).of_get?_eq (ha id hid) (hb _ (h.mem_nodes hid))⟩

/-! ## Well-formedness -/

theorem nodup (h : net.Copy a f net' b) (hnd : net.nodes.Nodup) : net'.nodes.Nodup := by
  rw [h.nodes_eq, List.nodup_iff_pairwise_ne, List.pairwise_map]
  refine hnd.imp_of_mem ?_
  intro i j hi hj hne heq
  exact hne (h.injOn i hi j hj heq)

/-- A copy of a well-formed network is well-formed. -/
theorem wellFormed (h : net.Copy a f net' b) (hnet : net.WellFormed a) : net'.WellFormed b := by
  have hmem : ∀ id', id' ∈ net'.nodes → ∃ id ∈ net.nodes, f id = id' := by
    intro id' hid'
    rwa [h.nodes_eq, List.mem_map] at hid'
  refine ⟨?_, ?_, ?_, h.nodup hnet.nodup, ?_, ?_, ?_⟩
  · exact h.layers_ne_nil hnet.layers_ne_nil
  · intro l n c hc
    rw [h.chainAt_eq, Option.map_eq_some_iff] at hc
    obtain ⟨d, hd, rfl⟩ := hc
    simpa using hnet.chains_ne_nil l n d hd
  · intro id' hid'
    obtain ⟨id, hid, rfl⟩ := hmem id' hid'
    obtain ⟨n, m, hn, hm, -⟩ := h.mirrors id hid
    exact Arena.lt_size_of_get? hm
  · intro id' hid' r' hr'
    obtain ⟨id, hid, rfl⟩ := hmem id' hid'
    obtain ⟨r, hr, rfl⟩ := (h.mirrors id hid).reads_iff.1 hr'
    exact h.mem_nodes (hnet.closed id hid r hr)
  · intro id' hid' hself
    obtain ⟨id, hid, rfl⟩ := hmem id' hid'
    obtain ⟨r, hr, hrid⟩ := (h.mirrors id hid).reads_iff.1 hself
    obtain rfl := h.injOn r (hnet.closed id hid r hr) id hid hrid
    exact hnet.irrefl r hid hr
  · rw [h.nodes_eq, List.pairwise_map]
    refine hnet.ordered.imp_of_mem ?_
    intro i j hi hj hij hread
    obtain ⟨r, hr, hrj⟩ := (h.mirrors i hi).reads_iff.1 hread
    obtain rfl := h.injOn r (hnet.closed i hi r hr) j hj hrj
    exact hij hr

/-- A network with a well-formed copy is well-formed, if what it reads is not mistaken for another
node. -/
theorem wellFormed_of_copy (h : net.Copy a f net' b) (hnet' : net'.WellFormed b)
    (hinj : ∀ id ∈ net.nodes, ∀ r, a.Reads id r → ∀ s ∈ net.nodes, f r = f s → r = s) :
    net.WellFormed a := by
  have hnd : net.nodes.Nodup := by
    have hnd' := hnet'.nodup
    rw [h.nodes_eq] at hnd'
    exact hnd'.of_map f
  refine ⟨?_, ?_, ?_, hnd, ?_, ?_, ?_⟩
  · have hne := hnet'.layers_ne_nil
    rw [h.layers, redirect, ne_eq, List.map_eq_nil_iff] at hne
    exact hne
  · intro l n c hc
    have hne := hnet'.chains_ne_nil l n (c.map f) (by rw [h.chainAt_eq, hc, Option.map_some])
    simpa using hne
  · intro id hid
    obtain ⟨n, m, hn, -⟩ := h.mirrors id hid
    exact Arena.lt_size_of_get? hn
  · intro id hid r hr
    have hr' := hnet'.closed _ (h.mem_nodes hid) _ ((h.mirrors id hid).reads hr)
    rw [h.nodes_eq, List.mem_map] at hr'
    obtain ⟨s, hs, hsr⟩ := hr'
    obtain rfl := hinj id hid r hr s hs hsr.symm
    exact hs
  · intro id hid hself
    exact hnet'.irrefl _ (h.mem_nodes hid) ((h.mirrors id hid).reads hself)
  · have hordered := hnet'.ordered
    rw [h.nodes_eq, List.pairwise_map] at hordered
    refine hordered.imp_of_mem ?_
    intro i j hi hj hij hread
    exact hij ((h.mirrors i hi).reads hread)

/-! ## Copies of copies -/

theorem trans (h : net.Copy a f net' b) (h' : net'.Copy b g net'' c) :
    net.Copy a (fun i => g (f i)) net'' c := by
  refine ⟨?_, ?_, ?_⟩
  · rw [h'.layers, redirect, h.layers, redirect, redirect]
    simp
  · intro i hi j hj hij
    exact h.injOn i hi j hj (h'.injOn _ (h.mem_nodes hi) _ (h.mem_nodes hj) hij)
  · intro id hid
    exact (h.mirrors id hid).trans (h'.mirrors _ (h.mem_nodes hid))

/-- Two copies of a well-formed network are copies of each other. -/
theorem between (h : net.Copy a f net' b) (h' : net.Copy a g net'' c) (hnet : net.WellFormed a) :
    ∃ k, net'.Copy b k net'' c ∧ ∀ id ∈ net.nodes, k (f id) = g id := by
  -- The copy of a copied node is found through its original.
  obtain ⟨k, hk⟩ := exists_along h.injOn g
  refine ⟨k, ⟨?_, ?_, ?_⟩, hk⟩
  · refine layers_ext ?_ ?_
    · rw [h'.layers, redirect, redirect, h.layers, redirect]
      simp
    · intro l n
      rw [chainAt_redirect, h'.chainAt_eq, h.chainAt_eq]
      cases hc : chainAt net.layers l n with
      | none => rfl
      | some d =>
        simp only [Option.map_some, List.map_map, Option.some.injEq]
        refine List.map_congr_left ?_
        intro id hid
        exact (hk id (Network.mem_nodes hc hid)).symm
  · intro i hi j hj hij
    rw [h.nodes_eq, List.mem_map] at hi hj
    obtain ⟨i, hi, rfl⟩ := hi
    obtain ⟨j, hj, rfl⟩ := hj
    rw [hk i hi, hk j hj] at hij
    rw [h'.injOn i hi j hj hij]
  · intro j hj
    rw [h.nodes_eq, List.mem_map] at hj
    obtain ⟨id, hid, rfl⟩ := hj
    exact (h.mirrors id hid).between (h'.mirrors id hid) (hk id hid) fun r hr =>
      hk r (hnet.closed id hid r hr)

/-! ## Values -/

variable [Scalar α]

/-- Values satisfy a copy exactly when, read through the copies, they satisfy the original. -/
theorem runs_iff (h : net.Copy a f net' b) {v : Valuation α} :
    net'.Runs b v ↔ net.Runs a fun i => v (f i) := by
  rw [Runs, h.nodes_eq, List.forall_mem_map]
  exact forall₂_congr fun id hid => (h.mirrors id hid).satisfies_iff

end Copy

/-- Values satisfy a well-formed network as soon as they agree on its nodes with values that do. -/
theorem WellFormed.runs_congr [Scalar α] {net : Network} {a : Arena α} (hnet : net.WellFormed a)
    {v w : Valuation α} (h : ∀ id ∈ net.nodes, v id = w id) (hv : net.Runs a v) :
    net.Runs a w := by
  intro id hid
  obtain ⟨n, hn, hholds⟩ := hv id hid
  refine ⟨n, hn, ?_, h id hid ▸ hholds.bounds⟩
  have hvalue := hholds.value
  rw [h id hid] at hvalue
  refine hvalue.trans (NodeKind.value_congr ?_ _)
  intro r hr
  exact h r (hnet.closed id hid r ((Arena.reads_iff hn).2 hr))

/-! ## Computed values -/

/-- Along nodes in order, a computed value is the one that the node computes from the computed
values. -/
theorem compute_eq [Scalar α] {a : Arena α} {ids : List NodeId} {v : Valuation α}
    (hnd : ids.Nodup) (hirrefl : ∀ id ∈ ids, ¬a.Reads id id)
    (hordered : ids.Pairwise fun x y => ¬a.Reads x y) :
    (∀ id, id ∉ ids → a.compute ids v id = v id) ∧
      ∀ id ∈ ids, ∀ n, a.get? id = some n →
        a.compute ids v id = n.kind.value (a.compute ids v) (v id) := by
  induction ids generalizing v with
  | nil => exact ⟨fun _ _ => rfl, fun _ h => by cases h⟩
  | cons id ids ih =>
    obtain ⟨hid, hnd⟩ := List.nodup_cons.1 hnd
    obtain ⟨hnot, hordered⟩ := List.pairwise_cons.1 hordered
    have hirrefl' : ∀ j ∈ ids, ¬a.Reads j j := fun j hj =>
      hirrefl j (List.mem_cons_of_mem _ hj)
    cases hn : a.get? id with
    | none =>
      have hcompute : a.compute (id :: ids) v = a.compute ids v := by rw [Arena.compute, hn]
      rw [hcompute]
      obtain ⟨hout, hin⟩ := ih (v := v) hnd hirrefl' hordered
      refine ⟨fun j hj => hout j fun hmem => hj (List.mem_cons_of_mem _ hmem), ?_⟩
      intro j hj m hm
      rcases List.mem_cons.1 hj with rfl | hj
      · rw [hn] at hm
        cases hm
      · exact hin j hj m hm
    | some n =>
      have hcompute : a.compute (id :: ids) v =
          a.compute ids (v.assign id (n.kind.value v (v id))) := by
        rw [Arena.compute, hn]
      rw [hcompute]
      obtain ⟨hout, hin⟩ :=
        ih (v := v.assign id (n.kind.value v (v id))) hnd hirrefl' hordered
      refine ⟨?_, ?_⟩
      · intro j hj
        rw [List.mem_cons, not_or] at hj
        rw [hout j hj.2, Valuation.assign_of_ne _ _ hj.1]
      · intro j hj m hm
        rcases List.mem_cons.1 hj with rfl | hj
        · obtain rfl : n = m := by simpa [hn] using hm
          rw [hout j hid, Valuation.assign_self]
          refine NodeKind.value_congr ?_ _
          -- What the node reads is neither the node nor listed behind it.
          intro r hr
          have hread := (Arena.reads_iff hn).2 hr
          have hne : r ≠ j := fun hrj => hirrefl j (List.mem_cons_self ..) (hrj ▸ hread)
          rw [hout r fun hmem => hnot r hmem hread, Valuation.assign_of_ne _ _ hne]
        · have hne : j ≠ id := fun hji => hid (hji ▸ hj)
          have hvalue := hin j hj m hm
          rwa [Valuation.assign_of_ne _ _ hne] at hvalue

/-- A node of a well-formed network has the value that it computes from the computed values. -/
theorem WellFormed.compute_eq [Scalar α] {net : Network} {a : Arena α} (hnet : net.WellFormed a)
    (v : Valuation α) {id : NodeId} (hid : id ∈ net.nodes) {n : Node α} (hn : a.get? id = some n) :
    a.compute net.nodes v id = n.kind.value (a.compute net.nodes v) (v id) :=
  (Network.compute_eq hnet.nodup hnet.irrefl hnet.ordered).2 id hid n hn

/-- A copy computes the values of the original, from values that agree on the free nodes. -/
theorem Copy.compute_eq [Scalar α] {net net' : Network} {a b : Arena α} {f : NodeId → NodeId}
    (h : net.Copy a f net' b) (hnet : net.WellFormed a) {v w : Valuation α}
    (hfree : ∀ id ∈ net.nodes, IsFree a id → w (f id) = v id) :
    net'.nodes.map (b.compute net'.nodes w) = net.nodes.map (a.compute net.nodes v) := by
  have hnet' := h.wellFormed hnet
  have hvalue : ∀ id ∈ net.nodes, id ∈ net.nodes →
      b.compute net'.nodes w (f id) = a.compute net.nodes v id := by
    refine hnet.induction ?_
    intro id hid ih _
    obtain ⟨n, m, hn, hm, hkind, -⟩ := h.mirrors id hid
    rw [hnet'.compute_eq w (h.mem_nodes hid) hm, hnet.compute_eq v hid hn, hkind,
      NodeKind.value_redirect]
    have hrefs : ∀ r ∈ n.kind.references,
        b.compute net'.nodes w (f r) = a.compute net.nodes v r := by
      intro r hr
      have hread := (Arena.reads_iff hn).2 hr
      exact ih r hread (hnet.closed id hid r hread)
    rw [NodeKind.value_congr (w := a.compute net.nodes v) hrefs]
    cases hk : n.kind with
    | plain => exact hfree id hid ⟨n, hn, hk⟩
    | affine terms bias => rfl
    | relu input relaxed => rfl
    | abs input => rfl
  rw [h.nodes_eq, List.map_map, ← h.nodes_eq]
  exact List.map_congr_left fun id hid => hvalue id hid hid

end Network

end PiecewiseNet
