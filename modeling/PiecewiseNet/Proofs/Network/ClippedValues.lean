import PiecewiseNet.Proofs.Network.Checking
import PiecewiseNet.Proofs.Network.Clipping

/-!
# Values of clipped networks

Clipping changes nodes in place: the chains of the first kept layer stand on fresh inputs, and what
is kept reads these in place of the severed nodes. A node that is kept computes from the inputs what
it computed from the severed nodes, and since a clipped network reads its own nodes only, no node
that is kept ever read one that was dropped, except through a severed one.

## Main definitions

- `Arena.Respects`: a value agrees with the definition of its node.
- `Network.Clipped`: what a range keeps of a network, with the input in the place of each severed
  node.

## Main statements

- `Network.respects_clipped_iff`: values respect a clipped network exactly when they respect what it
  keeps of the source.
- `Network.clip_keeps_definitions`: the shape of a clipped network and its values.
-/

namespace PiecewiseNet

variable {α : Type}

/-! ## Definitions of nodes -/

/-- The node is in the arena, and its value is the one that it computes. -/
def Arena.Respects [Scalar α] (a : Arena α) (v : Valuation α) (id : NodeId) : Prop :=
  ∃ n, a.get? id = some n ∧ v id = n.kind.value v (v id)

section

variable [Scalar α] {a b : Arena α} {v w : Valuation α} {id : NodeId}

theorem Arena.respects_of_isFree (h : Network.IsFree a id) : a.Respects v id := by
  obtain ⟨n, hn, hkind⟩ := h
  exact ⟨n, hn, by rw [hkind]; rfl⟩

theorem Arena.Satisfies.respects (h : a.Satisfies v id) : a.Respects v id := by
  obtain ⟨n, hn, hholds⟩ := h
  exact ⟨n, hn, hholds.value⟩

theorem Arena.respects_of_get?_eq (h : b.get? id = a.get? id) :
    b.Respects v id ↔ a.Respects v id := by
  rw [Respects, Respects, h]

/-- Only the values of a node and of what it reads matter. -/
theorem Arena.respects_congr (hid : v id = w id) (hreads : ∀ r, a.Reads id r → v r = w r) :
    a.Respects v id ↔ a.Respects w id := by
  refine exists_congr fun n => and_congr_right fun hn => ?_
  rw [hid, NodeKind.value_congr fun r hr => hreads r ((Arena.reads_iff hn).2 hr)]

theorem Arena.Mirrors.respects_iff {f : NodeId → NodeId} (h : a.Mirrors b f id) :
    b.Respects v (f id) ↔ a.Respects (fun i => v (f i)) id := by
  obtain ⟨n, m, hn, hm, hkind, -⟩ := h
  simp only [Respects, hn, hm, Option.some.injEq, exists_eq_left', hkind, NodeKind.value_redirect]

end

namespace Network

/-! ## The shape of a clipped network -/

/-- The node is severed: it stands at the cut in a neuron of the first kept layer. -/
def IsSevered (net : Network) (r : ClipRange) (id : NodeId) : Prop :=
  ∃ n d, chainAt net.layers r.firstLayer n = some d ∧ d[r.firstCut]? = some id

/-- What a range keeps of a network of several layers. The map leads from each severed node to the
input in its place, and from every other node to itself. -/
structure Clipped (net : Network) (r : ClipRange) (a : Arena α) (f : NodeId → NodeId)
    (net' : Network) (b : Arena α) : Prop where
  range : r.firstLayer ≤ r.resolveLast net.layerCount ∧
    r.resolveLast net.layerCount < net.layerCount
  layerCount : net'.layerCount = r.resolveLast net.layerCount - r.firstLayer + 1
  layerSize : ∀ l < net'.layerCount, net'.layerSize l = net.layerSize (r.firstLayer + l)
  /-- The input is a new free value with the bounds of the severed node. -/
  input : ∀ id, net.IsSevered r id → a.size ≤ f id ∧ ∃ n m, a.get? id = some n ∧
    b.get? (f id) = some m ∧ m.kind = .plain ∧ m.bounds = n.bounds
  /-- There is an input for each severed node. -/
  injOn : ∀ i ∈ net.nodes, ∀ j ∈ net.nodes, f i = f j → i = j
  other : ∀ id, ¬net.IsSevered r id → f id = id
  first : r.firstLayer < r.resolveLast net.layerCount → ∀ n d,
    chainAt net.layers r.firstLayer n = some d → ∃ id, d[r.firstCut]? = some id ∧
      chainAt net'.layers 0 n = some (f id :: d.drop (r.firstCut + 1))
  between : ∀ l, r.firstLayer < l → l < r.resolveLast net.layerCount → ∀ n,
    chainAt net'.layers (l - r.firstLayer) n = chainAt net.layers l n
  last : r.firstLayer < r.resolveLast net.layerCount → ∀ n d,
    chainAt net.layers (r.resolveLast net.layerCount) n = some d → r.lastCut < d.length ∧
      chainAt net'.layers (r.resolveLast net.layerCount - r.firstLayer) n =
        some (d.take (r.lastCut + 1))

variable {net net' : Network} {r : ClipRange} {a b : Arena α}

theorem chainAt_keptLayers_of_lt {l n : Nat} (hl : l < (net.keptLayers r).length) :
    chainAt (net.keptLayers r) l n = chainAt net.layers (r.firstLayer + l) n := by
  rw [keptLayers, List.length_take] at hl
  rw [chainAt_keptLayers_eq, if_pos (by omega)]

/-- The inputs of what is kept are the severed nodes. -/
theorem mem_inputs_trimmed_iff_isSevered {id : NodeId} (hlen : 0 < (net.keptLayers r).length) :
    id ∈ (net.trimmed r).inputs ↔ net.IsSevered r id := by
  simp only [mem_inputs_iff, chainAt_trimmed, chainAt_keptLayers_of_lt hlen, Nat.add_zero,
    Option.map_eq_some_iff, IsSevered]
  refine exists_congr fun n => ?_
  constructor
  · rintro ⟨c, ⟨c₀, hc₀, rfl⟩, hid⟩
    exact ⟨c₀, hc₀, by rwa [head?_keep_zero] at hid⟩
  · rintro ⟨c₀, hc₀, hid⟩
    exact ⟨_, ⟨c₀, hc₀, rfl⟩, by rwa [head?_keep_zero]⟩

/-- A node of a later layer is not severed. -/
theorem not_isSevered_of_later (hnd : net.nodes.Nodup) {l n : Nat} {c : Chain} {id : NodeId}
    (hc : chainAt net.layers l n = some c) (hl : r.firstLayer < l) (hid : id ∈ c) :
    ¬net.IsSevered r id := by
  rintro ⟨n', c', hc', hid'⟩
  obtain ⟨heq, -⟩ := place_unique hnd hc hc' hid (List.mem_of_getElem? hid')
  exact Nat.ne_of_gt hl heq

/-- Of a neuron of the first kept layer only the node at the cut is severed. -/
theorem eq_of_isSevered (hnd : net.nodes.Nodup) {n : Nat} {d : Chain} {boundary id : NodeId}
    (hd : chainAt net.layers r.firstLayer n = some d) (hcut : d[r.firstCut]? = some boundary)
    (hid : id ∈ d) (hsev : net.IsSevered r id) : id = boundary := by
  obtain ⟨n', d', hd', hid'⟩ := hsev
  obtain ⟨-, -, rfl⟩ := place_unique hnd hd hd' hid (List.mem_of_getElem? hid')
  exact Option.some.inj (hid'.symm.trans hcut)

namespace Severed

variable {table : Substitution} {layers : List Layer} {c : Arena α}

/-- The neurons of a clipped network are what is kept of those of the range, over the inputs. -/
theorem chainAt_eq (h : net.Severed r a c table layers) {l : Nat}
    (hl : l < (net.keptLayers r).length) (n : Nat) :
    chainAt layers l n = (chainAt net.layers (r.firstLayer + l) n).map fun c =>
      (r.keep (net.keptLayers r).length l c).map table.apply := by
  rw [h.layers, chainAt_redirect, chainAt_trimmed, chainAt_keptLayers_of_lt hl, Option.map_map]
  rfl

/-- Behind the first layer no node is moved. -/
theorem map_later (h : net.Severed r a c table layers) (hnd : net.nodes.Nodup)
    (hlen : 0 < (net.keptLayers r).length) {l n : Nat} {d : Chain}
    (hd : chainAt net.layers l n = some d) (hl : r.firstLayer < l) : d.map table.apply = d := by
  refine (List.map_congr_left fun id hid => ?_).trans (List.map_id _)
  refine h.records.other id fun hinput => ?_
  exact not_isSevered_of_later hnd hd hl hid ((mem_inputs_trimmed_iff_isSevered hlen).1 hinput)

section

variable {n : Nat} {d : Chain} (h : net.Severed r a c table layers) (hnet : net.WellFormed a)
  (hfirst : r.firstLayer < r.resolveLast net.layerCount)
  (hlen : (net.keptLayers r).length = r.resolveLast net.layerCount - r.firstLayer + 1)

include h hnet hfirst hlen

/-- A neuron of the first kept layer begins with an input and goes on behind the cut. -/
theorem chainAt_first (hne : ∀ d', chainAt layers 0 n = some d' → d' ≠ [])
    (hd : chainAt net.layers r.firstLayer n = some d) :
    ∃ id, d[r.firstCut]? = some id ∧
      chainAt layers 0 n = some (table.apply id :: d.drop (r.firstCut + 1)) := by
  have hpos : 0 < (net.keptLayers r).length := by omega
  have hkeep : r.keep (net.keptLayers r).length 0 d = d.drop r.firstCut := by
    rw [ClipRange.keep, if_pos rfl, if_neg (by omega)]
  have hat := h.chainAt_eq hpos n
  rw [Nat.add_zero, hd, Option.map_some, hkeep] at hat
  have hcut : r.firstCut < d.length := by
    by_contra hle
    exact hne _ hat (by rw [List.drop_eq_nil_of_le (Nat.not_lt.1 hle), List.map_nil])
  have hboundary := List.getElem?_eq_getElem hcut
  refine ⟨d[r.firstCut], hboundary, ?_⟩
  rw [hat, List.drop_eq_getElem_cons hcut, List.map_cons,
    map_drop_of_fixed (nodup_chainAt hnet.nodup hd) hboundary]
  intro id hid hne
  refine h.records.other id fun hinput => hne (eq_of_isSevered hnet.nodup hd hboundary hid ?_)
  exact (mem_inputs_trimmed_iff_isSevered hpos).1 hinput

omit hfirst in
/-- A neuron between the first and the last kept layer is kept. -/
theorem chainAt_between {l : Nat} (hgt : r.firstLayer < l)
    (hlt : l < r.resolveLast net.layerCount) :
    chainAt layers (l - r.firstLayer) n = chainAt net.layers l n := by
  have hat := h.chainAt_eq (l := l - r.firstLayer) (by omega) n
  rw [Nat.add_sub_of_le hgt.le] at hat
  rw [hat]
  cases hd : chainAt net.layers l n with
  | none => rfl
  | some d =>
    rw [Option.map_some, ClipRange.keep, if_neg (by omega), if_neg (by omega),
      h.map_later hnet.nodup (by omega) hd hgt]

/-- A neuron of the last kept layer is long enough and is kept up to the cut. -/
theorem chainAt_last (hd : chainAt net.layers (r.resolveLast net.layerCount) n = some d) :
    r.lastCut < d.length ∧
      chainAt layers (r.resolveLast net.layerCount - r.firstLayer) n =
        some (d.take (r.lastCut + 1)) := by
  have hindex : r.resolveLast net.layerCount - r.firstLayer < (net.keptLayers r).length := by omega
  have hlayer : r.firstLayer + (r.resolveLast net.layerCount - r.firstLayer) =
      r.resolveLast net.layerCount := by omega
  have hkeep : r.keep (net.keptLayers r).length (r.resolveLast net.layerCount - r.firstLayer) d =
      d.take (r.lastCut + 1) := by
    have hne : r.resolveLast net.layerCount - r.firstLayer ≠ 0 := by omega
    simp only [ClipRange.keep]
    rw [if_pos hlen.symm, if_neg hne]
  have hat := h.chainAt_eq hindex n
  rw [hlayer, hd, Option.map_some, hkeep, List.map_take,
    h.map_later hnet.nodup (by omega) hd hfirst] at hat
  have htrimmed : chainAt (net.trimmed r).layers (r.resolveLast net.layerCount - r.firstLayer) n =
      some (d.take (r.lastCut + 1)) := by
    rw [chainAt_trimmed, chainAt_keptLayers_of_lt hindex, hlayer, hd, Option.map_some, hkeep]
  have hcount : (net.trimmed r).layerCount = (net.keptLayers r).length := by
    simp [Network.layerCount, trimmed]
  have hfull := h.full _ n _ (by rw [hcount, hlen]) htrimmed
  rw [List.length_take] at hfull
  exact ⟨by omega, hat⟩

end

/-- What is left of a severed and cut network has the shape that the range describes. -/
theorem clipped {u : PUnit} (h : net.Severed r a c table net'.layers) (hnet : net.WellFormed a)
    (hredirect : Edit.Yields (net'.layers.flatten.flatten.forM (Edit.redirect table)) c u b)
    (hwell : net'.WellFormed b) (hfirst : r.firstLayer ≤ r.resolveLast net.layerCount)
    (hlast : r.resolveLast net.layerCount < net.layerCount) :
    net.Clipped r a table.apply net' b := by
  have hlen := length_keptLayers hfirst hlast
  have hsev : ∀ id, id ∈ (net.trimmed r).inputs ↔ net.IsSevered r id :=
    fun id => mem_inputs_trimmed_iff_isSevered (by omega)
  have hcount : net'.layerCount = (net.keptLayers r).length := by
    rw [Network.layerCount, h.layers, redirect, List.length_map, trimmed, List.length_mapIdx]
  obtain ⟨hcopy, -⟩ := h.copy hnet.nodup hnet.held hredirect
  refine ⟨⟨hfirst, hlast⟩, hcount.trans hlen, ?_, ?_, h.injOn hnet.held, ?_, ?_, ?_, ?_⟩
  · intro l hl
    refine layerSize_congr fun n => ?_
    rw [h.chainAt_eq (hcount ▸ hl)]
    simp
  · intro id hid
    have hinput := (hsev id).2 hid
    obtain ⟨n, m, hn, hm, hkind, hbounds⟩ := hcopy.mirrors id (inputs_subset_nodes hinput)
    rw [Arena.get?_freed, Option.map_eq_some_iff] at hn
    obtain ⟨n₀, hn₀, rfl⟩ := hn
    rw [if_pos hinput] at hkind hbounds
    exact ⟨h.records.fresh id hinput, n₀, m, hn₀, hm, hkind, hbounds⟩
  · exact fun id hid => h.records.other id fun hinput => hid ((hsev id).1 hinput)
  · exact fun hlt n d hd => h.chainAt_first hnet hlt hlen (hwell.chains_ne_nil 0 n) hd
  · exact fun l hgt hlt n => h.chainAt_between hnet hlen hgt hlt
  · exact fun hlt n d hd => h.chainAt_last hnet hlt hlen hd

end Severed

/-! ## The values of a clipped network -/

section

variable {table : Substitution} {c : Arena α} {id : NodeId}
  (h : net.Severed r a c table net'.layers) (hnet : net.WellFormed a)
  (hcopy : (net.trimmed r).Copy (a.freed (net.trimmed r).inputs) table.apply net' b)

include h hnet hcopy

/-- The nodes of a clipped network stand for those that the range keeps. -/
theorem mem_kept_iff (hid : id ∈ net.nodes) :
    table.apply id ∈ net'.nodes ↔ id ∈ (net.trimmed r).nodes := by
  rw [hcopy.nodes_eq, List.mem_map]
  constructor
  · rintro ⟨j, hj, heq⟩
    rwa [← h.injOn hnet.held j (nodes_trimmed_subset hj) id hid heq]
  · exact fun hkept => ⟨id, hkept, rfl⟩

/-- The nodes of the source that a clipped network retains are those that the range keeps and that
are not severed. -/
theorem mem_retained_iff (hid : id ∈ net.nodes) :
    id ∈ net'.nodes ↔ id ∈ (net.trimmed r).nodes ∧ id ∉ (net.trimmed r).inputs := by
  constructor
  · intro hmem
    rw [hcopy.nodes_eq, List.mem_map] at hmem
    obtain ⟨j, hj, rfl⟩ := hmem
    -- A severed node is not retained, for the input in its place is a new node.
    by_cases hinput : j ∈ (net.trimmed r).inputs
    · exact absurd (hnet.held _ hid) (Nat.not_lt.2 (h.records.fresh j hinput))
    · have hfix : table.apply j = j := h.records.other j hinput
      rw [hfix]
      exact ⟨hj, hinput⟩
  · rintro ⟨hkept, hnot⟩
    have hmem := (mem_kept_iff h hnet hcopy hid).2 hkept
    rwa [h.records.other id hnot] at hmem

/-- A node that is kept reads nodes that are kept: the clipped network would not have been accepted
otherwise. -/
theorem kept_of_reads (hwell : net'.WellFormed b) (hid : id ∈ (net.trimmed r).nodes)
    (hnot : id ∉ (net.trimmed r).inputs) {t : NodeId} (ht : a.Reads id t) :
    t ∈ (net.trimmed r).nodes := by
  have hread : b.Reads (table.apply id) (table.apply t) :=
    (hcopy.mirrors id hid).reads (Arena.reads_freed_iff.2 ⟨hnot, ht⟩)
  have htnet := hnet.closed id (nodes_trimmed_subset hid) t ht
  exact (mem_kept_iff h hnet hcopy htnet).1 (hwell.closed _ (hcopy.mem_nodes hid) _ hread)

variable [Scalar α] {v w : Valuation α} (hwell : net'.WellFormed b)
  (hagree : ∀ id ∈ net.nodes, table.apply id ∈ net'.nodes → v id = w (table.apply id))

include hwell hagree

/-- A retained node computes from the inputs what it computed from the severed nodes. -/
theorem respects_retained_iff (hid : id ∈ (net.trimmed r).nodes)
    (hnot : id ∉ (net.trimmed r).inputs) :
    b.Respects w (table.apply id) ↔ a.Respects v id := by
  have hsame : ∀ j ∈ (net.trimmed r).nodes, w (table.apply j) = v j := fun j hj =>
    (hagree j (nodes_trimmed_subset hj) (hcopy.mem_nodes hj)).symm
  have hget : (a.freed (net.trimmed r).inputs).get? id = a.get? id := by
    rw [Arena.get?_freed]
    simp [hnot]
  rw [(hcopy.mirrors id hid).respects_iff, Arena.respects_of_get?_eq hget]
  exact Arena.respects_congr (hsame id hid) fun t ht =>
    hsame t (kept_of_reads h hnet hcopy hwell hid hnot ht)

/-- Values respect a clipped network exactly when they respect the nodes that it retains, with the
value of each input for the node that it stands for. -/
theorem respects_clipped_iff :
    (∀ id ∈ net'.nodes, b.Respects w id) ↔
      ∀ id ∈ net.nodes, id ∈ net'.nodes → a.Respects v id := by
  constructor
  · intro hrespects id hid hretained
    obtain ⟨hkept, hnot⟩ := (mem_retained_iff h hnet hcopy hid).1 hretained
    exact (respects_retained_iff h hnet hcopy hwell hagree hkept hnot).1
      (hrespects _ (hcopy.mem_nodes hkept))
  · intro hrespects
    rw [hcopy.nodes_eq, List.forall_mem_map]
    intro id hid
    have hmem := nodes_trimmed_subset hid
    -- Any value respects an input; what else is kept reads kept nodes only.
    by_cases hinput : id ∈ (net.trimmed r).inputs
    · refine Arena.respects_of_isFree ((hcopy.mirrors id hid).isFree_iff.2 ?_)
      exact (Arena.isFree_freed_iff (hnet.held id hmem)).2 (.inl hinput)
    · refine (respects_retained_iff h hnet hcopy hwell hagree hid hinput).2 (hrespects id hmem ?_)
      exact (mem_retained_iff h hnet hcopy hmem).2 ⟨hid, hinput⟩

/-- A run of the source is one of the clipped network, with the value of each severed node for the
input in its place. -/
theorem runs_clipped (hruns : net.Runs a v) : net'.Runs b w := by
  have hrespects := (respects_clipped_iff h hnet hcopy hwell hagree).2 fun id hid _ =>
    (hruns id hid).respects
  rw [Runs, hcopy.nodes_eq, List.forall_mem_map]
  intro id hid
  have hmem := nodes_trimmed_subset hid
  obtain ⟨n, hn, hholds⟩ := hruns id hmem
  obtain ⟨n', m, hn', hm, -, hbounds⟩ := hcopy.mirrors id hid
  obtain ⟨m', hm', hvalue⟩ := hrespects _ (hcopy.mem_nodes hid)
  obtain rfl := Option.some.inj (hm.symm.trans hm')
  rw [Arena.get?_freed, hn, Option.map_some, Option.some.injEq] at hn'
  have hsame : n'.bounds = n.bounds := by
    rw [← hn']
    split <;> rfl
  refine ⟨m, hm, hvalue, ?_⟩
  rw [hbounds, hsame, ← hagree id hmem (hcopy.mem_nodes hid)]
  exact hholds.bounds

end

/-- Whenever clipping succeeds, the clipped network has the shape that the range describes, and
values respect its definitions exactly when, with the value of each input for the severed node that
it stands for, they respect the definitions that the retained nodes had in the source. So the values
that respect the source, restricted to what is retained, respect the clipped network, and runs are
restricted to runs. -/
theorem clip_keeps_definitions [Scalar α] (hnet : net.Accepted a)
    (h : (net.clip r).Yields a net' b) :
    ∃ f, net.Clipped r a f net' b ∧
      (∀ v w : Valuation α, (∀ id ∈ net.nodes, f id ∈ net'.nodes → v id = w (f id)) →
        ((∀ id ∈ net'.nodes, b.Respects w id) ↔
          ∀ id ∈ net.nodes, id ∈ net'.nodes → a.Respects v id)) ∧
      ∀ v : Valuation α, (∀ id ∈ net.nodes, a.Respects v id) →
        ∃ w, (∀ id ∈ net.nodes, f id ∈ net'.nodes → v id = w (f id)) ∧
          (∀ id ∈ net'.nodes, b.Respects w id) ∧ (net.Runs a v → net'.Runs b w) := by
  rw [accepted_iff] at hnet
  obtain ⟨table, c, u, hsevered, hredirect, hwell, hfirst, hlast⟩ :=
    exists_severed_of_clip h hnet.nodup hnet.held
  obtain ⟨hcopy, -⟩ := hsevered.copy hnet.nodup hnet.held hredirect
  refine ⟨table.apply, hsevered.clipped hnet hredirect hwell hfirst hlast, ?_, ?_⟩
  · exact fun v w hagree => respects_clipped_iff hsevered hnet hcopy hwell hagree
  · intro v hv
    have : Inhabited α := ⟨0⟩
    obtain ⟨w, hw⟩ := exists_along (hsevered.injOn hnet.held) v
    have hagree : ∀ id ∈ net.nodes, table.apply id ∈ net'.nodes → v id = w (table.apply id) :=
      fun id hid _ => (hw id hid).symm
    refine ⟨w, hagree, ?_, runs_clipped hsevered hnet hcopy hwell hagree⟩
    exact (respects_clipped_iff hsevered hnet hcopy hwell hagree).2 fun id hid _ => hv id hid

/-- The sample is clipped behind its rectifiers: their sum stands on two inputs. The run of the
sample at `1` is restricted to a run of what is left. -/
theorem clip_keeps_definitions_sample :
    sample.Accepted Arena.sample ∧ ∃ net' b, ∃ f : NodeId → NodeId, ∃ w : Valuation Rat,
      (sample.clip { firstLayer := 1, firstCut := 1 }).Yields Arena.sample net' b ∧
        net'.layerCount = 2 ∧ chainAt net'.layers 0 1 = some [f 4] ∧ w (f 2) = 1 ∧
          net'.Runs b w := by
  have haccepted : sample.Accepted Arena.sample := by rfl
  obtain ⟨net', b, hclip⟩ : ∃ net' b,
      (sample.clip { firstLayer := 1, firstCut := 1 }).Yields Arena.sample net' b :=
    Edit.exists_yields_iff.2 (by rfl)
  have hruns : sample.Runs Arena.sample fun id => [1, 1, 1, -1, 0, 1][id]?.getD 0 := by
    decide +kernel
  obtain ⟨f, hclipped, -, hrestrict⟩ := clip_keeps_definitions haccepted hclip
  obtain ⟨w, hw, -, hkept⟩ := hrestrict _ fun id hid => (hruns id hid).respects
  have hrange : 1 < ClipRange.resolveLast { firstLayer := 1, firstCut := 1 } sample.layerCount := by
    decide
  obtain ⟨i, hi, hfirst⟩ := hclipped.first hrange 0 [1, 2] rfl
  obtain ⟨j, hj, hsecond⟩ := hclipped.first hrange 1 [3, 4] rfl
  cases hi
  cases hj
  refine ⟨haccepted, net', b, f, w, hclip, hclipped.layerCount, hsecond, ?_, hkept hruns⟩
  exact (hw 2 (by decide) (mem_nodes hfirst (List.mem_cons_self ..))).symm

end Network

end PiecewiseNet
