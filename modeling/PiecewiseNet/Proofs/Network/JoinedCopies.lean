import PiecewiseNet.Proofs.Network.Checking
import PiecewiseNet.Proofs.Network.Gluing
import PiecewiseNet.Proofs.Network.Twins
import PiecewiseNet.Proofs.Network.Whole

/-!
# Joined copies of a network

Two copies of one network of layers, the second one with overrides, can be joined. The join shares
the neurons of the first copy up to the first overridden layer, and computes what the second copy
computed.

## Main definitions

- `Network.Joins`: where the neurons of a join come from.

## Main statements

- `Network.AgreesBefore.joins`: where the neurons come from if the networks agree.
- `Network.AgreesBefore.compute_joined`: a join computes the values of the altered network.
- `Network.exists_altered_twins`: copies of a network of layers can be made and overridden.
- `Network.exists_joined_copies`: copies of a network of layers can be joined.
-/

namespace PiecewiseNet

namespace Network

variable {α : Type} {net base altered joined : Network} {ov : Overrides} {boundary : Nat}
  {g : NodeId → NodeId} {a b : Arena α}

/-- The boundary is the first overridden layer. Before it, and where nothing is overridden in it,
the neurons of a join are those of the base. Its other neurons have the heads of the base, and
behind the boundary they are the altered ones. -/
structure Joins (base altered : Network) (ov : Overrides) (j : JoinedNetworks) : Prop where
  base_eq : j.base = base
  layerCount : j.altered.layerCount = base.layerCount
  /-- A neuron of the boundary layer is overridden. -/
  overridden : ∃ n, ov.contains (j.boundary, n) = true
  /-- No neuron before the boundary layer is overridden. -/
  least : ∀ l n, ov.contains (l, n) = true → j.boundary ≤ l
  /-- The neurons before the boundary are those of the base. -/
  before : ∀ l n, l < j.boundary → chainAt j.altered.layers l n = chainAt base.layers l n
  /-- The neurons of the boundary layer without an override are those of the base. -/
  kept : ∀ n, ov.contains (j.boundary, n) = false →
    chainAt j.altered.layers j.boundary n = chainAt base.layers j.boundary n
  /-- An overridden neuron of the boundary layer has the head of the base and the altered rest. -/
  replaced : ∀ n, ov.contains (j.boundary, n) = true → ∃ head baseRest i rest,
    chainAt base.layers j.boundary n = some (head :: baseRest) ∧
      chainAt altered.layers j.boundary n = some (i :: rest) ∧
        chainAt j.altered.layers j.boundary n = some (head :: rest)
  /-- The neurons behind the boundary are the altered ones. -/
  after : ∀ l n, j.boundary < l → chainAt j.altered.layers l n = chainAt altered.layers l n

namespace AgreesBefore

variable (h : base.AgreesBefore altered ov boundary g a)
  (hcopy : altered.Copy a (altered.sharing ov boundary g) joined b)

include h hcopy

/-- A copy of an altered network that shares the nodes of the base is a join of the two. -/
theorem joins {i : Nat} {kind : OverrideKind}
    (hfirst : ov.entries.head? = some ((boundary, i), kind))
    (hrange : ∀ n, ov.contains (boundary, n) = true → n < base.layerSize boundary) :
    base.Joins altered ov ⟨base, joined, boundary⟩ := by
  refine ⟨rfl, ?_, ?_, ?_, ?_, ?_, ?_, ?_⟩
  · rw [hcopy.layerCount_eq]
    exact h.length
  · refine ⟨i, OrderedMap.contains_eq_true_iff.2 ?_⟩
    exact List.mem_map.2 ⟨_, List.mem_of_head? hfirst, rfl⟩
  · intro l n hkey
    exact boundary_le hfirst hkey
  · intro l n hl
    rw [hcopy.chainAt_eq, h.map_sharing_before hl]
  · intro n hkey
    rw [hcopy.chainAt_eq, h.map_sharing_kept hkey]
  · intro n hkey
    have hn := hrange n hkey
    rw [← h.size] at hn
    obtain ⟨c, hc⟩ := exists_chainAt_iff.2 hn
    obtain ⟨d, hd, hhead⟩ := h.heads n c hc
    cases c with
    | nil => exact absurd rfl (h.altered_wellFormed.chains_ne_nil _ _ _ hc)
    | cons i rest =>
      obtain ⟨baseRest, rfl⟩ := List.head?_eq_some_iff.1 hhead
      refine ⟨g i, baseRest, i, rest, hd, hc, ?_⟩
      rw [hcopy.chainAt_eq, hc, Option.map_some, h.map_sharing_overridden hkey hc]
  · intro l n hl
    rw [hcopy.chainAt_eq, h.map_sharing_after hl]

/-- From the same inputs, and the same values of the other free nodes, a join computes what the
altered network computed. -/
theorem compute_joined [Scalar α] (hfree : ∀ id ∈ base.nodes, IsFree a id → id ∈ base.inputs)
    {v w : Valuation α} (hinputs : joined.inputs.map w = altered.inputs.map v)
    (hother : ∀ id ∈ altered.nodes, IsFree a id → id ∉ altered.inputs → w id = v id) :
    joined.nodes.map (b.compute joined.nodes w) =
      altered.nodes.map (a.compute altered.nodes v) := by
  refine hcopy.compute_eq h.altered_wellFormed ?_
  intro id hid hidfree
  by_cases hinput : id ∈ altered.inputs
  · rw [hcopy.inputs_eq, List.map_map, List.map_inj_left] at hinputs
    exact hinputs id hinput
  · rw [sharing_of_not_shared fun hshared =>
      hinput (h.mem_inputs_of_shared hfree hshared hidfree)]
    exact hother id hid hidfree hinput

end AgreesBefore

/-- Of a network of short layers two copies can be made, clipped to the whole of it, and the second
one overridden. -/
theorem exists_altered_twins [Scalar α] (suffix suffix' : String) (hnet : net.WellFormed a)
    (hcount : 2 ≤ net.layerCount) (hfree : net.FreeAtInputs a) (hprev : net.ReadsPrevious a)
    (hshort : net.ShortChains) (hrange : ∀ l n, ov.contains (l, n) = true → n < net.layerSize l) :
    ∃ base a₁ copy a₂ altered a₃ g table,
      (net.duplicateAndClip {} suffix).Yields a base a₁ ∧
      (net.duplicateAndClip {} suffix').Yields a₁ copy a₂ ∧
      (copy.override ov).Yields a₂ altered a₃ ∧
      base.Twins copy (fun e l => e + 1 = l) g a₂ ∧ copy.Altered a₂ ov altered a₃ table ∧
      altered.WellFormed a₃ ∧ copy.ShortChains ∧ (∀ l, copy.layerSize l = net.layerSize l) ∧
      ∀ id ∈ base.nodes, a₂.get? id = a₁.get? id := by
  have hshift : ∀ k e l : Nat, k + e + 1 = k + l → e + 1 = l := by omega
  -- The two copies.
  obtain ⟨base, a₁, hbase⟩ := exists_duplicateAndClip suffix hnet hprev.readsEarlier hcount
  obtain ⟨-, -, -, hgrows, -, hbaseWell, -⟩ := duplicateAndClip_yields hbase hnet
  have hsame : ∀ id ∈ net.nodes, a₁.get? id = a.get? id := fun id hid =>
    hgrows.get? id (hnet.held id hid)
  obtain ⟨copy, a₂, hcopy⟩ := exists_duplicateAndClip suffix' (hnet.of_get?_eq hsame)
    (ReadsFrom.of_get?_eq hprev.readsEarlier hsame) hcount
  obtain ⟨f, g, htrimmed, htwins, hgrows'⟩ :=
    exists_twins hnet (readsPrevious_iff.1 hprev) hshift hfree hbase hcopy
  have hsize : ∀ l, copy.layerSize l = net.layerSize l := fun l =>
    (htrimmed.layerSize_eq l).trans (layerSize_trimmed_whole hnet.layers_ne_nil l)
  have hcopyShort := htrimmed.shortChains (shortChains_trimmed hshort)
  -- The overrides.
  have hcopyPrev : copy.ReadsPrevious a₂ := htwins.readsFrom
  obtain ⟨altered, a₃, hover⟩ :=
    exists_override htwins.wellFormed hcopyShort fun l n hkey => by
      rw [hsize]
      exact hrange l n hkey
  obtain ⟨table, halt, haltWell⟩ :=
    override_yields hover htwins.wellFormed.nodup htwins.wellFormed.held
  exact ⟨base, a₁, copy, a₂, altered, a₃, g, table, hbase, hcopy, hover, htwins, halt, haltWell,
    hcopyShort, hsize, fun id hid => hgrows'.get? id (hbaseWell.held id hid)⟩

/-- Two copies of a network of short layers, clipped to the whole of it and the second one with
overrides, can be joined. The join leaves the first copy as it is, shares its neurons up to the
first overridden layer, and computes at each place what the second copy computed. -/
theorem exists_joined_copies [Scalar α] (suffix suffix' : String) (hnet : net.Accepted a)
    (hcount : 2 ≤ net.layerCount) (hfree : net.FreeAtInputs a) (hprev : net.ReadsPrevious a)
    (hshort : net.ShortChains) (hne : ov.entries ≠ [])
    (hrange : ∀ l n, ov.contains (l, n) = true → n < net.layerSize l) :
    ∃ base a₁ copy a₂ altered a₃ j a₄,
      (net.duplicateAndClip {} suffix).Yields a base a₁ ∧
      (net.duplicateAndClip {} suffix').Yields a₁ copy a₂ ∧
      (copy.override ov).Yields a₂ altered a₃ ∧
      (join base altered ov).Yields a₃ j a₄ ∧
      (∀ id ∈ base.nodes, a₃.get? id = a₁.get? id ∧ a₄.get? id = a₁.get? id) ∧
      base.Joins altered ov j ∧
      ∀ v w : Valuation α, j.altered.inputs.map w = altered.inputs.map v →
        (∀ id ∈ altered.nodes, IsFree a₃ id → id ∉ altered.inputs → w id = v id) →
        j.altered.nodes.map (a₄.compute j.altered.nodes w) =
          altered.nodes.map (a₃.compute altered.nodes v) := by
  obtain ⟨base, a₁, copy, a₂, altered, a₃, g, table, hbase, hcopy, hover, htwins, halt, haltWell,
    hcopyShort, hsize, hbaseSame⟩ := exists_altered_twins suffix suffix' (accepted_iff.1 hnet)
      hcount hfree hprev hshort hrange
  -- The entries ascend, so the first one is in the first overridden layer.
  obtain ⟨⟨⟨boundary, i⟩, kind⟩, rest, hentries⟩ := List.exists_cons_of_ne_nil hne
  have hfirst : ov.entries.head? = some ((boundary, i), kind) := by rw [hentries]; rfl
  have hagrees := htwins.agreesBefore (fun _ _ he => by omega) halt haltWell fun l n hkey =>
    boundary_le hfirst hkey
  have hbaseRange : ∀ n, ov.contains (boundary, n) = true → n < base.layerSize boundary := by
    intro n hkey
    rw [htwins.copy.layerSize_eq, hsize]
    exact hrange boundary n hkey
  have hlt : boundary < base.layerCount := by
    have hkey : ov.contains (boundary, i) = true :=
      OrderedMap.contains_eq_true_iff.2 (List.mem_map.2 ⟨_, List.mem_of_head? hfirst, rfl⟩)
    obtain ⟨c, hc⟩ := exists_chainAt_iff.2 (hbaseRange i hkey)
    exact lt_layerCount hc
  obtain ⟨⟨_, joined, _⟩, a₄, hj⟩ := hagrees.exists_join hfirst hlt
    fun id hid hnot r hr l n c hc hrc =>
      halt.reads_from_boundary htwins.wellFormed htwins.readsFrom hcopyShort hid hnot hr hc hrc
  obtain ⟨rfl, rfl, hjcopy, hother, -⟩ := hagrees.join_yields hfirst hj
  refine ⟨_, a₁, copy, a₂, altered, a₃, _, a₄, hbase, hcopy, hover, hj, ?_,
    hagrees.joins hjcopy hfirst hbaseRange, fun v w =>
      hagrees.compute_joined hjcopy (htwins.mem_inputs_of_isFree halt)⟩
  intro id hid
  have hkept : a₃.get? id = a₁.get? id := (htwins.get?_base halt id hid).trans (hbaseSame id hid)
  exact ⟨hkept, (hother id fun hmem => hagrees.disjoint id hmem hid).trans hkept⟩

/-- The sample, with a free value in the place of one rectifier and the other one removed. -/
def sampleOverrides : Overrides :=
  (OrderedMap.empty.insert (1, 0) .nofunc).insert (1, 1) .active

/-- Two copies of the sample, the second one overridden, can be joined. -/
theorem exists_joined_copies_sample :
    ∃ base a₁ copy a₂ altered a₃ j a₄,
      (sample.duplicateAndClip {} "_dup").Yields Arena.sample base a₁ ∧
      (sample.duplicateAndClip {} "_mod").Yields a₁ copy a₂ ∧
      (copy.override sampleOverrides).Yields a₂ altered a₃ ∧
      (join base altered sampleOverrides).Yields a₃ j a₄ ∧
      (∀ id ∈ base.nodes, a₃.get? id = a₁.get? id ∧ a₄.get? id = a₁.get? id) ∧
      base.Joins altered sampleOverrides j ∧
      ∀ v w : Valuation Rat, j.altered.inputs.map w = altered.inputs.map v →
        (∀ id ∈ altered.nodes, IsFree a₃ id → id ∉ altered.inputs → w id = v id) →
        j.altered.nodes.map (a₄.compute j.altered.nodes w) =
          altered.nodes.map (a₃.compute altered.nodes v) := by
  have haccepted : sample.Accepted Arena.sample := by rfl
  refine exists_joined_copies "_dup" "_mod" haccepted (by decide) (by decide) (by decide)
    (by decide) (by decide) ?_
  intro l n hkey
  have hmem : (l, n) ∈ [(1, 0), (1, 1)] := OrderedMap.contains_eq_true_iff.1 hkey
  simp only [List.mem_cons, Prod.mk.injEq, List.not_mem_nil, or_false] at hmem
  rcases hmem with ⟨rfl, rfl⟩ | ⟨rfl, rfl⟩ <;> decide

end Network

end PiecewiseNet
