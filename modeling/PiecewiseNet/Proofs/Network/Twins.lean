import PiecewiseNet.Proofs.Network.Agreement
import PiecewiseNet.Proofs.Network.Clipping

/-!
# Twins

Two clipped copies of one network, with the same range, are copies of each other on different
nodes.

## Main definitions

- `Network.Twins`: two networks of layers that are copies of each other, and whose free nodes are
  their inputs.

## Main statements

- `Network.exists_fresh_twins`, `Network.exists_twins`: clipping two copies with one range gives
  twins.
- `Network.Twins.agreesBefore`: overriding one of two twins leaves them in agreement before the
  first overridden layer.
-/

namespace PiecewiseNet

variable {α : Type}

namespace Network

variable {net net' base twin : Network} {a b c : Arena α} {f g : NodeId → NodeId}
  {near : Nat → Nat → Prop} {r : ClipRange} {s s' : String}

theorem Copy.lies_iff (h : net.Copy a f net' b) {l : Nat} {d : Chain} {j : NodeId} :
    net'.Lies l d j ↔ ∃ c id, net.Lies l c id ∧ d = c.map f ∧ j = f id := by
  simp only [Network.lies_iff, h.chainAt_eq, Option.map_eq_some_iff]
  constructor
  · rintro ⟨n, ⟨c, hc, rfl⟩, hj⟩
    obtain ⟨id, hid, rfl⟩ := List.mem_map.1 hj
    exact ⟨c, id, ⟨n, hc, hid⟩, rfl, rfl⟩
  · rintro ⟨c, id, ⟨n, hc, hid⟩, rfl, rfl⟩
    exact ⟨n, ⟨c, hc, rfl⟩, List.mem_map_of_mem hid⟩

/-- A copy reads layers as near as the original does. -/
theorem Copy.readsFrom (h : net.Copy a f net' b) (hf : net.ReadsFrom near a) :
    net'.ReadsFrom near b := by
  intro l d j hj t ht
  obtain ⟨c, id, hid, rfl, rfl⟩ := h.lies_iff.1 hj
  have hmem : id ∈ net.nodes := by
    obtain ⟨n, hc, hidc⟩ := Network.lies_iff.1 hid
    exact Network.mem_nodes hc hidc
  obtain ⟨t, hread, rfl⟩ := (h.mirrors id hmem).reads_iff.1 ht
  rcases hf l c id hid t hread with hown | ⟨l', c', hnear, hlies⟩
  · exact .inl (List.mem_map_of_mem hown)
  · exact .inr ⟨l', c'.map f, hnear, h.lies_iff.2 ⟨c', t, hlies, rfl, rfl⟩⟩

/-- The free nodes of a copy are its inputs if those of the original are. -/
theorem Copy.isFree_iff (h : net.Copy a f net' b)
    (hfree : ∀ id ∈ net.nodes, IsFree a id ↔ id ∈ net.inputs) :
    ∀ id ∈ net'.nodes, IsFree b id ↔ id ∈ net'.inputs := by
  intro j hj
  rw [h.nodes_eq, List.mem_map] at hj
  obtain ⟨id, hid, rfl⟩ := hj
  rw [(h.mirrors id hid).isFree_iff, hfree id hid, h.inputs_eq, List.mem_map]
  constructor
  · intro hinput
    exact ⟨id, hinput, rfl⟩
  · rintro ⟨i, hi, heq⟩
    rwa [← h.injOn i (inputs_subset_nodes hi) id hid heq]

/-- A network of layers with a copy on other nodes; its free nodes are its inputs. -/
structure Twins (base twin : Network) (near : Nat → Nat → Prop) (g : NodeId → NodeId)
    (a : Arena α) : Prop where
  copy : twin.Copy a g base a
  disjoint : ∀ id ∈ twin.nodes, id ∉ base.nodes
  wellFormed : twin.WellFormed a
  /-- Nodes read their own neuron and near layers. -/
  readsFrom : twin.ReadsFrom near a
  /-- The free nodes are the inputs. -/
  isFree_iff : ∀ id ∈ twin.nodes, IsFree a id ↔ id ∈ twin.inputs
  layerCount : 2 ≤ twin.layerCount

/-- Clipping two copies of a network of layers with one range gives twins. Nothing that was there is
changed by the second copy, whose nodes are new. -/
theorem exists_fresh_twins (hnet : net.WellFormed a) (hf : net.ReadsFrom near a)
    (hshift : ∀ k e l, near (k + e) (k + l) → near e l) (hfree : net.FreeAtInputs a)
    (hbase : (net.duplicateAndClip r s).Yields a base b)
    (hcopy : (net.duplicateAndClip r s').Yields b twin c) :
    ∃ f g, (net.trimmed r).Copy (a.freed (net.trimmed r).inputs) f twin c ∧
      base.Twins twin near g c ∧ b.GrowsTo c ∧ ∀ id ∈ twin.nodes, b.size ≤ id := by
  obtain ⟨f₁, hcopy₁, -, hgrows₁, hkept, hwell₁, -⟩ := duplicateAndClip_yields hbase hnet
  have hsame : ∀ id ∈ net.nodes, b.get? id = a.get? id := fun id hid =>
    hgrows₁.get? id (hnet.held id hid)
  obtain ⟨f₂, hcopy₂, hfresh₂, hgrows₂, -, hwell₂, hcount⟩ :=
    duplicateAndClip_yields hcopy (hnet.of_get?_eq hsame)
  -- Both are copies of what is kept of the network as it was.
  have h₁ := hcopy₁.of_get?_eq (fun _ _ => rfl) fun id hid =>
    hgrows₂.get? id (hwell₁.held id hid)
  have h₂ := hcopy₂.of_get?_eq (fun id hid => Arena.get?_freed_of_get?_eq
    (hsame id (nodes_trimmed_subset hid)).symm) fun _ _ => rfl
  obtain ⟨g, hbetween, -⟩ := h₂.between h₁ hkept
  have hfresh : ∀ id ∈ twin.nodes, b.size ≤ id := by
    intro j hj
    rw [h₂.nodes_eq, List.mem_map] at hj
    obtain ⟨id, hid, rfl⟩ := hj
    exact hfresh₂ id hid
  refine ⟨f₂, g, h₂, ⟨hbetween, ?_, hwell₂, ?_, ?_, hcount⟩, hgrows₂, hfresh⟩
  · intro j hj hjbase
    exact absurd (hwell₁.held j hjbase) (Nat.not_lt.2 (hfresh j hj))
  · exact h₂.readsFrom (readsFrom_trimmed hshift hnet.nodup hf hkept.closed)
  · exact h₂.isFree_iff fun id hid => isFree_trimmed_iff hnet hfree hid

theorem exists_twins (hnet : net.WellFormed a) (hf : net.ReadsFrom near a)
    (hshift : ∀ k e l, near (k + e) (k + l) → near e l) (hfree : net.FreeAtInputs a)
    (hbase : (net.duplicateAndClip r s).Yields a base b)
    (hcopy : (net.duplicateAndClip r s').Yields b twin c) :
    ∃ f g, (net.trimmed r).Copy (a.freed (net.trimmed r).inputs) f twin c ∧
      base.Twins twin near g c ∧ b.GrowsTo c := by
  obtain ⟨f, g, htrimmed, htwins, hgrows, -⟩ :=
    exists_fresh_twins hnet hf hshift hfree hbase hcopy
  exact ⟨f, g, htrimmed, htwins, hgrows⟩

namespace Twins

variable (h : base.Twins twin near g a)

include h

/-- The free nodes of the base are its inputs. -/
theorem isFree_base_iff : ∀ id ∈ base.nodes, IsFree a id ↔ id ∈ base.inputs :=
  h.copy.isFree_iff h.isFree_iff

theorem layerCount_base : 2 ≤ base.layerCount := by
  rw [h.copy.layerCount_eq]
  exact h.layerCount

/-- Overriding one of two twins does not change the other one. -/
theorem get?_base [Scalar α] {altered : Network} {ov : Overrides} {table : Substitution}
    (halt : twin.Altered a ov altered b table) : ∀ id ∈ base.nodes, b.get? id = a.get? id :=
  fun id hid => halt.outside id ((h.copy.wellFormed h.wellFormed).held id hid) fun hmem =>
    h.disjoint id hmem hid

/-- After overriding one of two twins the free nodes of the other one still are its inputs. -/
theorem mem_inputs_of_isFree [Scalar α] {altered : Network} {ov : Overrides} {table : Substitution}
    (halt : twin.Altered a ov altered b table) :
    ∀ id ∈ base.nodes, IsFree b id → id ∈ base.inputs := by
  intro id hid hfree
  rw [IsFree, h.get?_base halt id hid] at hfree
  exact (h.isFree_base_iff id hid).1 hfree

/-- Overriding one of two twins leaves them in agreement before the first overridden layer. -/
theorem agreesBefore [Scalar α] (hnear : ∀ e l, near e l → e < l) {altered : Network}
    {ov : Overrides} {table : Substitution} {boundary : Nat}
    (halt : twin.Altered a ov altered b table) (hwell : altered.WellFormed b)
    (hmin : ∀ l n, ov.contains (l, n) = true → boundary ≤ l) :
    base.AgreesBefore altered ov boundary g b := by
  have hearlier : twin.ReadsEarlier a := by
    intro l c id hid t ht
    rcases h.readsFrom l c id hid t ht with hown | ⟨e, d, hel, hd⟩
    · exact .inl hown
    · exact .inr ⟨e, d, hnear e l hel, hd⟩
  exact halt.agreesBefore hmin h.wellFormed hearlier h.copy h.disjoint hwell

end Twins

end Network

end PiecewiseNet
