import PiecewiseNet.Proofs.Network.Joining
import PiecewiseNet.Proofs.Network.Trimming

/-!
# Runs of joined networks

A run of a base and a run of an altered network that start from the same inputs have the same values
at shared nodes, so they are one run of the two joined networks.

## Main definitions

- `Network.Parts`: parts of a base and of an altered network that agree up to a boundary.

## Main statements

- `Network.Parts.eq_of_shared`: runs of the parts have the same values at shared nodes.
- `Network.Parts.exists_run`: runs of the parts are one run.
-/

namespace PiecewiseNet

variable {α : Type}

namespace Network

variable {base altered part altpart : Network} {ov : Overrides} {boundary : Nat}
  {g : NodeId → NodeId} {a b : Arena α} {v w : Valuation α}

/-- Shared free nodes are inputs, if the free nodes of the base are. -/
theorem AgreesBefore.mem_inputs_of_shared (h : base.AgreesBefore altered ov boundary g a)
    (hfree : ∀ id ∈ base.nodes, IsFree a id → id ∈ base.inputs) {id : NodeId}
    (hshared : altered.Shared ov boundary id) (hid : IsFree a id) : id ∈ altered.inputs := by
  have hinput := hfree _ (h.mem_base hshared) ((h.mirrors id hshared).isFree_iff.2 hid)
  rw [h.inputs_eq, List.mem_map] at hinput
  obtain ⟨i, hi, heq⟩ := hinput
  rw [← sharing_of_shared (g := g) hshared] at heq
  obtain rfl := h.sharing_injOn i (inputs_subset_nodes hi) id hshared.mem_nodes heq
  exact hi

/-- On the same inputs, shared free nodes have the same values as their counterparts, if the free
nodes of the base are inputs. -/
theorem AgreesBefore.eq_of_inputs (h : base.AgreesBefore altered ov boundary g a)
    (hfree : ∀ id ∈ base.nodes, IsFree a id → id ∈ base.inputs)
    (hinputs : base.inputs.map v = altered.inputs.map w) {id : NodeId}
    (hshared : altered.Shared ov boundary id) (hid : IsFree a id) : v (g id) = w id := by
  rw [h.inputs_eq, List.map_map, List.map_inj_left] at hinputs
  have hvalue := hinputs id (h.mem_inputs_of_shared hfree hshared hid)
  rwa [Function.comp_apply, sharing_of_shared hshared] at hvalue

/-- Only the nodes of a network matter for its runs. -/
theorem runs_iff_of_get?_eq [Scalar α] (h : ∀ id ∈ part.nodes, b.get? id = a.get? id) :
    part.Runs b v ↔ part.Runs a v := by
  refine forall₂_congr fun id hid => ?_
  rw [Arena.Satisfies, Arena.Satisfies, h id hid]

/-- A part of a base and a part of an altered network that agree up to a boundary. The part of the
base has the counterparts of what is shared in the other one. -/
structure Parts (base altered : Network) (ov : Overrides) (boundary : Nat) (g : NodeId → NodeId)
    (a : Arena α) (part altpart : Network) : Prop where
  agrees : base.AgreesBefore altered ov boundary g a
  part_wellFormed : part.WellFormed a
  altpart_wellFormed : altpart.WellFormed a
  part_subset : part.nodes ⊆ base.nodes
  altpart_subset : altpart.nodes ⊆ altered.nodes
  /-- The counterparts of shared nodes are kept. -/
  shared : ∀ id ∈ altpart.nodes, altered.Shared ov boundary id → g id ∈ part.nodes

namespace Parts

variable [Scalar α] (h : base.Parts altered ov boundary g a part altpart)

include h

/-- Runs of the parts with the same values at shared free nodes have the same values at all shared
nodes. -/
theorem eq_of_shared (hv : part.Runs a v) (hw : altpart.Runs a w)
    (hfree : ∀ id ∈ altpart.nodes, altered.Shared ov boundary id → IsFree a id → v (g id) = w id) :
    ∀ id ∈ altpart.nodes, altered.Shared ov boundary id → v (g id) = w id := by
  -- Along the nodes: a shared node reads shared nodes, and its counterpart reads theirs.
  have hmain : ∀ id ∈ altpart.nodes, id ∈ altpart.nodes → altered.Shared ov boundary id →
      v (g id) = w id := by
    refine h.altpart_wellFormed.induction ?_
    intro id hid ih _ hshared
    obtain ⟨n, m, hn, hm, hkind, -⟩ := h.agrees.mirrors id hshared
    obtain ⟨m', hm', hbase⟩ := hv _ (h.shared id hid hshared)
    obtain rfl : m = m' := by simpa [hm] using hm'
    obtain ⟨n', hn', haltered⟩ := hw id hid
    obtain rfl : n = n' := by simpa [hn] using hn'
    have hrefs : ∀ r ∈ n.kind.references, v (g r) = w r := by
      intro r hr
      have hread := (Arena.reads_iff hn).2 hr
      exact ih r hread (h.altpart_wellFormed.closed id hid r hread)
        (h.agrees.closed id hshared r hread)
    rw [hbase.value, haltered.value, hkind, NodeKind.value_redirect,
      NodeKind.value_congr (w := w) hrefs]
    cases hk : n.kind with
    | plain => exact hfree id hid hshared ⟨n, hn, hk⟩
    | affine terms bias => rfl
    | relu input relaxed => rfl
    | abs input => rfl
  exact fun id hid => hmain id hid hid

/-- Runs of the parts with the same values at shared free nodes are one run, in which the nodes of
the altered network have the values of their counterparts. -/
theorem exists_run (hv : part.Runs a v) (hw : altpart.Runs a w)
    (hfree : ∀ id ∈ altpart.nodes, altered.Shared ov boundary id → IsFree a id → v (g id) = w id) :
    ∃ u : Valuation α, (∀ id ∈ part.nodes, u id = v id) ∧
      ∀ id ∈ altpart.nodes, u (altered.sharing ov boundary g id) = w id := by
  refine ⟨fun id => if id ∈ part.nodes then v id else w id, ?_, ?_⟩
  · intro id hid
    exact if_pos hid
  · intro id hid
    by_cases hshared : altered.Shared ov boundary id
    · rw [sharing_of_shared hshared]
      exact (if_pos (h.shared id hid hshared)).trans (h.eq_of_shared hv hw hfree id hid hshared)
    · rw [sharing_of_not_shared hshared]
      exact if_neg fun hpart =>
        h.agrees.disjoint id (h.altpart_subset hid) (h.part_subset hpart)

variable {joined : Network} (hcopy : altpart.Copy a (altered.sharing ov boundary g) joined b)
  (hsame : ∀ id ∈ part.nodes, b.get? id = a.get? id)

include hcopy hsame

/-- Runs of the parts with the same values at shared free nodes are one run of the part of the base
and a copy of the other part in which shared nodes are those of the base. -/
theorem exists_joined_run (hv : part.Runs a v) (hw : altpart.Runs a w)
    (hfree : ∀ id ∈ altpart.nodes, altered.Shared ov boundary id → IsFree a id → v (g id) = w id) :
    ∃ u, part.Runs b u ∧ joined.Runs b u ∧ (∀ id ∈ part.nodes, u id = v id) ∧
      ∀ id ∈ altpart.nodes, u (altered.sharing ov boundary g id) = w id := by
  obtain ⟨u, hpart, haltpart⟩ := h.exists_run hv hw hfree
  refine ⟨u, ?_, ?_, hpart, haltpart⟩
  · rw [runs_iff_of_get?_eq hsame]
    exact h.part_wellFormed.runs_congr (fun id hid => (hpart id hid).symm) hv
  · rw [hcopy.runs_iff]
    exact h.altpart_wellFormed.runs_congr (fun id hid => (haltpart id hid).symm) hw

end Parts

end Network

end PiecewiseNet
