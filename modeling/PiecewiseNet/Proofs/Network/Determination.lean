import PiecewiseNet.Proofs.Network.WholeCopies

/-!
# Determination of networks

The order that the integrity check asks for is what makes a network compute something: references
lead to smaller positions, so they end, and the values of the free nodes determine all others.

## Main statements

- `Network.reads_before_iff_positions`: reading earlier nodes, in terms of positions.
- `Network.WellFormed.wellFounded_reads`: no references go on for ever.
- `Network.checkIntegrity_determines`: which networks are accepted, and that these compute.
-/

namespace PiecewiseNet

namespace Network

variable {α : Type} {net : Network} {a : Arena α} {id : NodeId}

/-- A node reads the nodes in front of it exactly when it reads nodes at smaller positions. -/
theorem reads_before_iff_positions {ids : List NodeId} :
    (∀ pre id post, ids = pre ++ id :: post → ∀ r, a.Reads id r → r ∈ pre) ↔
      ∀ (p : Nat) id, ids[p]? = some id → ∀ r, a.Reads id r → ∃ q < p, ids[q]? = some r := by
  constructor
  · intro h p id hid r hr
    obtain ⟨hlt, rfl⟩ := List.getElem?_eq_some_iff.1 hid
    have hsplit : ids = ids.take p ++ ids[p] :: ids.drop (p + 1) := by
      rw [← List.drop_eq_getElem_cons hlt, List.take_append_drop]
    obtain ⟨q, hq⟩ := List.mem_iff_getElem?.1 (h _ _ _ hsplit r hr)
    have hqp : q < p := (List.getElem?_eq_some_iff.1 hq).1.trans_le (List.length_take_le p ids)
    rw [List.getElem?_take_of_lt hqp] at hq
    exact ⟨q, hqp, hq⟩
  · rintro h pre id post rfl r hr
    have hid : (pre ++ id :: post)[pre.length]? = some id := by simp
    obtain ⟨q, hq, hget⟩ := h pre.length id hid r hr
    rw [List.getElem?_append_left hq] at hget
    exact List.mem_of_getElem? hget

/-- References between the nodes of a network lead to ever smaller positions, so they end. -/
theorem WellFormed.wellFounded_reads (hnet : net.WellFormed a) :
    WellFounded fun r id => id ∈ net.nodes ∧ a.Reads id r :=
  Subrelation.wf (fun h => hnet.idxOf_lt h.1 h.2)
    (measure fun id => List.idxOf id net.nodes).wf

section

variable [Scalar α]

/-- The check accepts a network exactly when there is a layer, no neuron is empty, every node is in
the arena and listed once, and every node reads nodes at smaller positions. References between the
nodes of an accepted network end. Its free nodes can have any values, and these determine the
values of all nodes; the value of a node is settled by the free nodes that it depends on. -/
theorem checkIntegrity_determines (net : Network) (a : Arena α) :
    (net.checkIntegrity a = .ok () ↔
      net.layers ≠ [] ∧ (∀ l ∈ net.layers, ∀ c ∈ l, c ≠ []) ∧ (∀ id ∈ net.nodes, id < a.size) ∧
        net.nodes.Nodup ∧ ∀ (p : Nat) id, net.nodes[p]? = some id →
          ∀ r, a.Reads id r → ∃ q < p, net.nodes[q]? = some r) ∧
      (net.checkIntegrity a = .ok () →
        (WellFounded fun r id => id ∈ net.nodes ∧ a.Reads id r) ∧
          ∀ x : Valuation α, ∃ v, (∀ id ∈ net.nodes, a.Respects v id) ∧
            (∀ id ∈ net.nodes, IsFree a id → v id = x id) ∧
            ∀ w, (∀ id ∈ net.nodes, a.Respects w id) → ∀ id ∈ net.nodes,
              (∀ j ∈ net.nodes, IsFree a j → a.DependsOn id j → w j = x j) → w id = v id) := by
  refine ⟨?_, fun haccepted => ?_⟩
  · rw [checkIntegrity_eq_ok_iff, reads_before_iff_positions]
  · have hnet := accepted_iff.1 haccepted
    refine ⟨hnet.wellFounded_reads, fun x => ?_⟩
    refine ⟨a.compute net.nodes x, fun id => hnet.respects_compute x,
      fun id => hnet.compute_of_isFree x, ?_⟩
    intro w hw id hid hagree
    refine hnet.determined (fun id => hnet.respects_compute x) hw hid fun j hj hjfree hdep => ?_
    rw [hagree j hj hjfree hdep, hnet.compute_of_isFree x hj hjfree]

/-- The sample is accepted, and its output is the absolute value of its input. -/
theorem checkIntegrity_determines_sample :
    sample.checkIntegrity Arena.sample = .ok () ∧
      (WellFounded fun r id => id ∈ sample.nodes ∧ Arena.sample.Reads id r) ∧
      ∃ v : Valuation Rat, (∀ id ∈ sample.nodes, Arena.sample.Respects v id) ∧
        v 0 = -2 ∧ v 5 = 2 := by
  have haccepted : sample.checkIntegrity Arena.sample = .ok () := by decide
  obtain ⟨hwf, hvalues⟩ := (checkIntegrity_determines sample Arena.sample).2 haccepted
  obtain ⟨v, hv, hinput, hdetermined⟩ := hvalues fun _ => -2
  have hw : ∀ id ∈ sample.nodes,
      Arena.sample.Respects (fun id => [-2, -2, 0, 2, 2, 2].getD id 0) id := by
    show ∀ id ∈ sample.nodes, ∃ n, _ ∧ _
    decide +kernel
  have hfree : ∀ j ∈ sample.nodes, IsFree Arena.sample j →
      ([-2, -2, 0, 2, 2, 2] : List Rat).getD j 0 = -2 := by
    decide +kernel
  refine ⟨haccepted, hwf, v, hv, hinput 0 (by decide) (by decide), ?_⟩
  exact (hdetermined _ hw 5 (by decide) fun j hj hjfree _ => hfree j hj hjfree).symm

end

end Network

end PiecewiseNet
