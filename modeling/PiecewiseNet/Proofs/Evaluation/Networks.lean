import PiecewiseNet.Proofs.Evaluation.Copies
import PiecewiseNet.Proofs.Evaluation.Feedforward
import PiecewiseNet.Proofs.Network.Trimming

/-!
# Evaluation of networks

The query of a network whose free nodes are its inputs asks for one run per input vector, and
evaluation returns this run: every input has the given value, unless its bounds fix another one,
and every other node has the value that it computes from the nodes it reads.

## Main definitions

- `Network.Feedforward`: the networks in question.
- `Network.Evaluates`: the values of a run on given inputs.

## Main statements

- `Network.exists_toQuery`: a well-formed network has a query.
- `Network.exists_forward`: evaluation returns a run for every input vector.
-/

namespace PiecewiseNet

namespace Query.Computes

variable {α : Type} [Scalar α] {q : Query α} {a : Arena α} {xs : List α} {w : Valuation α}
  {id : NodeId} {n : Node α}

/-- The value of an input is the given one, unless its bounds fix another one. -/
theorem eq_input (hnd : q.inputs.Nodup) (h : q.Computes a xs id (w id)) (hn : a.get? id = some n)
    (hkind : n.kind = .plain) {i : Nat} {x : α} (hid : q.inputs[i]? = some id)
    (hx : xs[i]? = some x) : w id = n.bounds.fixedValue?.getD x := by
  generalize w id = y at h
  cases h with
  | fixed hid' hn' hkind' hy => simp_all
  | input hn' hkind' hfree hy =>
    obtain rfl := Option.some.inj (hn.symm.trans hn')
    rw [hfree, Option.getD_none]
    exact zip_right_unique hnd hy
      (List.mem_iff_getElem?.2 ⟨i, List.getElem?_zip_eq_some.2 ⟨hid, hx⟩⟩)
  | affine hn' hkind' hw => simp_all
  | relu hn' hkind' hy => simp_all

/-- Any other member has the value that it computes from the values of what it reads. -/
theorem eq_value (hnd : q.inputs.Nodup) (hall : ∀ r ∈ q.nodes, q.Computes a xs r (w r))
    (hid : id ∈ q.nodes) (hn : a.get? id = some n) (hrefs : n.references ⊆ q.nodes) :
    w id = n.kind.value w (w id) := by
  generalize hy : w id = y
  have h := hall id hid
  rw [hy] at h
  cases h with
  | fixed hid' hn' hkind' hy =>
    obtain rfl := Option.some.inj (hn.symm.trans hn')
    rw [hkind']
    rfl
  | input hn' hkind' hfree hy =>
    obtain rfl := Option.some.inj (hn.symm.trans hn')
    rw [hkind']
    rfl
  | @affine _ _ terms bias u hn' hkind' hw =>
    obtain rfl := Option.some.inj (hn.symm.trans hn')
    rw [Node.references, hkind'] at hrefs
    rw [hkind', NodeKind.value]
    rw [Terms.value_congr fun r hr => (hw r hr).unique hnd (hall r (hrefs hr))]
  | @relu _ r _ relaxed u hn' hkind' hu =>
    obtain rfl := Option.some.inj (hn.symm.trans hn')
    rw [Node.references, hkind'] at hrefs
    rw [hkind', NodeKind.value, hu.unique hnd (hall r (hrefs (List.mem_singleton.2 rfl)))]

end Query.Computes

/-- The output values are the values of the outputs. -/
theorem ConstraintSystem.outputValues?_eq {α : Type} [Scalar α] {s : ConstraintSystem α}
    {a : Arena α} {q : Query α} {v : Assignment α} {w : Valuation α} (hs : ofQuery a q = .ok s)
    (h : ∀ id ∈ q.outputs, s.valueOf? v id = some (w id)) :
    s.outputValues? v = some (q.outputs.map w) := by
  have hvalue : ∀ id ∈ q.outputs, v.value? (List.idxOf id q.nodes) = some (w id) := by
    intro id hid
    rw [← (ofQuery_eq_ok hs).valueOf?_eq v (q.outputs_subset hid), h id hid]
  have hmapM : ∀ ids ⊆ q.outputs,
      (ids.mapM fun id => v.value? (List.idxOf id q.nodes)) = some (ids.map w) := by
    intro ids
    induction ids with
    | nil => exact fun _ => rfl
    | cons id ids ih =>
      intro hsub
      obtain ⟨hid, hids⟩ := List.cons_subset.1 hsub
      simp [hvalue id hid, ih hids]
  obtain ⟨-, -, houtputs, -⟩ := tables_of_ofQuery hs
  rw [outputValues?, houtputs, List.mapM_map]
  exact hmapM q.outputs (List.Subset.refl _)

namespace Network

variable {α : Type} {net : Network} {a : Arena α}

/-- The query of a well-formed network is about its nodes, in their order. -/
theorem exists_toQuery (hnet : net.WellFormed a) :
    ∃ q : Query α, net.toQuery = .ok q ∧ q.nodes = net.nodes ∧ q.inputs = net.inputs ∧
      q.outputs = net.outputs ∧ q.equations = [] := by
  obtain ⟨q, hq⟩ := Query.exists_new_iff.2
    ⟨inputs_subset_nodes, (outputs_subset_nodes : net.outputs ⊆ net.nodes), List.forall_mem_nil _⟩
  obtain ⟨hnodes, hrest⟩ := Query.new_eq_ok hq
  exact ⟨q, hq, hnodes.trans (eraseDups_eq_self hnet.nodup), hrest⟩

/-- A well-formed network passes the check of its query. -/
theorem WellFormed.checkIntegrity_toQuery (hnet : net.WellFormed a) {q : Query α}
    (hq : net.toQuery = .ok q) : q.checkIntegrity a = .ok () := by
  obtain ⟨q', hq', hnodes, -⟩ := exists_toQuery hnet
  obtain rfl := Except.ok.inj (hq.symm.trans hq')
  rw [Query.checkIntegrity_eq_ok_iff, hnodes]
  intro id hid
  obtain ⟨n, hn⟩ := Arena.exists_get? (hnet.held id hid)
  exact ⟨n, hn, fun r hr => hnet.closed id hid r ((Arena.reads_iff hn).2 hr)⟩

/-- Nodes picked from the neurons of a layer, one from each, are distinct nodes. -/
theorem nodup_filterMap (hnet : net.WellFormed a) {l : Layer} (hl : l ∈ net.layers)
    {pick : Chain → Option NodeId} (hpick : ∀ c id, pick c = some id → id ∈ c) :
    (l.filterMap pick).Nodup := by
  have hpicked : ∀ l : Layer, (l.filterMap pick).Sublist l.flatten := by
    intro l
    induction l with
    | nil => exact .slnil
    | cons c l ih =>
      cases hc : pick c with
      | none =>
        rw [List.filterMap_cons_none hc]
        exact ih.trans (List.sublist_append_right c _)
      | some id =>
        rw [List.filterMap_cons_some hc]
        exact (List.singleton_sublist.2 (hpick c id hc)).append ih
  refine hnet.nodup.sublist ((hpicked l).trans ?_)
  rw [nodes, List.flatten_flatten]
  exact List.sublist_flatten_of_mem (List.mem_map_of_mem hl)

theorem nodup_inputs (hnet : net.WellFormed a) : net.inputs.Nodup := by
  rw [inputs]
  cases hl : net.layers.head? with
  | none => exact .nil
  | some l =>
    exact nodup_filterMap hnet (List.mem_of_head? hl) fun c id hid => List.mem_of_head? hid

theorem nodup_outputs (hnet : net.WellFormed a) : net.outputs.Nodup := by
  rw [outputs]
  cases hl : net.layers.getLast? with
  | none => exact .nil
  | some l =>
    exact nodup_filterMap hnet (List.mem_of_getLast? hl) fun c id hid => List.mem_of_getLast? hid

/-- The queries of a network and its copy ask the same. -/
theorem Copy.exists_toQuery {net' : Network} {b : Arena α} {f : NodeId → NodeId}
    (h : net.Copy a f net' b) (hnet : net.WellFormed a) :
    ∃ q q', net.toQuery = .ok q ∧ net'.toQuery = .ok q' ∧ q.Copy a f q' b := by
  obtain ⟨q, hq, hnodes, hinputs, houtputs, hequations⟩ := Network.exists_toQuery hnet
  obtain ⟨q', hq', hnodes', hinputs', houtputs', hequations'⟩ :=
    Network.exists_toQuery (h.wellFormed hnet)
  refine ⟨q, q', hq, hq', ?_, ?_, ?_, ?_, ?_, ?_⟩
  · rw [hnodes', h.nodes_eq, hnodes]
  · rw [hinputs', h.inputs_eq, hinputs]
  · rw [houtputs', h.outputs_eq, houtputs]
  · rw [hequations', hequations, List.map_nil]
  · rw [hnodes]
    exact h.injOn
  · rw [hnodes]
    exact h.mirrors

/-- No chain of references leads from a node of a well-formed network back to it. -/
theorem WellFormed.not_transGen (hnet : net.WellFormed a) {id : NodeId} (hid : id ∈ net.nodes) :
    ¬Relation.TransGen a.Reads id id := by
  have hread : ∀ id ∈ net.nodes, ∀ r, a.Reads id r →
      r ∈ net.nodes ∧ List.idxOf r net.nodes < List.idxOf id net.nodes :=
    fun id hid r hr => ⟨hnet.closed id hid r hr, hnet.idxOf_lt hid hr⟩
  have hchain : ∀ r, Relation.TransGen a.Reads id r →
      r ∈ net.nodes ∧ List.idxOf r net.nodes < List.idxOf id net.nodes := by
    intro r hr
    induction hr with
    | single hr => exact hread id hid _ hr
    | tail _ hr ih =>
      obtain ⟨hmem, hlt⟩ := hread _ ih.1 _ hr
      exact ⟨hmem, hlt.trans ih.2⟩
  intro hcycle
  exact Nat.lt_irrefl _ (hchain id hcycle).2

/-! ## Runs -/

/-- A network that evaluation runs forwards: the free nodes are the inputs, and no other node has
coinciding bounds. -/
structure Feedforward [Scalar α] (net : Network) (a : Arena α) : Prop where
  wellFormed : net.WellFormed a
  isFree_iff : ∀ id ∈ net.nodes, IsFree a id ↔ id ∈ net.inputs
  noAbs : ∀ id ∈ net.nodes, ∀ n, a.get? id = some n → ConstraintSystem.isAbs n = false
  fixed_free : ∀ id ∈ net.nodes, ∀ n, a.get? id = some n → n.bounds.fixedValue?.isSome →
    n.kind = .plain

/-- The values of a run on given inputs. -/
structure Evaluates [Scalar α] (net : Network) (a : Arena α) (xs : List α) (w : Valuation α) :
    Prop where
  /-- An input has the given value, unless its bounds fix another one. -/
  inputs : ∀ (i : Nat) id x n, net.inputs[i]? = some id → xs[i]? = some x → a.get? id = some n →
    w id = n.bounds.fixedValue?.getD x
  /-- Every node has the value that it computes from the nodes it reads. -/
  nodes : ∀ id ∈ net.nodes, ∀ n, a.get? id = some n → w id = n.kind.value w (w id)

/-- The query of such a network is evaluated forwards, and none of its members is undetermined. -/
theorem Feedforward.exists_toQuery [Scalar α] (h : net.Feedforward a) :
    ∃ q : Query α, net.toQuery = .ok q ∧ q.nodes = net.nodes ∧ q.inputs = net.inputs ∧
      q.outputs = net.outputs ∧ q.Feedforward a ∧ ∀ id ∈ q.nodes, ¬q.Undetermined a id := by
  obtain ⟨q, hq, hnodes, hinputs, houtputs, hequations⟩ := Network.exists_toQuery h.wellFormed
  refine ⟨q, hq, hnodes, hinputs, houtputs, ?_, ?_⟩
  · refine ⟨h.wellFormed.checkIntegrity_toQuery hq, ?_, by simp [hequations], ?_, ?_, ?_, ?_⟩
    · rw [hnodes]
      exact h.noAbs
    · rw [Query.Acyclic, hnodes]
      exact fun id hid => h.wellFormed.not_transGen hid
    · rw [hinputs]
      exact nodup_inputs h.wellFormed
    · rw [hinputs]
      exact fun id hid => (h.isFree_iff id (inputs_subset_nodes hid)).2 hid
    · rw [hnodes]
      exact h.fixed_free
  · rw [hnodes]
    rintro id hid ⟨hinput, n, hn, hkind, -⟩
    rw [hinputs] at hinput
    exact hinput ((h.isFree_iff id hid).1 ⟨n, hn, hkind⟩)

/-- Evaluation returns a run of such a network for every input vector. -/
theorem Feedforward.exists_forward {a : Arena Rat} (h : net.Feedforward a) :
    ∃ q s, net.toQuery = .ok q ∧ ConstraintSystem.ofQuery a q = .ok s ∧
      ∀ xs, xs.length = net.inputs.length → ∃ v w, s.forward xs = .ok v ∧
        s.outputValues? v = some (net.outputs.map w) ∧ net.Evaluates a xs w := by
  obtain ⟨q, hq, hnodes, hinputs, houtputs, hforward, hdet⟩ := h.exists_toQuery
  obtain ⟨s, hs⟩ := ConstraintSystem.ofQuery_ok hforward.integrity hforward.noAbs
  refine ⟨q, s, hq, hs, ?_⟩
  intro xs hlen
  rw [← hinputs] at hlen
  obtain ⟨s', v, hs', hv, hvalues⟩ := ConstraintSystem.exists_forward hforward hlen hdet
  obtain rfl : s = s' := Except.ok.inj (hs.symm.trans hs')
  let w : Valuation Rat := fun id => (s.valueOf? v id).getD 0
  have hw : ∀ id ∈ q.nodes, s.valueOf? v id = some (w id) ∧ q.Computes a xs id (w id) := by
    intro id hid
    obtain ⟨y, hy, hcomputes⟩ := hvalues id hid
    simp only [w, hy, Option.getD_some]
    exact ⟨trivial, hcomputes⟩
  refine ⟨v, w, hv, ?_, ?_, ?_⟩
  · rw [← houtputs]
    exact ConstraintSystem.outputValues?_eq hs fun id hid => (hw id (q.outputs_subset hid)).1
  · intro i id x n hid hx hn
    rw [← hinputs] at hid
    have hmem : id ∈ q.inputs := List.mem_of_getElem? hid
    obtain ⟨m, hm, hkind⟩ := hforward.inputs_free id hmem
    obtain rfl := Option.some.inj (hn.symm.trans hm)
    exact (hw id (q.inputs_subset hmem)).2.eq_input hforward.inputs_nodup hn hkind hid hx
  · intro id hid n hn
    rw [← hnodes] at hid
    obtain ⟨m, hm, hrefs⟩ := Query.checkIntegrity_eq_ok_iff.1 hforward.integrity id hid
    obtain rfl := Option.some.inj (hn.symm.trans hm)
    exact Query.Computes.eq_value hforward.inputs_nodup (fun r hr => (hw r hr).2) hid hn hrefs

end Network

end PiecewiseNet
