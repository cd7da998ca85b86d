import PiecewiseNet.Proofs.Evaluation.Networks
import PiecewiseNet.Proofs.Ipq.Alternating
import PiecewiseNet.Proofs.Solver.Reachability

/-!
# Exported networks read back

The record set of an alternating network is rebuilt as a copy of the network. No variable becomes a
further input, because only inputs of such a network have coinciding bounds.

## Main definitions

- `IpqFile.ExportOf`: the record set of a network.

## Main statements

- `IpqFile.exists_exportOf`: a network that is evaluated forwards has a record set.
- `IpqFile.exists_rebuild`: the record set of an alternating network is rebuilt as a copy of it.
-/

namespace PiecewiseNet

namespace IpqFile

open Network

variable {α : Type} [Scalar α] {f : IpqFile α} {net : Network} {a : Arena α}

/-- The file is the record set of the network, whose nodes are the variables in their order. -/
structure ExportOf (f : IpqFile α) (net : Network) (a : Arena α) : Prop where
  exports : f.Exports a net.nodes
  inputs : f.inputs = net.inputs.map (VariableTable.varOf net.nodes)
  outputs : f.outputs = net.outputs.map (VariableTable.varOf net.nodes)
  lowerBounds : ∀ id ∈ net.nodes, ∀ n, a.get? id = some n →
    f.lowerBounds.get? (VariableTable.varOf net.nodes id) = n.bounds.lower
  upperBounds : ∀ id ∈ net.nodes, ∀ n, a.get? id = some n →
    f.upperBounds.get? (VariableTable.varOf net.nodes id) = n.bounds.upper
  fixed : f.fixedVariables ⊆ f.inputs

/-- A fixed variable of a record set is a member with coinciding bounds. -/
theorem exists_of_mem_fixedVariables [LawfulSigns α] {q : Query α} {e : SolverQuery α}
    (h : e.Tabulates a q) (hnd : e.table.Nodup) {v : Nat} (hv : v ∈ e.toIpq.fixedVariables) :
    ∃ id ∈ e.table, e.table.varOf id = v ∧
      ∃ n, a.get? id = some n ∧ n.bounds.fixedValue?.isSome := by
  obtain ⟨⟨u, x⟩, hmem, rfl⟩ := List.mem_map.1 hv
  obtain ⟨hentry, hany⟩ := List.mem_filter.1 hmem
  obtain ⟨y, hy, hyx⟩ := (Option.any_eq_true _ _).1 hany
  have hx := VarMap.get?_eq_some_iff.2 hentry
  rw [SolverQuery.toIpq, h.lowerBounds, SolverQuery.get?_boundsOf hnd] at hx
  rw [SolverQuery.toIpq, h.upperBounds, SolverQuery.get?_boundsOf hnd] at hy
  obtain ⟨id, n, hid, hn, hlow⟩ := hx
  obtain ⟨j, m, hj, hm, hhigh⟩ := hy
  obtain rfl : id = j := Option.some.inj (hid.symm.trans hj)
  obtain rfl : n = m := Option.some.inj (hn.symm.trans hm)
  obtain ⟨hlt, rfl⟩ := List.getElem?_eq_some_iff.1 hid
  refine ⟨_, List.getElem_mem hlt, hnd.idxOf_getElem u hlt, n, hn, ?_⟩
  rw [Interval.fixedValue?, hlow, hhigh]
  simp [LawfulSigns.beq_symm x y, hyx]

/-- A network that is evaluated forwards, and lists its inputs first, has a record set. -/
theorem exists_exportOf [LawfulSigns α] (h : net.Feedforward a)
    (hfirst : net.inputs <+: net.nodes) :
    ∃ q e, net.toQuery = .ok q ∧ SolverQuery.ofQuery a q = .ok e ∧ e.toIpq.ExportOf net a := by
  obtain ⟨q, hq, hnodes, hinputs, houtputs, hforward, -⟩ := h.exists_toQuery
  obtain ⟨q', hq', -, -, -, hequations⟩ := Network.exists_toQuery h.wellFormed
  obtain rfl : q = q' := Except.ok.inj (hq.symm.trans hq')
  obtain ⟨e, he, htab⟩ := SolverQuery.exists_ofQuery hforward.integrity
  have hnd := h.wellFormed.nodup
  have htable : e.table = net.nodes := by
    obtain ⟨rest, hrest⟩ := hfirst
    rw [htab.table, hnodes, hinputs, ← hrest, eraseDups_append_self]
    exact hrest ▸ h.wellFormed.nodup
  -- A member with coinciding bounds is an input.
  have hfixed : ∀ id ∈ net.nodes, ∀ n, a.get? id = some n → n.bounds.fixedValue?.isSome →
      id ∈ net.inputs := fun id hid n hn hn' =>
    (h.isFree_iff id hid).1 ⟨n, hn, h.fixed_free id hid n hn hn'⟩
  have hsynthetic : syntheticInputs a q = [] := by
    rw [List.eq_nil_iff_forall_not_mem]
    intro id hid
    obtain ⟨hmem, hnot, n, hn, hn'⟩ := (mem_syntheticInputs_iff hforward.integrity).1 hid
    refine hnot id ?_ .refl
    rw [hinputs]
    exact hfixed id (hnodes ▸ hmem) n hn hn'
  have hin : e.toIpq.inputs = net.inputs.map (VariableTable.varOf net.nodes) := by
    rw [SolverQuery.toIpq, htab.inputVars, hsynthetic, hinputs, htable, List.map_nil,
      List.append_nil]
  have hlower := htab.lowerBounds
  have hupper := htab.upperBounds
  rw [htable] at hlower hupper
  refine ⟨q, e, hq, he, ?_, hin, ?_, ?_, ?_, ?_⟩
  · have hexports := exports_of_tabulates htab hforward.integrity hequations hforward.noAbs
    rwa [htable] at hexports
  · rw [SolverQuery.toIpq, htab.outputVars, houtputs, htable]
  · intro id hid n hn
    rw [SolverQuery.toIpq, hlower, SolverQuery.get?_boundsOf_varOf hnd hid hn]
  · intro id hid n hn
    rw [SolverQuery.toIpq, hupper, SolverQuery.get?_boundsOf_varOf hnd hid hn]
  · intro v hv
    obtain ⟨id, hid, rfl, n, hn, hn'⟩ := exists_of_mem_fixedVariables htab (htable ▸ hnd) hv
    rw [htable] at hid ⊢
    rw [hin]
    exact List.mem_map_of_mem (hfixed id hid n hn hn')

/-! ## Rebuilt copies -/

section

variable {start b : Arena α} {t : VariableTable} {vars : VarMap NodeId}

/-- With the bounds of the members, their nodes are the members over again. -/
theorem Placed.exists_limits (h : Placed a t start b vars t)
    (hbounds : ∀ id ∈ t, ∃ n, a.get? id = some n ∧ n.bounds.isEmpty = false ∧
      f.lowerBounds.get? (t.varOf id) = n.bounds.lower ∧
      f.upperBounds.get? (t.varOf id) = n.bounds.upper) :
    ∃ c, (limitAll f vars.entries).Yields b () c ∧ ∀ id ∈ t, a.Mirrors c (nodeOf t vars) id := by
  have hlimited : ∀ id ∈ t, ∃ n m, a.get? id = some n ∧ n.bounds.isEmpty = false ∧
      b.get? (nodeOf t vars id) = some m ∧ m.kind = n.kind.redirect (nodeOf t vars) ∧
      (f.limited (t.varOf id) m).bounds = n.bounds := by
    intro id hid
    obtain ⟨n, hn, hmeets, hlower, hupper⟩ := hbounds id hid
    obtain ⟨m, hm, hunbounded, hkind⟩ := h.node hid
    rw [Arena.kindAt, hn, Option.map_some, Option.getD_some] at hkind
    refine ⟨n, m, hn, hmeets, hm, hkind, ?_⟩
    rw [limited, hunbounded, hlower, hupper]
    rfl
  have hentries : ∀ e ∈ vars.entries, ∃ id ∈ t, e = (t.varOf id, nodeOf t vars id) := by
    rintro ⟨v, j⟩ he
    have hv := VarMap.get?_eq_some_iff.2 he
    obtain ⟨-, m, -, -, id, hid, rfl, -⟩ := h.names.node v j hv
    exact ⟨id, hid, by rw [nodeOf, hv, Option.getD_some]⟩
  obtain ⟨c, hc⟩ := exists_limitAll (f := f) h.names.nodup_nodes (by
    intro e he
    obtain ⟨id, hid, rfl⟩ := hentries e he
    obtain ⟨n, m, -, hmeets, hm, -, heq⟩ := hlimited id hid
    exact ⟨m, hm, heq ▸ hmeets⟩)
  refine ⟨c, hc, fun id hid => ?_⟩
  obtain ⟨n, m, hn, -, hm, hkind, heq⟩ := hlimited id hid
  obtain ⟨m', hm', hget⟩ := (limitAll_yields hc h.names.nodup_nodes).1
    (t.varOf id, nodeOf t vars id) (VarMap.get?_eq_some_iff.1 (h.get?_eq hid))
  obtain rfl : m = m' := Option.some.inj (hm.symm.trans hm')
  exact ⟨n, _, hn, hget, hkind, heq⟩

end

omit [Scalar α] in
/-- The declared outputs are those of the last pass. -/
theorem Placed.outputsAreLast {start b : Arena α} {t : VariableTable} {p : Passes}
    {outputs : List NodeId} (h : Placed a t start b p.variableNodes t) (hsub : outputs ⊆ t)
    (hnd : outputs.Nodup) (hout : f.outputs = outputs.map t.varOf)
    (hlast : p.last = outputs.map (nodeOf t p.variableNodes)) : f.outputsAreLast p = true := by
  have hfound : f.outputs.filterMap p.variableNodes.get? = p.last := by
    rw [hout, List.filterMap_map, hlast, ← List.filterMap_eq_map]
    exact List.filterMap_congr fun id hid => h.get?_eq (hsub hid)
  have hdistinct : p.last.Nodup := by
    rw [hlast]
    exact List.Nodup.map_on (fun i hi j hj => h.nodeOf_inj (hsub hi) (hsub hj)) hnd
  have hlength : p.last.length = f.outputs.length := by
    rw [hlast, hout, List.length_map, List.length_map]
  rw [IpqFile.outputsAreLast, hfound, eraseDups_eq_self hdistinct]
  simp [hlength]

/-- The record set of an alternating network is rebuilt as a copy of the network. -/
theorem exists_rebuild [LawfulSigns α] {ls : List Layer} (hf : f.ExportOf net a)
    (hnet : net.WellFormed a) (hlayers : net.layers = net.inputs.map ([·]) :: ls)
    (hfree : ∀ id ∈ net.inputs, a.kindAt id = .plain) (hls : Alternates a net.inputs ls)
    (hmeets : ∀ id ∈ net.nodes, ∀ n, a.get? id = some n → n.bounds.isEmpty = false)
    (s : Session α) :
    ∃ n s' g, f.rebuild true s = (.ok n, s') ∧ n.declaredInputs = net.inputs.length ∧
      net.Copy a g n.network s'.arena := by
  have hnodes : net.nodes = net.inputs ++ ls.flatten.flatten := by
    rw [Network.nodes, hlayers, List.flatten_cons, List.flatten_append, flatten_singletons]
  have hvars : f.inputs ++ f.fixedVariables.filter (fun v => !f.inputs.contains v) =
      net.inputs.map (VariableTable.varOf net.nodes) := by
    rw [List.filter_eq_nil_iff.2 fun v hv => by simpa using hf.fixed hv, List.append_nil, hf.inputs]
  have hdistinct : (net.inputs.map (VariableTable.varOf net.nodes)).Nodup :=
    nodup_map_varOf (nodup_inputs hnet) inputs_subset_nodes
  obtain ⟨ids, vars, b, hinputs, hdefs⟩ : ∃ ids vars b,
      (inputLayer s.names.ipq.1 0 (net.inputs.map (VariableTable.varOf net.nodes))
        OrderedMap.empty).Yields s.arena (ids, vars) b ∧ Definitions _ _ _ _ _ _ :=
    exists_inputLayer hdistinct (by simp)
  obtain ⟨hplaced, rfl⟩ := Placed.of_definitions hfree inputs_subset_nodes hdefs
  have hrounds : ls.length ≤ f.constraints.length + 1 := by
    rw [hf.exports.constraints, hnodes, List.filterMap_append, List.length_append]
    exact (hls.length_le _).trans (Nat.succ_le_succ (Nat.le_add_left _ _))
  obtain ⟨p, c, hpasses, hall, hwithin, hstages, hlast⟩ := exists_buildLayers hls hf.exports hnodes
    (List.Subset.refl _) hrounds hplaced s.names.ipq.1 1
  obtain ⟨d, hlimits, hmirrors⟩ := hall.exists_limits (f := f) (by
    intro id hid
    obtain ⟨n, hn⟩ := Arena.exists_get? (hnet.held id hid)
    exact ⟨n, hn, hmeets id hid n hn, hf.lowerBounds id hid n hn, hf.upperBounds id hid n hn⟩)
  have hkept : net.inputs.map (nodeOf net.nodes vars) =
      net.inputs.map (nodeOf net.nodes p.variableNodes) :=
    List.map_congr_left fun id hid => (hplaced.nodeOf_eq hid hwithin).symm
  have hredirect : net.redirect (nodeOf net.nodes p.variableNodes) =
      (net.inputs.map (nodeOf net.nodes vars)).map ([·]) ::
        ls.map (List.map (List.map (nodeOf net.nodes p.variableNodes))) := by
    rw [redirect, hlayers, hkept]
    simp
  have hpaired : pairLayers d (net.inputs.map (nodeOf net.nodes vars)) p =
      .ok (net.redirect (nodeOf net.nodes p.variableNodes)) := by
    refine pairLayers_eq_ok_iff.2 ⟨_, hredirect, ?_⟩
    exact List.forall₂_map_right_iff.2 (hstages d)
  have hcopy : net.Copy a (nodeOf net.nodes p.variableNodes)
      ⟨net.redirect (nodeOf net.nodes p.variableNodes)⟩ d :=
    ⟨rfl, fun i hi j hj => hall.nodeOf_inj hi hj, hmirrors⟩
  have houtputs : net.outputs = (ls.getLast?.getD []).filterMap List.getLast? := by
    rw [Network.outputs, hlayers, List.getLast?_cons_of_ne_nil hls.ne_nil]
  refine ⟨_, _, _, rebuild_eq_ok ?_ (hvars ▸ hinputs) hpasses ?_
    (hall.looseRelu?_eq_none hf.exports) (hall.looseEquation?_eq_none hf.exports) hlimits hpaired
    (new_eq_ok_iff.2 ⟨rfl, hcopy.wellFormed hnet⟩), ?_, hcopy⟩
  · intro r hr
    obtain ⟨id, -, i, -, rfl⟩ := hf.exports.of_mem_constraints hr
    exact ⟨_, _, rfl⟩
  · exact hall.outputsAreLast outputs_subset_nodes (nodup_outputs hnet) hf.outputs
      (houtputs ▸ hlast)
  · rw [hf.inputs, List.length_map]

end IpqFile

end PiecewiseNet
