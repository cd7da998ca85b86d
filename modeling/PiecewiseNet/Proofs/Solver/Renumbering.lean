import PiecewiseNet.Proofs.Evaluation.Acceptance
import PiecewiseNet.Proofs.Solver.Variables
import Mathlib.Data.Set.Function

/-!
# Two numberings of one query

For a solver the declared inputs of a query are numbered first, for evaluation its members are
numbered in their order. Renaming the variables turns one numbered form into the other, up to the
order of the relations.

## Main definitions

- `SolverQuery.Renames`: renaming the variables of a solver query gives a constraint system.

## Main statements

- `SolverQuery.positionIn_bijOn`: positions in two orders of the same nodes are in bijection.
- `SolverQuery.Tabulates.renames`: renaming turns one numbered form of a query into the other.
-/

namespace PiecewiseNet

section

variable {α : Type}

/-- The same comparison over renamed variables, as a constraint. -/
def IpqEquation.renamed (f : Nat → Nat) (r : IpqEquation α) : Constraint α :=
  { kind := r.comparator, scalar := r.scalar, terms := r.addends.map fun t => (f t.1, t.2) }

/-- The same pair over renamed variables, as a rectifier. -/
def PiecewisePair.renamed (f : Nat → Nat) (p : PiecewisePair) : Rectifier :=
  ⟨f p.b, f p.f⟩

/-- Where two lists number the same nodes and renaming turns what is made of a node under one number
into what is made of it under the other, renaming turns one list of results into the other. -/
theorem Arena.filterMap_numbered_perm {a : Arena α} {β γ : Type} {t ids : List NodeId}
    (ht : t.Nodup) (hids : ids.Nodup) (hperm : t.Perm ids) {make : Nat × Node α → Option β}
    {make' : Nat × Node α → Option γ} {rename : β → γ}
    (h : ∀ id ∈ ids, ∀ n, a.get? id = some n →
      (make (List.idxOf id t, n)).map rename = make' (List.idxOf id ids, n)) :
    (((a.numbered t).filterMap make).map rename).Perm ((a.numbered ids).filterMap make') := by
  rw [a.numbered_eq_filterMap ht, a.numbered_eq_filterMap hids, List.filterMap_filterMap,
    List.filterMap_filterMap, List.map_filterMap]
  have hsame : t.filterMap (fun id => Option.map rename
        (((a.get? id).map fun n => (List.idxOf id t, n)).bind make)) =
      t.filterMap fun id => ((a.get? id).map fun n => (List.idxOf id ids, n)).bind make' := by
    refine List.filterMap_congr ?_
    intro id hid
    cases hn : a.get? id with
    | none => rfl
    | some n => exact h id (hperm.mem_iff.1 hid) n hn
  rw [hsame]
  exact hperm.filterMap _

end

namespace SolverQuery

section

variable {α : Type} [Scalar α]

omit [Scalar α] in
/-- Renaming the variables of a solver query by `f` gives a constraint system, up to the order of
its relations. -/
structure Renames (e : SolverQuery α) (s : ConstraintSystem α) (f : Nat → Nat) : Prop where
  /-- A variable gets the number that its member has in the system. -/
  index : ∀ v < e.variableCount, (e.table.nodeOf? v).bind s.indexOf? = some (f v)
  /-- Every number of the system is that of one variable. -/
  bijOn : Set.BijOn f (Set.Iio e.variableCount) (Set.Iio s.size)
  lower : ∀ v l, e.lowerBounds.get? v = some l ↔
    v < e.variableCount ∧ s.bounds[f v]?.bind Interval.lower = some l
  upper : ∀ v u, e.upperBounds.get? v = some u ↔
    v < e.variableCount ∧ s.bounds[f v]?.bind Interval.upper = some u
  equations : (e.equations.map (IpqEquation.renamed f)).Perm s.constraints
  relus : (e.relus.map (PiecewisePair.renamed f)).Perm s.relus
  inputs : (e.inputVars.take e.realInputs).map f = s.inputs
  outputs : e.outputVars.map f = s.outputs

variable {a : Arena α} {q : Query α} {e : SolverQuery α} {s : ConstraintSystem α} {f : Nat → Nat}

omit [Scalar α] in
theorem indexOf?_eq {ids : List NodeId} {id : NodeId} (h : id ∈ ids) :
    List.idxOf? id ids = some (List.idxOf id ids) := by
  obtain ⟨i, hi⟩ := Option.isSome_iff_exists.1 (List.isSome_idxOf?.2 h)
  rw [hi, List.idxOf_eq_getD_idxOf?, hi, Option.getD_some]

/-- The position in `ids` of the node behind a variable. -/
def positionIn (ids : List NodeId) (t : VariableTable) (v : Nat) : Nat :=
  List.idxOf (t[v]?.getD 0) ids

omit [Scalar α] in
theorem positionIn_varOf {ids : List NodeId} {t : VariableTable} {id : NodeId} (h : id ∈ t) :
    positionIn ids t (t.varOf id) = List.idxOf id ids := by
  have hget : t[t.varOf id]? = some id := nodeOf?_varOf h
  rw [positionIn, hget, Option.getD_some]

omit [Scalar α] in
/-- Positions in another order of the same nodes are in bijection. -/
theorem positionIn_bijOn {ids : List NodeId} {t : VariableTable} (ht : t.Nodup) (hids : ids.Nodup)
    (hperm : t.Perm ids) :
    Set.BijOn (positionIn ids t) (Set.Iio t.length) (Set.Iio ids.length) := by
  have hat : ∀ v < t.length, ∃ id ∈ ids, t[v]? = some id ∧
      positionIn ids t v = List.idxOf id ids := by
    intro v hv
    refine ⟨t[v], hperm.mem_iff.1 (List.getElem_mem hv), List.getElem?_eq_getElem hv, ?_⟩
    rw [positionIn, List.getElem?_eq_getElem hv, Option.getD_some]
  refine ⟨?_, ?_, ?_⟩
  · intro v hv
    obtain ⟨id, hid, -, heq⟩ := hat v hv
    rw [Set.mem_Iio, heq]
    exact List.idxOf_lt_length_of_mem hid
  · intro v hv w hw hvw
    obtain ⟨id, hid, hget, heq⟩ := hat v hv
    obtain ⟨id', -, hget', heq'⟩ := hat w hw
    have hsame : id = id' := (List.idxOf_inj hid).1 (heq.symm.trans (hvw.trans heq'))
    have hv' := ConstraintSystem.idxOf_eq ht hget
    have hw' := ConstraintSystem.idxOf_eq ht hget'
    rw [← hv', ← hw', hsame]
  · intro i hi
    have hmem : ids.get ⟨i, hi⟩ ∈ t := hperm.mem_iff.2 (List.get_mem ids ⟨i, hi⟩)
    refine ⟨t.varOf (ids.get ⟨i, hi⟩), List.idxOf_lt_length_of_mem hmem, ?_⟩
    rw [positionIn_varOf hmem]
    exact hids.idxOf_getElem i hi

/-! ## The two numbered forms of a query -/

/-- The lists of relations and the outputs of the numbered form for evaluation. -/
theorem lists_of_ofQuery (h : ConstraintSystem.ofQuery a q = .ok s) :
    s.constraints = (a.numbered q.nodes).filterMap
        (fun p => ConstraintSystem.definitionOf q.nodes p.1 p.2) ++
      q.equations.map (ConstraintSystem.equationOf q.nodes) ∧
    s.relus = (a.numbered q.nodes).filterMap
      (fun p => ConstraintSystem.rectifierOf q.nodes p.1 p.2) ∧
    s.outputs = q.outputs.map fun id => List.idxOf id q.nodes := by
  unfold ConstraintSystem.ofQuery at h
  split at h
  · cases h
  · simp only at h
    split at h
    · cases h
    · cases h
      exact ⟨rfl, rfl, rfl⟩

omit [Scalar α] in
/-- A sum over the variables of members is renamed to the sum over their numbers in the system. -/
theorem map_positionIn_varOf {ids : List NodeId} {t : VariableTable} {ts : Terms α}
    (h : ts.nodes ⊆ t) : (ts.map fun p => (t.varOf p.2, p.1)).map
        (fun r => (positionIn ids t r.1, r.2)) = ts.map fun p => (List.idxOf p.2 ids, p.1) := by
  rw [List.map_map]
  refine List.map_congr_left ?_
  intro p hp
  have hmem : p.2 ∈ t := h (List.mem_map_of_mem hp)
  rw [Function.comp_apply, positionIn_varOf hmem]

namespace Tabulates

variable (h : e.Tabulates a q)

include h

/-- The definition of a member is renamed to its definition in the system. -/
theorem definitionOf_renamed {id : NodeId} {n : Node α} (hid : id ∈ q.nodes)
    (hrefs : n.references ⊆ q.nodes) :
    (definitionOf e.table (e.table.varOf id) n).map
        (IpqEquation.renamed (positionIn q.nodes e.table)) =
      ConstraintSystem.definitionOf q.nodes (List.idxOf id q.nodes) n := by
  have hmem : id ∈ e.table := h.mem_table_iff.2 hid
  cases hk : n.kind with
  | affine terms bias =>
    have hterms : terms.nodes ⊆ e.table := by
      intro r hr
      refine h.mem_table_iff.2 (hrefs ?_)
      simpa [Node.references, hk, NodeKind.references] using hr
    simp only [definitionOf, ConstraintSystem.definitionOf, hk, Option.map_some,
      IpqEquation.renamed, List.map_append, map_positionIn_varOf hterms, List.map_cons,
      List.map_nil, positionIn_varOf hmem]
  | _ => simp [definitionOf, ConstraintSystem.definitionOf, hk]

theorem reluOf_renamed {id : NodeId} {n : Node α} (hid : id ∈ q.nodes)
    (hrefs : n.references ⊆ q.nodes) :
    (reluOf e.table (e.table.varOf id) n).map
        (PiecewisePair.renamed (positionIn q.nodes e.table)) =
      ConstraintSystem.rectifierOf q.nodes (List.idxOf id q.nodes) n := by
  have hmem : id ∈ e.table := h.mem_table_iff.2 hid
  cases hk : n.kind with
  | relu input relaxed =>
    have hinput : input ∈ e.table := by
      refine h.mem_table_iff.2 (hrefs ?_)
      simp [Node.references, hk, NodeKind.references]
    simp only [reluOf, ConstraintSystem.rectifierOf, hk, Option.map_some, PiecewisePair.renamed,
      positionIn_varOf hinput, positionIn_varOf hmem]
  | _ => simp [reluOf, ConstraintSystem.rectifierOf, hk]

theorem map_equationOf_renamed : (q.equations.map (equationOf e.table)).map
      (IpqEquation.renamed (positionIn q.nodes e.table)) =
    q.equations.map (ConstraintSystem.equationOf q.nodes) := by
  rw [List.map_map]
  refine List.map_congr_left ?_
  intro eq heq
  have hterms : eq.terms.nodes ⊆ e.table := fun r hr =>
    h.mem_table_iff.2 (q.terms_subset eq heq hr)
  simp only [Function.comp_apply, equationOf, IpqEquation.renamed,
    ConstraintSystem.equationOf, map_positionIn_varOf hterms]

theorem map_varOf_renamed {ids : List NodeId} (hsub : ids ⊆ q.nodes) :
    (ids.map e.table.varOf).map (positionIn q.nodes e.table) =
      ids.map fun id => List.idxOf id q.nodes := by
  rw [List.map_map]
  refine List.map_congr_left ?_
  intro id hid
  rw [Function.comp_apply, positionIn_varOf (h.mem_table_iff.2 (hsub hid))]

/-- A variable is bounded as its number is. -/
theorem get?_bounds_iff (hs : s.Numbers a q) {side : Interval α → Option α} {v : Nat} {x : α} :
    (boundsOf side (a.numbered e.table)).get? v = some x ↔
      v < e.variableCount ∧ s.bounds[positionIn q.nodes e.table v]?.bind side = some x := by
  rw [get?_boundsOf h.table_nodup]
  have hat : ∀ id, e.table.nodeOf? v = some id →
      s.bounds[positionIn q.nodes e.table v]? = (a.get? id).map Node.bounds := by
    intro id hid
    have hmem : id ∈ q.nodes := h.mem_table_iff.1 (List.mem_of_getElem? hid)
    have hv : e.table.varOf id = v := ConstraintSystem.idxOf_eq h.table_nodup hid
    rw [hs.bounds, ← hv, positionIn_varOf (List.mem_of_getElem? hid),
      ConstraintSystem.getElem?_idxOf hmem, Option.bind_some]
  constructor
  · rintro ⟨id, n, hid, hn, hx⟩
    refine ⟨(List.getElem?_eq_some_iff.1 hid).1, ?_⟩
    rw [hat id hid, hn, Option.map_some, Option.bind_some, hx]
  · rintro ⟨hv, hx⟩
    obtain ⟨id, hid, hnode, -⟩ := h.exists_nodeOf? hv
    obtain ⟨n, hn, -⟩ := hs.members id hid
    rw [hat id hnode, hn, Option.map_some, Option.bind_some] at hx
    exact ⟨id, n, hnode, hn, hx⟩

/-- Renaming the variables turns the form for a solver into the form for evaluation. -/
theorem renames (hs : ConstraintSystem.ofQuery a q = .ok s) :
    e.Renames s (positionIn q.nodes e.table) := by
  have hnumbers := ConstraintSystem.ofQuery_eq_ok hs
  obtain ⟨hconstraints, hrelus, houtputs⟩ := lists_of_ofQuery hs
  have hrefs : ∀ id ∈ q.nodes, ∀ n, a.get? id = some n → n.references ⊆ q.nodes := by
    intro id hid n hn
    obtain ⟨m, hm, hsub, -⟩ := hnumbers.members id hid
    obtain rfl : n = m := by simpa [hn] using hm
    exact hsub
  refine ⟨?_, ?_, ?_, ?_, ?_, ?_, ?_, ?_⟩
  · intro v hv
    obtain ⟨id, hid, hnode, hvar⟩ := h.exists_nodeOf? hv
    rw [hnode, Option.bind_some, ← hvar, positionIn_varOf (h.mem_table_iff.2 hid),
      ConstraintSystem.indexOf?, hnumbers.ids]
    exact indexOf?_eq hid
  · rw [variableCount, ConstraintSystem.size, hnumbers.ids]
    exact positionIn_bijOn h.table_nodup q.nodes_nodup h.table_perm
  · intro v l
    rw [h.lowerBounds]
    exact h.get?_bounds_iff hnumbers
  · intro v u
    rw [h.upperBounds]
    exact h.get?_bounds_iff hnumbers
  · rw [h.equations, hconstraints, List.map_append]
    refine List.Perm.append ?_ (.of_eq h.map_equationOf_renamed)
    refine Arena.filterMap_numbered_perm h.table_nodup q.nodes_nodup h.table_perm ?_
    intro id hid n hn
    exact h.definitionOf_renamed hid (hrefs id hid n hn)
  · rw [h.relus, hrelus]
    refine Arena.filterMap_numbered_perm h.table_nodup q.nodes_nodup h.table_perm ?_
    intro id hid n hn
    exact h.reluOf_renamed hid (hrefs id hid n hn)
  · have htake : e.inputVars.take e.realInputs = q.inputs.map e.table.varOf := by
      rw [h.inputVars, h.realInputs]
      exact List.take_left' (List.length_map _)
    rw [htake, hnumbers.inputs]
    exact h.map_varOf_renamed q.inputs_subset
  · rw [h.outputVars, houtputs]
    exact h.map_varOf_renamed q.outputs_subset

end Tabulates

end

end SolverQuery

end PiecewiseNet
