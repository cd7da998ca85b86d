import PiecewiseNet.Proofs.Evaluation.Numbering
import PiecewiseNet.Proofs.Maps
import PiecewiseNet.Solver.Query

/-!
# Variables of solver queries

The table of a solver query lists every member of the query once, the declared inputs first. What a
solver query says about a variable is what the query says about the member behind it.

## Main definitions

- `SolverQuery.Tabulates`: what the parts of the numbered form are.
- `SolverQuery.Satisfied`: values satisfy every bound, every equation and every rectifier.

## Main statements

- `Arena.numbered_eq_filterMap`: numbering nodes by their position.
- `SolverQuery.exists_ofQuery`: a query whose members are in order has a numbered form.
- `SolverQuery.Tabulates.table_perm`: the table is the list of members in another order.
- `SolverQuery.Tabulates.inRange`: the relations are about variables of the query.
- `SolverQuery.get?_boundsOf`: the end that a variable is bounded by.
-/

namespace PiecewiseNet

section

variable {α : Type}

/-- Where no node is listed twice, the number of a node is its position. -/
theorem Arena.numbered_eq_filterMap (a : Arena α) {ids : List NodeId} (hnd : ids.Nodup) :
    a.numbered ids = ids.filterMap fun id => (a.get? id).map fun n => (List.idxOf id ids, n) := by
  have hzip : ids.zipIdx = ids.map fun id => (id, List.idxOf id ids) := by
    refine List.ext_getElem (by simp) ?_
    intro i hi hi'
    have hlt : i < ids.length := by simpa using hi
    simp [hnd.idxOf_getElem i hlt]
  rw [numbered, hzip, List.filterMap_map]
  rfl

end

namespace SolverQuery

section

variable {α : Type} [Scalar α]

/-- The values satisfy every bound, every equation and every rectifier. -/
structure Satisfied (e : SolverQuery α) (value : Nat → α) : Prop where
  lower : ∀ b ∈ e.lowerBounds.entries, b.2 ≤ value b.1
  upper : ∀ b ∈ e.upperBounds.entries, value b.1 ≤ b.2
  equations : ∀ r ∈ e.equations, r.Holds value
  relus : ∀ p ∈ e.relus, value p.f = Scalar.positivePart (value p.b)

omit [Scalar α] in
/-- The equations and the pairs of rectifiers are about variables of the query. -/
structure InRange (e : SolverQuery α) : Prop where
  equations : ∀ r ∈ e.equations, ∀ t ∈ r.addends, t.1 < e.variableCount
  relus : ∀ p ∈ e.relus, p.b < e.variableCount ∧ p.f < e.variableCount

/-- What the parts of the numbered form of a query are. -/
structure Tabulates (e : SolverQuery α) (a : Arena α) (q : Query α) : Prop where
  table : e.table = (q.inputs ++ q.nodes).eraseDups
  lowerBounds : e.lowerBounds = boundsOf Interval.lower (a.numbered e.table)
  upperBounds : e.upperBounds = boundsOf Interval.upper (a.numbered e.table)
  equations : e.equations =
    (a.numbered e.table).filterMap (fun p => definitionOf e.table p.1 p.2) ++
      q.equations.map (equationOf e.table)
  relus : e.relus = (a.numbered e.table).filterMap fun p => reluOf e.table p.1 p.2
  relaxedRelus : e.relaxedRelus =
    (a.numbered e.table).filterMap fun p => relaxedReluOf e.table p.1 p.2
  abs : e.abs = (a.numbered e.table).filterMap fun p => absOf e.table p.1 p.2
  inputVars : e.inputVars =
    q.inputs.map e.table.varOf ++ (syntheticInputs a q).map e.table.varOf
  realInputs : e.realInputs = q.inputs.length
  outputVars : e.outputVars = q.outputs.map e.table.varOf

variable {a : Arena α} {q : Query α} {e : SolverQuery α}

/-- A query whose members are in order has a numbered form. -/
theorem exists_ofQuery (hcheck : q.checkIntegrity a = .ok ()) :
    ∃ e, ofQuery a q = .ok e ∧ e.Tabulates a q := by
  unfold ofQuery
  rw [hcheck]
  exact ⟨_, rfl, rfl, rfl, rfl, rfl, rfl, rfl, rfl, rfl, rfl, rfl⟩

theorem checkIntegrity_of_ofQuery (h : ofQuery a q = .ok e) : q.checkIntegrity a = .ok () := by
  unfold ofQuery at h
  split at h
  · cases h
  · assumption

/-- A definition is about the variable of the node and about those of the nodes that it reads. -/
theorem of_mem_addends_definitionOf {t : VariableTable} {v : Nat} {n : Node α} {r : IpqEquation α}
    (h : definitionOf t v n = some r) {p : Nat × α} (hp : p ∈ r.addends) :
    p.1 = v ∨ ∃ id ∈ n.references, p.1 = t.varOf id := by
  unfold definitionOf at h
  split at h
  · rename_i terms bias hk
    have hkind : n.kind = .affine terms bias := hk
    cases h
    rcases List.mem_append.1 hp with hp | hp
    · obtain ⟨term, hterm, rfl⟩ := List.mem_map.1 hp
      refine .inr ⟨term.2, ?_, rfl⟩
      simpa [Node.references, hkind, NodeKind.references, Terms.nodes] using ⟨term.1, hterm⟩
    · rw [List.mem_singleton.1 hp]
      exact .inl rfl
  · cases h

omit [Scalar α] in
/-- The pair of a rectifier is about its variable and about that of the node that it reads. -/
theorem of_reluOf_eq_some {t : VariableTable} {v : Nat} {n : Node α} {p : PiecewisePair}
    (h : reluOf t v n = some p) : p.f = v ∧ ∃ id ∈ n.references, p.b = t.varOf id := by
  unfold reluOf at h
  split at h
  · rename_i input relaxed hk
    have hkind : n.kind = .relu input relaxed := hk
    cases h
    exact ⟨rfl, input, by simp [Node.references, hkind, NodeKind.references], rfl⟩
  · cases h

theorem nodeOf?_varOf {t : VariableTable} {id : NodeId} (h : id ∈ t) :
    t.nodeOf? (t.varOf id) = some id :=
  ConstraintSystem.getElem?_idxOf h

namespace Tabulates

variable (h : e.Tabulates a q)

include h

theorem table_nodup : e.table.Nodup := by
  rw [h.table]
  exact nodup_eraseDups _

theorem mem_table_iff {id : NodeId} : id ∈ e.table ↔ id ∈ q.nodes := by
  rw [h.table, List.mem_eraseDups, List.mem_append]
  constructor
  · rintro (hid | hid)
    · exact q.inputs_subset hid
    · exact hid
  · exact .inr

/-- The table lists the members, possibly in another order. -/
theorem table_perm : e.table.Perm q.nodes :=
  (List.perm_ext_iff_of_nodup h.table_nodup q.nodes_nodup).2 fun _ => h.mem_table_iff

/-- Every variable stands for a member. -/
theorem exists_nodeOf? {v : Nat} (hv : v < e.variableCount) :
    ∃ id ∈ q.nodes, e.table.nodeOf? v = some id ∧ e.table.varOf id = v := by
  have hid : e.table[v] ∈ e.table := List.getElem_mem hv
  exact ⟨e.table[v], h.mem_table_iff.1 hid, List.getElem?_eq_getElem hv,
    h.table_nodup.idxOf_getElem v hv⟩

theorem varOf_lt {id : NodeId} (hid : id ∈ q.nodes) : e.table.varOf id < e.variableCount :=
  List.idxOf_lt_length_of_mem (h.mem_table_iff.2 hid)

theorem mem_of_mem_numbered {v : Nat} {n : Node α} (hmem : (v, n) ∈ a.numbered e.table) :
    v < e.variableCount ∧ ∃ id ∈ q.nodes, a.get? id = some n := by
  obtain ⟨id, hid, hn⟩ := Arena.mem_numbered.1 hmem
  exact ⟨(List.getElem?_eq_some_iff.1 hid).1, id, h.mem_table_iff.1 (List.mem_of_getElem? hid), hn⟩

/-- Where members read members only, the relations are about variables of the query. -/
theorem inRange (hcheck : q.checkIntegrity a = .ok ()) : e.InRange := by
  rw [Query.checkIntegrity_eq_ok_iff] at hcheck
  have hread : ∀ v n, (v, n) ∈ a.numbered e.table →
      v < e.variableCount ∧ ∀ r ∈ n.references, e.table.varOf r < e.variableCount := by
    intro v n hmem
    obtain ⟨hv, id, hid, hn⟩ := h.mem_of_mem_numbered hmem
    obtain ⟨m, hm, hrefs⟩ := hcheck id hid
    obtain rfl : n = m := by simpa [hn] using hm
    exact ⟨hv, fun r hr => h.varOf_lt (hrefs hr)⟩
  refine ⟨?_, ?_⟩
  · intro r hr t ht
    rw [h.equations, List.mem_append] at hr
    rcases hr with hr | hr
    · obtain ⟨⟨v, n⟩, hmem, hdef⟩ := List.mem_filterMap.1 hr
      obtain ⟨hv, hrefs⟩ := hread v n hmem
      rcases of_mem_addends_definitionOf hdef ht with ht | ⟨id, hid, ht⟩
      · rw [ht]
        exact hv
      · rw [ht]
        exact hrefs id hid
    · obtain ⟨eq, heq, rfl⟩ := List.mem_map.1 hr
      obtain ⟨p, hp, rfl⟩ := List.mem_map.1 ht
      refine h.varOf_lt (q.terms_subset eq heq ?_)
      simpa [Equation.nodes, Terms.nodes] using ⟨p.1, hp⟩
  · intro p hp
    rw [h.relus] at hp
    obtain ⟨⟨v, n⟩, hmem, hpair⟩ := List.mem_filterMap.1 hp
    obtain ⟨hv, hrefs⟩ := hread v n hmem
    obtain ⟨hf, id, hid, hb⟩ := of_reluOf_eq_some hpair
    exact ⟨hb ▸ hrefs id hid, hf ▸ hv⟩

end Tabulates

omit [Scalar α] in
/-- A variable is bounded by the end that the node with its number has. -/
theorem get?_boundsOf {side : Interval α → Option α} {t : VariableTable} (hnd : t.Nodup) {v : Nat}
    {x : α} : (boundsOf side (a.numbered t)).get? v = some x ↔
      ∃ id n, t.nodeOf? v = some id ∧ a.get? id = some n ∧ side n.bounds = some x := by
  have hkeys : (((a.numbered t).filterMap fun p =>
      (side p.2.bounds).map fun y => (p.1, y)).map Prod.fst).Nodup := by
    rw [Arena.numbered_eq_filterMap a hnd, List.nodup_iff_pairwise_ne, List.pairwise_map,
      List.pairwise_filterMap, List.pairwise_filterMap]
    refine List.Pairwise.imp_of_mem ?_ (List.nodup_iff_pairwise_ne.1 hnd)
    intro i j hi hj hne p hp p' hp' r hr r' hr'
    obtain ⟨n, -, rfl⟩ := Option.map_eq_some_iff.1 hp
    obtain ⟨n', -, rfl⟩ := Option.map_eq_some_iff.1 hp'
    obtain ⟨y, -, rfl⟩ := Option.map_eq_some_iff.1 hr
    obtain ⟨y', -, rfl⟩ := Option.map_eq_some_iff.1 hr'
    intro hsame
    exact hne ((List.idxOf_inj hi).1 hsame)
  rw [boundsOf, OrderedMap.get?_ofList_eq_some_iff hkeys, List.mem_filterMap]
  constructor
  · rintro ⟨⟨w, n⟩, hmem, hside⟩
    obtain ⟨y, hy, heq⟩ := Option.map_eq_some_iff.1 hside
    cases heq
    obtain ⟨id, hid, hn⟩ := Arena.mem_numbered.1 hmem
    exact ⟨id, n, hid, hn, hy⟩
  · rintro ⟨id, n, hid, hn, hx⟩
    exact ⟨(v, n), Arena.mem_numbered.2 ⟨id, hid, hn⟩, by simp [hx]⟩

omit [Scalar α] in
/-- The variable of a member is bounded by the ends that the member has. -/
theorem get?_boundsOf_varOf {side : Interval α → Option α} {t : VariableTable} (hnd : t.Nodup)
    {id : NodeId} {n : Node α} (hid : id ∈ t) (hn : a.get? id = some n) :
    (boundsOf side (a.numbered t)).get? (t.varOf id) = side n.bounds := by
  refine Option.ext fun x => (get?_boundsOf hnd).trans ⟨?_, ?_⟩
  · rintro ⟨j, m, hj, hm, hx⟩
    rw [nodeOf?_varOf hid] at hj
    cases hj
    cases hn.symm.trans hm
    exact hx
  · exact fun hx => ⟨id, n, nodeOf?_varOf hid, hn, hx⟩

end

end SolverQuery

end PiecewiseNet
