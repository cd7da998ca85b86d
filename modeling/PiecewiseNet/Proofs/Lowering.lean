import PiecewiseNet.Proofs.Evaluation.Copies
import PiecewiseNet.Proofs.Ipq.Exporting

/-!
# Lowering queries

A lowering replaces the nodes that a query names by their numbers and reads the members in the
arena. What a query keeps over all the calls that build it makes every such look-up succeed: a
lowering fails only when the arena does not fit the query, or when it meets an absolute value that
it cannot use.

## Main definitions

- `Query.afterAdd`, `Query.afterAdds`: the query that calls to add equations leave behind, of which
  some may be refused.
- `Query.Collects`: what a query holds after it was built and asked to take equations.
- `Query.Dangles`: a member is not in the arena or reads a node that is no member.
- `Query.LooksUp`: the nodes that a lowering looks up.
- `Query.Lowers`: what the two lowerings of a query return.

## Main statements

- `Query.Collects.afterAdd`: what one call to add an equation keeps.
- `Query.lowers`: what the lowerings of any query return.
- `Query.collects_and_lowers`: both, for every query that can be built.
-/

namespace PiecewiseNet

variable {α : Type}

/-! ## Building queries -/

/-- Of two nodes that are kept, the one that came first still comes first. -/
theorem idxOf_lt_of_idxOf_filter_lt {p : NodeId → Bool} {ids : List NodeId} {i j : NodeId}
    (hi : p i) (hj : p j) (h : List.idxOf i (ids.filter p) < List.idxOf j (ids.filter p)) :
    List.idxOf i ids < List.idxOf j ids := by
  induction ids with
  | nil => simp at h
  | cons id ids ih =>
    by_cases hid : p id
    · rw [List.filter_cons_of_pos hid, List.idxOf_cons, List.idxOf_cons] at h
      rw [List.idxOf_cons, List.idxOf_cons]
      cases hj' : id == j with
      | true => simp [hj'] at h
      | false =>
        cases hi' : id == i with
        | true => simp
        | false =>
          simp only [hi', hj', cond_false] at h ⊢
          exact Nat.succ_lt_succ (ih (Nat.lt_of_succ_lt_succ h))
    · have hne : ∀ k, p k → id ≠ k := by
        rintro k hk rfl
        exact hid hk
      rw [List.filter_cons_of_neg hid] at h
      rw [List.idxOf_cons, List.idxOf_cons, beq_false_of_ne (hne i hi), beq_false_of_ne (hne j hj)]
      exact Nat.succ_lt_succ (ih h)

/-- Nodes that are kept once stand in the order of their first occurrences. -/
theorem pairwise_idxOf_eraseDups (ids : List NodeId) :
    ids.eraseDups.Pairwise fun i j => List.idxOf i ids < List.idxOf j ids := by
  induction ids using eraseDups_induction with
  | nil => simp
  | cons id ids ih =>
    have hlater : ∀ j ∈ (ids.filter fun j => !j == id).eraseDups, j ∈ ids ∧ j ≠ id := by
      intro j hj
      simpa using List.mem_eraseDups.1 hj
    rw [List.eraseDups_cons, List.pairwise_cons]
    constructor
    · intro j hj
      simp [List.idxOf_cons, beq_false_of_ne (hlater j hj).2.symm]
    · refine List.Pairwise.imp_of_mem ?_ ih
      intro i j hi hj hlt
      obtain ⟨-, hi⟩ := hlater i hi
      obtain ⟨-, hj⟩ := hlater j hj
      rw [List.idxOf_cons, List.idxOf_cons, beq_false_of_ne hi.symm, beq_false_of_ne hj.symm]
      exact Nat.succ_lt_succ (idxOf_lt_of_idxOf_filter_lt (by simp [hi]) (by simp [hj]) hlt)

namespace Query

/-- The query that a call to add an equation leaves behind, whether the equation is accepted or
refused. -/
def afterAdd (q : Query α) (e : Equation α) : Query α :=
  ((addEquation e).run q).2

/-- The query that calls to add equations, one after the other, leave behind. -/
def afterAdds (q : Query α) (es : List (Equation α)) : Query α :=
  es.foldl afterAdd q

theorem afterAdds_concat (q : Query α) (es : List (Equation α)) (e : Equation α) :
    q.afterAdds (es ++ [e]) = (q.afterAdds es).afterAdd e :=
  List.foldl_concat afterAdd q e es

/-- What a query holds that was built over given nodes and then asked to take equations: the nodes,
each at its first occurrence, the inputs and outputs, and exactly the equations over these nodes. -/
structure Collects (q : Query α) (given inputs outputs : List NodeId)
    (tried : List (Equation α)) : Prop where
  nodup : q.nodes.Nodup
  mem_nodes : ∀ id, id ∈ q.nodes ↔ id ∈ given
  /-- The members stand in the order of their first occurrences. -/
  ordered : q.nodes.Pairwise fun i j => List.idxOf i given < List.idxOf j given
  inputs_eq : q.inputs = inputs
  outputs_eq : q.outputs = outputs
  equations_eq : q.equations = tried.filter fun e => decide (e.nodes ⊆ given)
  inputs_subset : inputs ⊆ q.nodes
  outputs_subset : outputs ⊆ q.nodes
  terms_subset : ∀ e ∈ q.equations, e.nodes ⊆ q.nodes

section Building

variable {q : Query α} {given inputs outputs : List NodeId} {tried : List (Equation α)}

/-- A query that was built took all its equations. -/
theorem collects_of_new (h : Query.new given inputs outputs tried = .ok q) :
    q.Collects given inputs outputs tried := by
  obtain ⟨hn, hi, ho, he⟩ := new_eq_ok h
  have hmem : ∀ id, id ∈ q.nodes ↔ id ∈ given := by
    intro id
    rw [hn, List.mem_eraseDups]
  refine ⟨q.nodes_nodup, hmem, ?_, hi, ho, ?_, hi ▸ q.inputs_subset, ho ▸ q.outputs_subset,
    q.terms_subset⟩
  · rw [hn]
    exact pairwise_idxOf_eraseDups given
  · rw [he, eq_comm, List.filter_eq_self]
    intro e hmem_e
    refine decide_eq_true fun id hid => (hmem id).1 ?_
    exact q.terms_subset e (he ▸ hmem_e) hid

/-- What is about members is about the nodes that were given. -/
theorem Collects.subset_iff (h : q.Collects given inputs outputs tried) {ids : List NodeId} :
    ids ⊆ q.nodes ↔ ids ⊆ given := by
  simp only [List.subset_def, h.mem_nodes]

/-- A call to add an equation keeps what the query holds, and adds the equation exactly when it is
about members. -/
theorem Collects.afterAdd (h : q.Collects given inputs outputs tried) (e : Equation α) :
    (q.afterAdd e).Collects given inputs outputs (tried ++ [e]) := by
  by_cases hsub : e.nodes ⊆ q.nodes
  · have hadded : (tried ++ [e]).filter (fun e => decide (e.nodes ⊆ given)) =
        (tried.filter fun e => decide (e.nodes ⊆ given)) ++ [e] := by
      rw [List.filter_append, List.filter_cons_of_pos (by simpa using h.subset_iff.1 hsub),
        List.filter_nil]
    rw [Query.afterAdd, run_addEquation_of_subset hsub]
    refine { h with equations_eq := ?_, terms_subset := (q.withEquation e hsub).terms_subset }
    show q.equations ++ [e] = _
    rw [h.equations_eq, hadded]
  · have hdropped : (tried ++ [e]).filter (fun e => decide (e.nodes ⊆ given)) =
        tried.filter fun e => decide (e.nodes ⊆ given) := by
      rw [List.filter_append, List.filter_cons_of_neg (by simpa using mt h.subset_iff.2 hsub),
        List.filter_nil, List.append_nil]
    obtain ⟨err, -, hrun⟩ := run_addEquation_of_not_subset hsub
    rw [Query.afterAdd, hrun]
    exact { h with equations_eq := h.equations_eq.trans hdropped.symm }

/-- Calls to add equations keep what the query holds, and add the equations about members. -/
theorem Collects.afterAdds (h : q.Collects given inputs outputs tried) (es : List (Equation α)) :
    (q.afterAdds es).Collects given inputs outputs (tried ++ es) := by
  induction es generalizing q tried with
  | nil =>
    rw [List.append_nil]
    exact h
  | cons e es ih =>
    have hrun := ih (h.afterAdd e)
    rw [List.append_assoc, List.singleton_append] at hrun
    exact hrun

end Building

end Query

/-! ## The indices of the tables -/

/-- Nodes of the arena are all numbered. -/
theorem Arena.length_numbered {a : Arena α} {ids : List NodeId}
    (h : ∀ id ∈ ids, (a.get? id).isSome) : (a.numbered ids).length = ids.length := by
  rw [numbered, ← List.length_zipIdx (l := ids) (i := 0), List.filterMap_length_eq_length]
  intro p hp
  rw [Option.isSome_map]
  exact h p.1 (List.fst_mem_of_mem_zipIdx hp)

namespace SolverQuery

/-- All indices in the tables of a numbered query. -/
def indices (e : SolverQuery α) : List Nat :=
  e.toIpq.mentioned ++ e.relaxedRelus.flatMap fun p => [p.f, p.b]

variable [Scalar α] {a : Arena α} {q : Query α} {e : SolverQuery α}

omit [Scalar α] in
/-- A pair that is marked for a relaxation is the pair of a rectifier. -/
theorem reluOf_of_relaxedReluOf {t : VariableTable} {v : Nat} {n : Node α} {p : PiecewisePair}
    (h : relaxedReluOf t v n = some p) : reluOf t v n = some p := by
  unfold relaxedReluOf at h
  split at h
  · rename_i input hk
    simpa [reluOf, hk] using h
  · cases h

theorem lt_of_mem_indices (h : e.Tabulates a q) (hcheck : q.checkIntegrity a = .ok ()) :
    ∀ v ∈ e.indices, v < e.variableCount := by
  rw [indices, List.forall_mem_append]
  refine ⟨lt_of_mem_mentioned h hcheck, ?_⟩
  -- The pairs marked for a relaxation are not written to a file, but they are among all pairs.
  intro v hv
  obtain ⟨p, hp, hv⟩ := List.mem_flatMap.1 hv
  rw [h.relaxedRelus] at hp
  obtain ⟨⟨w, n⟩, hmem, hpair⟩ := List.mem_filterMap.1 hp
  have hrelu : p ∈ e.relus := by
    rw [h.relus]
    exact List.mem_filterMap.2 ⟨(w, n), hmem, reluOf_of_relaxedReluOf hpair⟩
  obtain ⟨hb, hf⟩ := (h.inRange hcheck).relus p hrelu
  rcases List.mem_pair.1 hv with rfl | rfl
  · exact hf
  · exact hb

end SolverQuery

namespace ConstraintSystem

/-- All indices in the tables of a constraint system. -/
def indices (s : ConstraintSystem α) : List Nat :=
  s.inputs ++ s.outputs ++ s.constraints.flatMap (fun c => c.terms.map Prod.fst) ++
    s.relus.flatMap fun r => [r.input, r.output]

variable [Scalar α] {a : Arena α} {q : Query α} {s : ConstraintSystem α}

theorem lt_of_mem_indices (h : ofQuery a q = .ok s) : ∀ i ∈ s.indices, i < s.size := by
  have hnumbers := ofQuery_eq_ok h
  obtain ⟨hids, -, houtputs, -⟩ := tables_of_ofQuery h
  have hlt : ∀ id ∈ q.nodes, List.idxOf id q.nodes < s.size := by
    intro id hid
    rw [size, hids]
    exact List.idxOf_lt_length_of_mem hid
  simp only [indices, List.forall_mem_append]
  refine ⟨⟨⟨hnumbers.inRange.inputs, ?_⟩, ?_⟩, ?_⟩
  · rw [houtputs, List.forall_mem_map]
    exact fun id hid => hlt id (q.outputs_subset hid)
  · intro i hi
    obtain ⟨c, hc, hi⟩ := List.mem_flatMap.1 hi
    obtain ⟨t, ht, rfl⟩ := List.mem_map.1 hi
    exact hnumbers.inRange.constraints c hc t ht
  · intro i hi
    obtain ⟨r, hr, hi⟩ := List.mem_flatMap.1 hi
    obtain ⟨j, id, n, hid, hn, hrec⟩ := (hnumbers.relus r).1 hr
    obtain ⟨m, hm, hrefs, -⟩ := hnumbers.members id (List.mem_of_getElem? hid)
    cases hn.symm.trans hm
    rcases List.mem_pair.1 hi with rfl | rfl
    · unfold rectifierOf at hrec
      split at hrec
      · rename_i input relaxed hk
        cases hrec
        exact hlt input (hrefs (by simp [Node.references, hk, NodeKind.references]))
      · cases hrec
    · exact hnumbers.inRange.relus r hr

end ConstraintSystem

/-! ## Lowering queries -/

/-- The error says that nodes do not belong together. -/
def GraphError.IsIntegrity : GraphError α → Prop
  | .foreign _ | .repeated _ | .notBefore _ _ | .outside _ _ | .notMember _ _ => True
  | _ => False

namespace Query

/-- A member is not in the arena or reads a node that is no member. -/
def Dangles (q : Query α) (a : Arena α) : Prop :=
  ∃ id ∈ q.nodes, a.get? id = none ∨ ∃ r, a.Reads id r ∧ r ∉ q.nodes

/-- A member is an absolute value. -/
def HasAbs (q : Query α) (a : Arena α) : Prop :=
  ∃ id ∈ q.nodes, ∃ n, a.get? id = some n ∧ ConstraintSystem.isAbs n = true

/-- A lowering looks up the members and what they read, the inputs, the outputs and the terms of the
equations. -/
inductive LooksUp (q : Query α) (a : Arena α) (id : NodeId) : Prop where
  | member (h : id ∈ q.nodes)
  | read {reader : NodeId} (h : reader ∈ q.nodes) (hread : a.Reads reader id)
  | input (h : id ∈ q.inputs)
  | output (h : id ∈ q.outputs)
  | term {e : Equation α} (h : e ∈ q.equations) (hterm : id ∈ e.nodes)

/-- What the two lowerings of a query return. -/
structure Lowers [Scalar α] (q : Query α) (a : Arena α) : Prop where
  /-- Where a member dangles both lowerings fail, over the same flaw. -/
  refused : q.Dangles a → ∃ e : GraphError α, e.IsIntegrity ∧
    SolverQuery.ofQuery a q = .error (.graph e) ∧ ConstraintSystem.ofQuery a q = .error (.graph e)
  exported_iff : (∃ e, SolverQuery.ofQuery a q = .ok e) ↔ ¬q.Dangles a
  lowered_iff : (∃ s, ConstraintSystem.ofQuery a q = .ok s) ↔ ¬q.Dangles a ∧ ¬q.HasAbs a
  unsupported_iff :
    (∃ id ∈ q.nodes, ConstraintSystem.ofQuery a q = .error (.unsupportedKind "abs" (a.name id))) ↔
      ¬q.Dangles a ∧ q.HasAbs a
  /-- Where no member dangles, no node that is looked up is missing. -/
  found : ¬q.Dangles a → ∀ id, q.LooksUp a id → id ∈ q.nodes ∧ ∃ n, a.get? id = some n
  exported : ∀ e, SolverQuery.ofQuery a q = .ok e →
    (∀ id, q.LooksUp a id → (e.table.varOf? id).isSome) ∧ ∀ v ∈ e.indices, v < e.variableCount
  lowered : ∀ s, ConstraintSystem.ofQuery a q = .ok s →
    (∀ id, q.LooksUp a id → (s.indexOf? id).isSome) ∧ (∀ i ∈ s.indices, i < s.size) ∧
      s.names.length = s.size ∧ s.bounds.length = s.size

section Lowering

variable {q : Query α} {a : Arena α}

theorem isIntegrity_of_requireInside {id : NodeId} {targets : List NodeId} {e : GraphError α}
    (h : q.requireInside a id targets = .error e) : e.IsIntegrity := by
  induction targets with
  | nil => cases h
  | cons target targets ih =>
    unfold requireInside at h
    split at h
    · exact ih h
    · cases h
      trivial

theorem isIntegrity_of_checkNodes {ids : List NodeId} {e : GraphError α}
    (h : q.checkNodes a ids = .error e) : e.IsIntegrity := by
  induction ids with
  | nil => cases h
  | cons id ids ih =>
    unfold checkNodes at h
    split at h
    · cases h
      trivial
    · split at h
      · rename_i hinside
        cases h
        exact isIntegrity_of_requireInside hinside
      · exact ih h

/-- The check fails exactly when a member dangles. -/
theorem checkIntegrity_eq_ok_iff_not_dangles : q.checkIntegrity a = .ok () ↔ ¬q.Dangles a := by
  rw [checkIntegrity_eq_ok_iff, Dangles]
  push Not
  refine forall₂_congr fun id _ => ?_
  cases hn : a.get? id with
  | none => simp
  | some n => simp [Arena.reads_iff hn, List.subset_def]

/-- Where no member dangles, no node that is looked up is missing. -/
theorem mem_of_looksUp (h : ¬q.Dangles a) {id : NodeId} (hid : q.LooksUp a id) : id ∈ q.nodes := by
  cases hid with
  | member hid => exact hid
  | read hreader hread => exact by_contra fun hout => h ⟨_, hreader, .inr ⟨id, hread, hout⟩⟩
  | input hid => exact q.inputs_subset hid
  | output hid => exact q.outputs_subset hid
  | term he hterm => exact q.terms_subset _ he hterm

variable [Scalar α]

/-- A sound query is numbered for evaluation, or one of its members is an absolute value. -/
theorem ofQuery_cases (hcheck : q.checkIntegrity a = .ok ()) :
    (¬q.HasAbs a ∧ ∃ s, ConstraintSystem.ofQuery a q = .ok s) ∨
      q.HasAbs a ∧ ∃ id ∈ q.nodes,
        ConstraintSystem.ofQuery a q = .error (.unsupportedKind "abs" (a.name id)) := by
  by_cases habs : q.HasAbs a
  · refine .inr ⟨habs, ?_⟩
    -- It is the first absolute value that is refused, not the given one.
    obtain ⟨id, hid, n, hn, hkind⟩ := habs
    have hsome : (q.nodes.find? fun id => (a.get? id).any ConstraintSystem.isAbs).isSome := by
      rw [List.find?_isSome]
      exact ⟨id, hid, by simp [hn, hkind]⟩
    obtain ⟨first, hfirst⟩ := Option.isSome_iff_exists.1 hsome
    refine ⟨first, List.mem_of_find?_eq_some hfirst, ?_⟩
    unfold ConstraintSystem.ofQuery
    simp [hcheck, hfirst]
  · refine .inl ⟨habs, ConstraintSystem.ofQuery_ok hcheck ?_⟩
    intro id hid n hn
    exact Bool.eq_false_iff.2 fun hkind => habs ⟨id, hid, n, hn, hkind⟩

/-- A query that does not pass its check is refused by both lowerings. -/
theorem refused_of_dangles (h : q.Dangles a) : ∃ e : GraphError α, e.IsIntegrity ∧
    SolverQuery.ofQuery a q = .error (.graph e) ∧
      ConstraintSystem.ofQuery a q = .error (.graph e) := by
  cases hcheck : q.checkIntegrity a with
  | ok u => exact absurd h (checkIntegrity_eq_ok_iff_not_dangles.1 hcheck)
  | error e =>
    refine ⟨e, isIntegrity_of_checkNodes hcheck, ?_, ?_⟩
    · unfold SolverQuery.ofQuery
      rw [hcheck]
    · unfold ConstraintSystem.ofQuery
      rw [hcheck]

/-- A query is numbered for a solver exactly when no member dangles. -/
theorem exists_exported_iff : (∃ e, SolverQuery.ofQuery a q = .ok e) ↔ ¬q.Dangles a := by
  rw [← checkIntegrity_eq_ok_iff_not_dangles]
  constructor
  · rintro ⟨e, he⟩
    exact SolverQuery.checkIntegrity_of_ofQuery he
  · intro hcheck
    obtain ⟨e, he, -⟩ := SolverQuery.exists_ofQuery hcheck
    exact ⟨e, he⟩

/-- What is returned that is no integrity error is returned about a query that does not dangle. -/
theorem not_dangles_of_ofQuery {r : Except (EvalError α) (ConstraintSystem α)}
    (h : ConstraintSystem.ofQuery a q = r) (hr : ∀ e, r ≠ .error (.graph e)) : ¬q.Dangles a := by
  intro hdangles
  obtain ⟨e, -, -, he⟩ := refused_of_dangles hdangles
  exact hr e (h.symm.trans he)

/-- A query is numbered for evaluation exactly when no member dangles or is an absolute value. -/
theorem exists_lowered_iff :
    (∃ s, ConstraintSystem.ofQuery a q = .ok s) ↔ ¬q.Dangles a ∧ ¬q.HasAbs a := by
  constructor
  · rintro ⟨s, hs⟩
    have hsound := not_dangles_of_ofQuery hs fun e => by simp
    refine ⟨hsound, ?_⟩
    rcases ofQuery_cases (checkIntegrity_eq_ok_iff_not_dangles.2 hsound) with
      ⟨habs, -⟩ | ⟨-, id, -, hid⟩
    · exact habs
    · cases hid.symm.trans hs
  · rintro ⟨hsound, habs⟩
    rcases ofQuery_cases (checkIntegrity_eq_ok_iff_not_dangles.2 hsound) with ⟨-, hs⟩ | ⟨hno, -⟩
    · exact hs
    · exact absurd hno habs

/-- An absolute value is what evaluation refuses a query for in which no member dangles. -/
theorem exists_unsupported_iff :
    (∃ id ∈ q.nodes, ConstraintSystem.ofQuery a q = .error (.unsupportedKind "abs" (a.name id))) ↔
      ¬q.Dangles a ∧ q.HasAbs a := by
  constructor
  · rintro ⟨id, -, hid⟩
    have hsound := not_dangles_of_ofQuery hid fun e => by simp
    refine ⟨hsound, ?_⟩
    rcases ofQuery_cases (checkIntegrity_eq_ok_iff_not_dangles.2 hsound) with ⟨-, s, hs⟩ | ⟨habs, -⟩
    · cases hid.symm.trans hs
    · exact habs
  · rintro ⟨hsound, habs⟩
    rcases ofQuery_cases (checkIntegrity_eq_ok_iff_not_dangles.2 hsound) with ⟨hno, -⟩ | ⟨-, hid⟩
    · exact absurd habs hno
    · exact hid

/-- What the lowerings return for any query and any arena. -/
theorem lowers (q : Query α) (a : Arena α) : q.Lowers a := by
  refine ⟨refused_of_dangles, exists_exported_iff, exists_lowered_iff, exists_unsupported_iff,
    ?_, ?_, ?_⟩
  · intro hsound id hid
    have hmem := mem_of_looksUp hsound hid
    obtain ⟨n, hn, -⟩ :=
      checkIntegrity_eq_ok_iff.1 (checkIntegrity_eq_ok_iff_not_dangles.2 hsound) id hmem
    exact ⟨hmem, n, hn⟩
  · intro e he
    have hcheck := SolverQuery.checkIntegrity_of_ofQuery he
    obtain ⟨e', he', htab⟩ := SolverQuery.exists_ofQuery hcheck
    cases he.symm.trans he'
    refine ⟨?_, SolverQuery.lt_of_mem_indices htab hcheck⟩
    intro id hid
    rw [VariableTable.varOf?, List.isSome_idxOf?, htab.mem_table_iff]
    exact mem_of_looksUp (checkIntegrity_eq_ok_iff_not_dangles.1 hcheck) hid
  · intro s hs
    obtain ⟨hids, -, -, hbounds, -⟩ := ConstraintSystem.tables_of_ofQuery hs
    have hnumbers := ConstraintSystem.ofQuery_eq_ok hs
    have hheld : ∀ id ∈ q.nodes, (a.get? id).isSome := by
      intro id hid
      obtain ⟨n, hn, -⟩ := hnumbers.members id hid
      rw [hn, Option.isSome_some]
    refine ⟨?_, ConstraintSystem.lt_of_mem_indices hs, ?_, ?_⟩
    · intro id hid
      rw [ConstraintSystem.indexOf?, List.isSome_idxOf?, hids]
      exact mem_of_looksUp (not_dangles_of_ofQuery hs fun e => by simp) hid
    · rw [hnumbers.names, List.length_map, ConstraintSystem.size, hids]
    · rw [hbounds, List.length_map, Arena.length_numbered hheld, ConstraintSystem.size, hids]

end Lowering

variable [Scalar α]

/-- Every query that can be built holds what it was given and the equations it took. One more
equation is refused exactly when a term of it is not a member, and a refused equation leaves the
query as it was. The lowerings of the query never miss a node. -/
theorem collects_and_lowers {given inputs outputs : List NodeId} {es : List (Equation α)}
    {q : Query α} (h : Query.new given inputs outputs es = .ok q) (calls : List (Equation α)) :
    (q.afterAdds calls).Collects given inputs outputs (es ++ calls) ∧
      (∀ e r p, (addEquation e).run (q.afterAdds calls) = (r, p) →
        q.afterAdds (calls ++ [e]) = p ∧ ((∃ err, r = .error err) ↔ ¬e.nodes ⊆ given) ∧
          ∀ err, r = .error err → p = q.afterAdds calls) ∧
      ∀ a, (q.afterAdds calls).Lowers a := by
  have hcollects := (collects_of_new h).afterAdds calls
  refine ⟨hcollects, ?_, fun a => lowers _ a⟩
  intro e r p hrun
  refine ⟨by rw [afterAdds_concat, afterAdd, hrun], ?_⟩
  by_cases hsub : e.nodes ⊆ (q.afterAdds calls).nodes
  · cases (run_addEquation_of_subset hsub).symm.trans hrun
    simp [hcollects.subset_iff.1 hsub]
  · obtain ⟨err, -, herr⟩ := run_addEquation_of_not_subset hsub
    cases herr.symm.trans hrun
    exact ⟨iff_of_true ⟨err, rfl⟩ (mt hcollects.subset_iff.2 hsub), fun _ _ => rfl⟩

/-- Of the equations `2 ≤ #1` and `1 ≤ #7`, a query over the nodes `#1`, `#0`, `#1` takes the first
one and refuses the second one, which leaves it as it was; in the empty arena its members dangle. -/
theorem collects_and_lowers_refusing : ∃ q : Query Rat,
    Query.new [1, 0, 1] [0] [1] [] = .ok q ∧
      (q.afterAdds [⟨[(1, 1)], .ge, 2⟩, ⟨[(1, 7)], .ge, 1⟩]).equations = [⟨[(1, 1)], .ge, 2⟩] ∧
      (∃ err, (addEquation ⟨[(1, 7)], .ge, 1⟩).run (q.afterAdds [⟨[(1, 1)], .ge, 2⟩]) =
        (.error err, q.afterAdds [⟨[(1, 1)], .ge, 2⟩])) ∧
      ∃ e : GraphError Rat, e.IsIntegrity ∧
        ConstraintSystem.ofQuery Arena.empty
          (q.afterAdds [⟨[(1, 1)], .ge, 2⟩, ⟨[(1, 7)], .ge, 1⟩]) = .error (.graph e) := by
  obtain ⟨q, hq⟩ : ∃ q : Query Rat, Query.new [1, 0, 1] [0] [1] [] = .ok q :=
    exists_new_iff.2 ⟨by decide, by decide, by simp⟩
  obtain ⟨-, hstep, -⟩ := collects_and_lowers hq [⟨[(1, 1)], .ge, 2⟩]
  obtain ⟨-, hrefused, hkept⟩ := hstep ⟨[(1, 7)], .ge, 1⟩ _ _ rfl
  obtain ⟨err, herr⟩ := hrefused.2 (by decide)
  obtain ⟨hcollects, -, hlowers⟩ :=
    collects_and_lowers hq [⟨[(1, 1)], .ge, 2⟩, ⟨[(1, 7)], .ge, 1⟩]
  obtain ⟨e, he, -, hsystem⟩ := (hlowers Arena.empty).refused
    ⟨0, (hcollects.mem_nodes 0).2 (by decide), .inl rfl⟩
  exact ⟨q, hq, hcollects.equations_eq.trans rfl, ⟨err, Prod.ext herr (hkept err herr)⟩, e, he,
    hsystem⟩

end Query

end PiecewiseNet
