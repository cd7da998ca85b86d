import PiecewiseNet.Evaluation.Validation
import PiecewiseNet.Proofs.QueryMembers
import PiecewiseNet.Solution
import Mathlib.Algebra.Order.Field.Rat
import Mathlib.Data.List.Nodup
import Mathlib.Tactic.Linarith

/-!
# The numbered form of a query

A constraint system says the same as the query it was made from: values satisfy all its relations
exactly when the values of the members solve the query.

## Main definitions

- `ConstraintSystem.Satisfied`: values satisfy every bound, constraint and rectifier exactly.
- `ConstraintSystem.InRange`: all relations are about variables of the system.

## Main statements

- `ConstraintSystem.ofQuery_eq_ok`: what the parts of the numbered form are.
- `ConstraintSystem.satisfied_iff_solves`: the numbered form has the solutions of the query.
-/

namespace PiecewiseNet

/-- Where every node is in the arena, the node with a number is the node at its place. -/
theorem Arena.getElem?_numbered {α : Type} {a : Arena α} {ids : List NodeId}
    (h : ∀ id ∈ ids, (a.get? id).isSome) (i : Nat) :
    (a.numbered ids)[i]? = ids[i]?.bind fun id => (a.get? id).map fun n => (i, n) := by
  have hshift : ∀ k, ((ids.zipIdx k).filterMap fun p =>
      (a.get? p.1).map fun n => (p.2, n))[i]? =
        ids[i]?.bind fun id => (a.get? id).map fun n => (k + i, n) := by
    induction ids generalizing i with
    | nil => simp
    | cons id ids ih =>
      intro k
      obtain ⟨n, hn⟩ := Option.isSome_iff_exists.1 (h id (List.mem_cons_self ..))
      have htail : ∀ j ∈ ids, (a.get? j).isSome := by
        intro j hj
        exact h j (List.mem_cons_of_mem _ hj)
      cases i with
      | zero => simp [List.zipIdx_cons, hn]
      | succ i =>
        simp only [List.zipIdx_cons, List.filterMap_cons, hn, Option.map_some,
          List.getElem?_cons_succ]
        rw [ih htail i (k + 1), Nat.add_right_comm, Nat.add_assoc]
  simpa [numbered] using hshift 0

namespace ConstraintSystem

section

variable {α : Type} [Scalar α]

/-- The values satisfy every bound, constraint and rectifier, without any tolerance. -/
structure Satisfied (s : ConstraintSystem α) (value : Nat → α) : Prop where
  bounds : ∀ (i : Nat) (b : Interval α), s.bounds[i]? = some b → b.Holds (value i)
  constraints : ∀ c ∈ s.constraints, c.kind.Holds (weightedSum value c.terms) c.scalar
  relus : ∀ r ∈ s.relus, value r.output = Scalar.positivePart (value r.input)

omit [Scalar α] in
/-- All relations are about variables of the system. -/
structure InRange (s : ConstraintSystem α) : Prop where
  inputs : ∀ i ∈ s.inputs, i < s.size
  constraints : ∀ c ∈ s.constraints, ∀ t ∈ c.terms, t.1 < s.size
  relus : ∀ r ∈ s.relus, r.output < s.size

/-- What the parts of the numbered form of a query are. -/
structure Numbers (s : ConstraintSystem α) (a : Arena α) (q : Query α) : Prop where
  /-- Every member is in the arena, reads members only and is no absolute value. -/
  members : ∀ id ∈ q.nodes, ∃ n, a.get? id = some n ∧ n.references ⊆ q.nodes ∧ isAbs n = false
  ids : s.ids = q.nodes
  names : s.names = q.nodes.map a.name
  inputs : s.inputs = q.inputs.map fun id => List.idxOf id q.nodes
  bounds : ∀ i : Nat, s.bounds[i]? = q.nodes[i]?.bind fun id => (a.get? id).map Node.bounds
  /-- A constraint defines an affine member or is an equation of the query. -/
  constraints : ∀ c, c ∈ s.constraints ↔
    (∃ i id n, q.nodes[i]? = some id ∧ a.get? id = some n ∧
      definitionOf q.nodes i n = some c) ∨ ∃ e ∈ q.equations, equationOf q.nodes e = c
  /-- A rectifier is a rectifying member. -/
  relus : ∀ r, r ∈ s.relus ↔
    ∃ i id n, q.nodes[i]? = some id ∧ a.get? id = some n ∧ rectifierOf q.nodes i n = some r

variable {s : ConstraintSystem α} {a : Arena α} {q : Query α}

/-- What the parts of the numbered form are. -/
theorem ofQuery_eq_ok (h : ofQuery a q = .ok s) : s.Numbers a q := by
  unfold ofQuery at h
  split at h
  · cases h
  · rename_i hcheck
    rw [Query.checkIntegrity_eq_ok_iff] at hcheck
    simp only at h
    split at h
    · cases h
    · rename_i habs
      cases h
      have hheld : ∀ id ∈ q.nodes, (a.get? id).isSome := by
        intro id hid
        obtain ⟨n, hn, -⟩ := hcheck id hid
        simp [hn]
      refine ⟨?_, rfl, rfl, rfl, ?_, ?_, ?_⟩
      · intro id hid
        obtain ⟨n, hn, hrefs⟩ := hcheck id hid
        refine ⟨n, hn, hrefs, ?_⟩
        have := List.find?_eq_none.1 habs id hid
        simpa [hn] using this
      · intro i
        simp only [List.getElem?_map, Arena.getElem?_numbered hheld]
        cases q.nodes[i]? with
        | none => rfl
        | some id => cases hn : a.get? id <;> simp [hn]
      · intro c
        simp only [List.mem_append, List.mem_filterMap, List.mem_map, Prod.exists,
          Arena.mem_numbered]
        refine or_congr ?_ Iff.rfl
        constructor
        · rintro ⟨i, n, ⟨id, hid, hn⟩, hc⟩
          exact ⟨i, id, n, hid, hn, hc⟩
        · rintro ⟨i, id, n, hid, hn, hc⟩
          exact ⟨i, n, ⟨id, hid, hn⟩, hc⟩
      · intro r
        simp only [List.mem_filterMap, Prod.exists, Arena.mem_numbered]
        constructor
        · rintro ⟨i, n, ⟨id, hid, hn⟩, hr⟩
          exact ⟨i, id, n, hid, hn, hr⟩
        · rintro ⟨i, id, n, hid, hn, hr⟩
          exact ⟨i, n, ⟨id, hid, hn⟩, hr⟩

/-- A query whose members are in order and are no absolute values has a numbered form. -/
theorem ofQuery_ok (hcheck : q.checkIntegrity a = .ok ())
    (habs : ∀ id ∈ q.nodes, ∀ n, a.get? id = some n → isAbs n = false) :
    ∃ s, ofQuery a q = .ok s := by
  unfold ofQuery
  rw [hcheck]
  have hnone : (q.nodes.find? fun id => (a.get? id).any isAbs) = none := by
    rw [List.find?_eq_none]
    intro id hid
    cases hn : a.get? id with
    | none => simp
    | some n => simp [habs id hid n hn]
  simp [hnone]

omit [Scalar α] in
/-- The number of a member leads back to it. -/
theorem getElem?_idxOf {ids : List NodeId} {id : NodeId} (h : id ∈ ids) :
    ids[List.idxOf id ids]? = some id := by
  rw [List.getElem?_eq_some_iff]
  exact ⟨List.idxOf_lt_length_of_mem h, List.getElem_idxOf _⟩

omit [Scalar α] in
/-- The member behind a number has that number. -/
theorem idxOf_eq {ids : List NodeId} (hnd : ids.Nodup) {i : Nat} {id : NodeId}
    (h : ids[i]? = some id) : List.idxOf id ids = i := by
  obtain ⟨hi, rfl⟩ := List.getElem?_eq_some_iff.1 h
  exact hnd.idxOf_getElem i hi

namespace Numbers

/-- The relations of a numbered form are about its variables. -/
theorem inRange (h : s.Numbers a q) : s.InRange := by
  have hlt : ∀ id ∈ q.nodes, List.idxOf id q.nodes < s.size := by
    intro id hid
    rw [size, h.ids]
    exact List.idxOf_lt_length_of_mem hid
  have hat : ∀ i id, q.nodes[i]? = some id → i < s.size := by
    intro i id hid
    rw [size, h.ids]
    exact (List.getElem?_eq_some_iff.1 hid).1
  refine ⟨?_, ?_, ?_⟩
  · intro i hi
    rw [h.inputs] at hi
    obtain ⟨id, hid, rfl⟩ := List.mem_map.1 hi
    exact hlt id (q.inputs_subset hid)
  · intro c hc t ht
    rcases (h.constraints c).1 hc with ⟨i, id, n, hid, hn, hdef⟩ | ⟨e, he, rfl⟩
    · obtain ⟨m, hm, hrefs, -⟩ := h.members id (List.mem_of_getElem? hid)
      obtain rfl : n = m := by simpa [hn] using hm
      unfold definitionOf at hdef
      split at hdef
      · rename_i terms bias hk
        cases hdef
        rcases List.mem_append.1 ht with ht | ht
        · obtain ⟨p, hp, rfl⟩ := List.mem_map.1 ht
          refine hlt p.2 (hrefs ?_)
          simpa [Node.references, hk, NodeKind.references, Terms.nodes] using ⟨p.1, hp⟩
        · rw [List.mem_singleton.1 ht]
          exact hat i id hid
      · cases hdef
    · obtain ⟨p, hp, rfl⟩ := List.mem_map.1 ht
      refine hlt p.2 (q.terms_subset e he ?_)
      simpa [Equation.nodes, Terms.nodes] using ⟨p.1, hp⟩
  · intro r hr
    obtain ⟨i, id, n, hid, hn, hrec⟩ := (h.relus r).1 hr
    unfold rectifierOf at hrec
    split at hrec
    · cases hrec
      exact hat i id hid
    · cases hrec

theorem lt_size_of_bounds (h : s.Numbers a q) {i : Nat} {b : Interval α}
    (hb : s.bounds[i]? = some b) : i < s.size := by
  rw [h.bounds, Option.bind_eq_some_iff] at hb
  obtain ⟨id, hid, -⟩ := hb
  rw [size, h.ids]
  exact (List.getElem?_eq_some_iff.1 hid).1

/-- The value of a member is that of its number. -/
theorem valueOf?_eq (h : s.Numbers a q) (v : Assignment α) {id : NodeId} (hid : id ∈ q.nodes) :
    s.valueOf? v id = v.value? (List.idxOf id q.nodes) := by
  have hsome : (List.idxOf? id s.ids).isSome := by
    rw [List.isSome_idxOf?, h.ids]
    exact hid
  obtain ⟨i, hi⟩ := Option.isSome_iff_exists.1 hsome
  rw [valueOf?, indexOf?, hi, Option.bind_some, ← h.ids, List.idxOf_eq_getD_idxOf?, hi,
    Option.getD_some]

end Numbers

/-- A sum over numbered variables has the value of the sum over the members they stand for. -/
theorem weightedSum_map_idxOf {ids : List NodeId} {value : Nat → α} {w : Valuation α}
    {ts : Terms α} (h : ∀ id ∈ ts.nodes, value (List.idxOf id ids) = w id) :
    weightedSum value (ts.map fun p => (List.idxOf p.2 ids, p.1)) = ts.value w := by
  unfold weightedSum Terms.value
  generalize (0 : α) = start
  induction ts generalizing start with
  | nil => rfl
  | cons t ts ih =>
    have hhead : value (List.idxOf t.2 ids) = w t.2 := h t.2 (by simp [Terms.nodes])
    have htail : ∀ id ∈ Terms.nodes ts, value (List.idxOf id ids) = w id := by
      intro id hid
      exact h id (List.mem_cons_of_mem _ hid)
    rw [List.map_cons, List.foldl_cons, List.foldl_cons, hhead]
    exact ih htail _

end

section Exact

variable {s : ConstraintSystem Rat} {a : Arena Rat} {q : Query Rat}

/-- The equation of an affine member holds exactly when its value is that of its sum. -/
theorem holds_definition_iff {total bias x : Rat} :
    Comparator.Holds .eq (total + x * -1) (-bias) ↔ x = total + bias := by
  unfold Comparator.Holds
  constructor
  · intro h
    linarith
  · intro h
    linarith

/-- A member's value is the one it computes exactly when its definition as a constraint or as a
rectifier holds. -/
theorem eq_value_iff {ids : List NodeId} {value : Nat → Rat} {w : Valuation Rat} {i : Nat}
    {n : Node Rat} (hread : ∀ id ∈ n.references, value (List.idxOf id ids) = w id)
    (habs : isAbs n = false) :
    value i = n.kind.value w (value i) ↔
      (∀ c, definitionOf ids i n = some c → c.kind.Holds (weightedSum value c.terms) c.scalar) ∧
      ∀ r, rectifierOf ids i n = some r → value r.output = Scalar.positivePart (value r.input) := by
  unfold definitionOf rectifierOf
  cases hk : n.kind with
  | plain => simp
  | affine terms bias =>
    have hsum : weightedSum value (terms.map (fun p => (List.idxOf p.2 ids, p.1)) ++ [(i, -1)]) =
        terms.value w + value i * -1 := by
      have hterms : ∀ id ∈ terms.nodes, value (List.idxOf id ids) = w id := by
        simpa [Node.references, hk, NodeKind.references] using hread
      rw [← weightedSum_map_idxOf hterms, weightedSum, List.foldl_append, weightedSum]
      rfl
    simp only [Option.some.injEq, forall_eq', reduceCtorEq, false_implies, implies_true, and_true]
    rw [hsum, holds_definition_iff]
    rfl
  | relu input relaxed =>
    have hinput : value (List.idxOf input ids) = w input := by
      refine hread input ?_
      simp [Node.references, hk, NodeKind.references]
    simp only [Option.some.injEq, forall_eq', reduceCtorEq, false_implies, implies_true, true_and]
    rw [hinput]
    rfl
  | abs input => simp [isAbs, hk] at habs

namespace Numbers

variable (h : s.Numbers a q) {value : Nat → Rat} {w : Valuation Rat}
  (hvalue : ∀ i id, q.nodes[i]? = some id → value i = w id)

include hvalue

/-- The variable with the number of a member has the member's value. -/
theorem value_idxOf {id : NodeId} (hid : id ∈ q.nodes) : value (List.idxOf id q.nodes) = w id :=
  hvalue _ id (getElem?_idxOf hid)

/-- The values satisfy an equation exactly when they satisfy it by number. -/
theorem equation_holds_iff {e : Equation Rat} (he : e ∈ q.equations) :
    (equationOf q.nodes e).kind.Holds (weightedSum value (equationOf q.nodes e).terms)
      (equationOf q.nodes e).scalar ↔ e.Holds w := by
  unfold equationOf
  rw [weightedSum_map_idxOf fun id hid => value_idxOf hvalue (q.terms_subset e he hid)]
  rfl

include h

/-- The values satisfy a member exactly when its bounds, and its definition as a constraint or as a
rectifier, hold by number. -/
theorem node_holds_iff {i : Nat} {id : NodeId} {n : Node Rat} (hid : q.nodes[i]? = some id)
    (hn : a.get? id = some n) :
    n.Holds w (w id) ↔ n.bounds.Holds (value i) ∧
      (∀ c, definitionOf q.nodes i n = some c →
        c.kind.Holds (weightedSum value c.terms) c.scalar) ∧
      ∀ r, rectifierOf q.nodes i n = some r →
        value r.output = Scalar.positivePart (value r.input) := by
  obtain ⟨m, hm, hrefs, habs⟩ := h.members id (List.mem_of_getElem? hid)
  obtain rfl : n = m := by simpa [hn] using hm
  rw [← eq_value_iff (fun r hr => value_idxOf hvalue (hrefs hr)) habs, hvalue i id hid]
  constructor
  · intro hholds
    exact ⟨hholds.bounds, hholds.value⟩
  · rintro ⟨hbounds, hval⟩
    exact ⟨hval, hbounds⟩

end Numbers

/-- The numbered form of a query has the solutions of the query. -/
theorem satisfied_iff_solves (h : s.Numbers a q) {value : Nat → Rat} {w : Valuation Rat}
    (hvalue : ∀ i id, q.nodes[i]? = some id → value i = w id) :
    s.Satisfied value ↔ q.Solves a w := by
  constructor
  · intro hs
    refine ⟨?_, ?_⟩
    · intro id hid
      obtain ⟨n, hn, -⟩ := h.members id hid
      have hi := getElem?_idxOf hid
      refine ⟨n, hn, (h.node_holds_iff hvalue hi hn).2 ⟨?_, ?_, ?_⟩⟩
      · refine hs.bounds _ _ ?_
        simp [h.bounds, hi, hn]
      · intro c hc
        exact hs.constraints c ((h.constraints c).2 (.inl ⟨_, id, n, hi, hn, hc⟩))
      · intro r hr
        exact hs.relus r ((h.relus r).2 ⟨_, id, n, hi, hn, hr⟩)
    · intro e he
      exact (Numbers.equation_holds_iff hvalue he).1
        (hs.constraints _ ((h.constraints _).2 (.inr ⟨e, he, rfl⟩)))
  · intro hq
    have hnode : ∀ (i : Nat) (id : NodeId) (n : Node Rat), q.nodes[i]? = some id →
        a.get? id = some n → n.Holds w (w id) := by
      intro i id n hid hn
      obtain ⟨m, hm, hholds⟩ := hq.nodes id (List.mem_of_getElem? hid)
      obtain rfl : n = m := by simpa [hn] using hm
      exact hholds
    refine ⟨?_, ?_, ?_⟩
    · intro i b hb
      rw [h.bounds] at hb
      obtain ⟨id, hid, hb⟩ := Option.bind_eq_some_iff.1 hb
      obtain ⟨n, hn, rfl⟩ := Option.map_eq_some_iff.1 hb
      exact ((h.node_holds_iff hvalue hid hn).1 (hnode i id n hid hn)).1
    · intro c hc
      rcases (h.constraints c).1 hc with ⟨i, id, n, hid, hn, hdef⟩ | ⟨e, he, rfl⟩
      · exact ((h.node_holds_iff hvalue hid hn).1 (hnode i id n hid hn)).2.1 c hdef
      · exact (Numbers.equation_holds_iff hvalue he).2 (hq.equations e he)
    · intro r hr
      obtain ⟨i, id, n, hid, hn, hrec⟩ := (h.relus r).1 hr
      exact ((h.node_holds_iff hvalue hid hn).1 (hnode i id n hid hn)).2.2 r hrec

end Exact

end ConstraintSystem

end PiecewiseNet
