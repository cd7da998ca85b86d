import PiecewiseNet.Proofs.Evaluation.Steps
import PiecewiseNet.Proofs.Ipq.Checking
import PiecewiseNet.Proofs.Solver.Renumbering

/-!
# Witnesses of a solver

A witness gives values to the variables of a solver query. Handed to the members behind the
variables, values that satisfy the solver query satisfy the constraint system of the same query, so
validation accepts them.

## Main statements

- `SolverQuery.Renames.satisfied`: values keep satisfying all relations when variables are renamed.
- `SolverQuery.get?_witnessNodes`: the value that a witness gives to a member.
- `SolverQuery.ofQuery_agrees`: both numbered forms of a query exist and agree, and what satisfies
  the one is accepted by the other.
-/

namespace PiecewiseNet

namespace SolverQuery

section

variable {α : Type} [Scalar α] {e : SolverQuery α} {s : ConstraintSystem α} {f : Nat → Nat}
  {value value' : Nat → α}

/-- A sum has the same value over renamed variables, where these have the values of the others. -/
theorem weightedSum_renamed {r : IpqEquation α} (h : ∀ t ∈ r.addends, value' (f t.1) = value t.1) :
    ConstraintSystem.weightedSum value' (r.renamed f).terms = r.sum value := by
  unfold ConstraintSystem.weightedSum IpqEquation.sum IpqEquation.renamed
  rw [List.foldl_map]
  generalize (0 : α) = start
  generalize r.addends = ts at h
  induction ts generalizing start with
  | nil => rfl
  | cons t ts ih =>
    rw [List.forall_mem_cons] at h
    rw [List.foldl_cons, List.foldl_cons, h.1]
    exact ih _ h.2

/-- Values keep satisfying all relations when their variables are renamed. -/
theorem Renames.satisfied (h : e.Renames s f) (hrange : e.InRange)
    (hbounds : ∀ i b, s.bounds[i]? = some b → i < s.size)
    (hvalue : ∀ v < e.variableCount, value' (f v) = value v) (he : e.Satisfied value) :
    s.Satisfied value' := by
  refine ⟨?_, ?_, ?_⟩
  · intro i b hb
    obtain ⟨v, hv, rfl⟩ := h.bijOn.surjOn (hbounds i b hb)
    rw [hvalue v hv]
    refine ⟨?_, ?_⟩
    · intro l hl
      have hget := (h.lower v l).2 ⟨hv, by rw [hb, Option.bind_some, hl]⟩
      exact he.lower (v, l) (VarMap.get?_eq_some_iff.1 hget)
    · intro u hu
      have hget := (h.upper v u).2 ⟨hv, by rw [hb, Option.bind_some, hu]⟩
      exact he.upper (v, u) (VarMap.get?_eq_some_iff.1 hget)
  · intro c hc
    obtain ⟨r, hr, rfl⟩ := List.mem_map.1 (h.equations.mem_iff.2 hc)
    rw [weightedSum_renamed fun t ht => hvalue t.1 (hrange.equations r hr t ht)]
    exact he.equations r hr
  · intro c hc
    obtain ⟨p, hp, rfl⟩ := List.mem_map.1 (h.relus.mem_iff.2 hc)
    obtain ⟨hb, hf⟩ := hrange.relus p hp
    show value' (f p.f) = Scalar.positivePart (value' (f p.b))
    rw [hvalue p.f hf, hvalue p.b hb]
    exact he.relus p hp

end

section

variable {α : Type} {e : SolverQuery α}

theorem get?_witnessNodes (hnd : e.table.Nodup) {witness : VarMap α} {id : NodeId} {x : α} :
    (e.witnessNodes witness).get? id = some x ↔
      ∃ v, witness.get? v = some x ∧ e.table.nodeOf? v = some id := by
  have hkeys : ((witness.entries.filterMap fun p =>
      (e.table.nodeOf? p.1).map fun id => (id, p.2)).map Prod.fst).Nodup := by
    have hentries := witness.nodup_keys
    rw [List.nodup_iff_pairwise_ne, List.pairwise_map] at hentries
    rw [List.nodup_iff_pairwise_ne, List.pairwise_map, List.pairwise_filterMap]
    refine hentries.imp ?_
    intro p p' hne r hr r' hr'
    obtain ⟨i, hi, rfl⟩ := Option.map_eq_some_iff.1 hr
    obtain ⟨i', hi', rfl⟩ := Option.map_eq_some_iff.1 hr'
    rintro rfl
    exact hne ((ConstraintSystem.idxOf_eq hnd hi).symm.trans (ConstraintSystem.idxOf_eq hnd hi'))
  rw [witnessNodes, OrderedMap.get?_ofList_eq_some_iff hkeys, List.mem_filterMap]
  constructor
  · rintro ⟨⟨v, y⟩, hmem, hy⟩
    obtain ⟨i, hi, heq⟩ := Option.map_eq_some_iff.1 hy
    cases heq
    exact ⟨v, VarMap.get?_eq_some_iff.2 hmem, hi⟩
  · rintro ⟨v, hv, hid⟩
    exact ⟨(v, x), VarMap.get?_eq_some_iff.1 hv, by simp [hid]⟩

/-- The variable with the number of a member has the member's value. -/
theorem value?_assignmentOf {s : ConstraintSystem α} {f : Nat → Nat} (h : e.Renames s f)
    (hnd : e.table.Nodup) {witness : VarMap α} {v : Nat} (hv : v < e.variableCount) :
    (s.assignmentOf (e.witnessNodes witness)).value? (f v) = witness.get? v := by
  obtain ⟨id, hid⟩ : ∃ id, e.table.nodeOf? v = some id := ⟨_, List.getElem?_eq_getElem hv⟩
  have hindex := h.index v hv
  rw [hid, Option.bind_some] at hindex
  obtain ⟨hlt, hget, -⟩ := List.idxOf?_eq_some_iff.1 hindex
  have hvalue : (s.assignmentOf (e.witnessNodes witness)).value? (f v) =
      (e.witnessNodes witness).get? id := by
    rw [ConstraintSystem.assignmentOf, Assignment.value?, List.getElem?_toArray, List.getElem?_map,
      List.getElem?_eq_getElem hlt, hget, Option.map_some, Option.getD_some]
  rw [hvalue]
  -- Both sides are compared by the values that they have.
  refine Option.ext ?_
  intro x
  rw [get?_witnessNodes hnd]
  constructor
  · rintro ⟨w, hw, hwid⟩
    rwa [← ConstraintSystem.idxOf_eq hnd hid, ConstraintSystem.idxOf_eq hnd hwid]
  · intro hx
    exact ⟨v, hx, hid⟩

end

/-- The two numbered forms of a query without absolute values exist and agree. In exact arithmetic a
witness that gives every variable a value, and satisfies the form for a solver, is accepted by
validation. -/
theorem ofQuery_agrees :
    (∀ (α : Type) [Scalar α] (a : Arena α) (q : Query α), q.checkIntegrity a = .ok () →
      (∀ id ∈ q.nodes, ∀ n, a.get? id = some n → ConstraintSystem.isAbs n = false) →
        ∃ e s f, ofQuery a q = .ok e ∧ ConstraintSystem.ofQuery a q = .ok s ∧ e.Renames s f) ∧
    ∀ (a : Arena Rat) (q : Query Rat) (e : SolverQuery Rat) (s : ConstraintSystem Rat),
      ofQuery a q = .ok e → ConstraintSystem.ofQuery a q = .ok s →
        ∀ witness : VarMap Rat, (∀ v < e.variableCount, (witness.get? v).isSome) →
          (e.Satisfied fun v => (witness.get? v).getD 0) →
            s.validate (s.assignmentOf (e.witnessNodes witness)) = .ok () := by
  refine ⟨?_, ?_⟩
  · intro α _ a q hcheck habs
    obtain ⟨e, he, ht⟩ := exists_ofQuery hcheck
    obtain ⟨s, hs⟩ := ConstraintSystem.ofQuery_ok hcheck habs
    exact ⟨e, s, _, he, hs, ht.renames hs⟩
  · intro a q e s he hs witness hgiven hsat
    have hcheck := checkIntegrity_of_ofQuery he
    obtain ⟨e', he', ht⟩ := exists_ofQuery hcheck
    obtain rfl : e = e' := by simpa [he] using he'
    have hrenames := ht.renames hs
    have hids := (ConstraintSystem.ofQuery_eq_ok hs).ids
    have hvalue : ∀ v < e.variableCount,
        (s.assignmentOf (e.witnessNodes witness)).value? (positionIn q.nodes e.table v) =
          witness.get? v := fun v hv => value?_assignmentOf hrenames ht.table_nodup hv
    have hsize : (s.assignmentOf (e.witnessNodes witness)).size = s.size := by
      simp [ConstraintSystem.assignmentOf, ConstraintSystem.size]
    refine ConstraintSystem.validate_of_satisfied hsize ?_ ?_
    · rw [List.eq_nil_iff_forall_not_mem]
      intro i hi
      obtain ⟨hlt, hnone⟩ := Assignment.mem_unassigned.1 hi
      obtain ⟨v, hv, rfl⟩ := hrenames.bijOn.surjOn (hsize ▸ hlt)
      have hsome := hgiven v hv
      rw [← hvalue v hv, hnone] at hsome
      cases hsome
    · refine hrenames.satisfied (ht.inRange hcheck) ?_ ?_ hsat
      · intro i b hb
        rw [(ConstraintSystem.ofQuery_eq_ok hs).bounds] at hb
        obtain ⟨id, hid, -⟩ := Option.bind_eq_some_iff.1 hb
        rw [ConstraintSystem.size, hids]
        exact (List.getElem?_eq_some_iff.1 hid).1
      · intro v hv
        rw [hvalue v hv]

instance decidableSatisfied {e : SolverQuery Rat} {value : Nat → Rat} :
    Decidable (e.Satisfied value) :=
  decidable_of_iff
    ((∀ b ∈ e.lowerBounds.entries, b.2 ≤ value b.1) ∧
      (∀ b ∈ e.upperBounds.entries, value b.1 ≤ b.2) ∧ (∀ r ∈ e.equations, r.Holds value) ∧
        ∀ p ∈ e.relus, value p.f = Scalar.positivePart (value p.b))
    ⟨fun ⟨hl, hu, he, hr⟩ => ⟨hl, hu, he, hr⟩, fun h => ⟨h.lower, h.upper, h.equations, h.relus⟩⟩

/-- A rectifier of an affine node over a bounded input, and a node with a fixed value. -/
def crossedArena : Arena Rat :=
  ⟨#[{ kind := .plain, bounds := ⟨some 0, some 3⟩ }, { kind := .affine [(2, 0)] (-1) },
    { kind := .relu 1 false }, { kind := .plain, bounds := .fixed 4 }]⟩

/-- Asks for values of all four nodes, the rectifier before the affine node that it reads. The
affine node is declared as an input twice. -/
def crossedQuery : Query Rat where
  nodes := [0, 3, 2, 1]
  inputs := [1, 0, 1]
  outputs := [2, 3]
  equations := [⟨[(1, 2), (1, 3)], .ge, 7⟩]
  nodes_nodup := by decide
  inputs_subset := by decide
  outputs_subset := by decide
  terms_subset := by decide

/-- The variables of the sample are the nodes 1, 0, 3 and 2. The last entry is about no variable. -/
def crossedWitness : VarMap Rat :=
  OrderedMap.ofList [(0, 3), (1, 2), (2, 4), (3, 3), (9, 1)]

/-- The two numbered forms of the sample agree, and the witness is accepted. -/
theorem ofQuery_agrees_crossed :
    ∃ e s f, ofQuery crossedArena crossedQuery = .ok e ∧
      ConstraintSystem.ofQuery crossedArena crossedQuery = .ok s ∧ e.Renames s f ∧
      e.table = [1, 0, 3, 2] ∧ s.ids = [0, 3, 2, 1] ∧
      s.validate (s.assignmentOf (e.witnessNodes crossedWitness)) = .ok () := by
  have habs : ∀ id ∈ crossedQuery.nodes, ∀ n ∈ crossedArena.get? id,
      ConstraintSystem.isAbs n = false := by decide
  obtain ⟨e, s, f, he, hs, hrenames⟩ := ofQuery_agrees.1 Rat crossedArena crossedQuery rfl habs
  obtain ⟨e', he', htable, hgiven, hsat⟩ : ∃ e', ofQuery crossedArena crossedQuery = .ok e' ∧
      e'.table = [1, 0, 3, 2] ∧ (∀ v < e'.variableCount, (crossedWitness.get? v).isSome) ∧
        e'.Satisfied fun v => (crossedWitness.get? v).getD 0 :=
    ⟨_, rfl, rfl, by decide +kernel, by decide +kernel⟩
  obtain rfl : e = e' := by simpa [he] using he'
  have hids := (ConstraintSystem.ofQuery_eq_ok hs).ids
  exact ⟨e, s, f, he, hs, hrenames, htable, hids,
    ofQuery_agrees.2 crossedArena crossedQuery e s he hs crossedWitness hgiven hsat⟩

end SolverQuery

end PiecewiseNet
