import PiecewiseNet.Proofs.Solver.Reachability
import PiecewiseNet.Proofs.Solver.Variables

/-!
# Input variables of solver queries

The input variables of a solver query stand for the declared inputs and behind them for the
synthetic ones, which are the members that no input reaches and whose bounds coincide.

## Main statements

- `Interval.isSome_fixedValue?_iff`: bounds that coincide.
- `SolverQuery.Tabulates.nodes_of_inputVars`: the members behind the input variables.
- `SolverQuery.inputVars_of_checked`: the reachable members, and the inputs that they make.
-/

namespace PiecewiseNet

variable {α : Type} [Scalar α] {a : Arena α} {q : Query α} {id : NodeId}

/-- Bounds fix a value exactly when they have two ends that are equal. -/
theorem Interval.isSome_fixedValue?_iff {i : Interval α} :
    i.fixedValue?.isSome = true ↔ ∃ l u, i = ⟨some l, some u⟩ ∧ (l == u) = true := by
  obtain ⟨lower, upper⟩ := i
  cases lower <;> cases upper <;> simp [fixedValue?]

/-- The synthetic inputs are members, in their order. -/
theorem syntheticInputs_sublist (a : Arena α) (q : Query α) :
    (syntheticInputs a q).Sublist q.nodes :=
  List.filter_sublist

namespace SolverQuery

variable {e : SolverQuery α}

/-- The members behind the input variables: first the declared inputs, then the synthetic ones. -/
theorem Tabulates.nodes_of_inputVars (h : e.Tabulates a q) :
    (e.inputVars.take e.realInputs).map e.table.nodeOf? = q.inputs.map some ∧
      (e.inputVars.drop e.realInputs).map e.table.nodeOf? = (syntheticInputs a q).map some := by
  have hnodes : ∀ ids ⊆ q.nodes, (ids.map e.table.varOf).map e.table.nodeOf? = ids.map some := by
    intro ids hids
    rw [List.map_map]
    exact List.map_congr_left fun id hid => nodeOf?_varOf (h.mem_table_iff.2 (hids hid))
  have hlen : e.realInputs = (q.inputs.map e.table.varOf).length := by
    rw [h.realInputs, List.length_map]
  rw [h.inputVars, hlen, List.take_left, List.drop_left]
  exact ⟨hnodes _ q.inputs_subset, hnodes _ (syntheticInputs_sublist a q).subset⟩

/-- In a query whose members read members only, in whatever order and in circles or not, sweeping
from the inputs ends after one sweep more than there are members or earlier, and has reached exactly
the members from which references lead to an input. The input variables are those of the declared
inputs in order, and then those of the members that were not reached and whose bounds coincide, each
once and in the order of the members; none of these is a declared input. -/
theorem inputVars_of_checked (hq : q.checkIntegrity a = .ok ()) :
    (∃ n ≤ q.nodes.length + 1, Settles a q.nodes q.inputs n (reachable a q)) ∧
      (∀ id, id ∈ reachable a q ↔ id ∈ q.nodes ∧ ∃ i ∈ q.inputs, a.DependsOn id i) ∧
      ∃ (e : SolverQuery α) (synthetic : List NodeId), ofQuery a q = .ok e ∧
        e.realInputs = q.inputs.length ∧
        (e.inputVars.take e.realInputs).map e.table.nodeOf? = q.inputs.map some ∧
        (e.inputVars.drop e.realInputs).map e.table.nodeOf? = synthetic.map some ∧
        synthetic.Sublist q.nodes ∧ synthetic.Nodup ∧
        (∀ id, id ∈ synthetic ↔ id ∈ q.nodes ∧ id ∉ reachable a q ∧
          ∃ n l u, a.get? id = some n ∧ n.bounds = ⟨some l, some u⟩ ∧ (l == u) = true) ∧
        ∀ id ∈ synthetic, id ∉ q.inputs := by
  have hreachable : ∀ id, id ∈ reachable a q ↔
      id ∈ q.nodes ∧ ∃ i ∈ q.inputs, a.DependsOn id i := by
    intro id
    constructor
    · intro hid
      exact ⟨reachable_subset hid, (mem_reachable_iff hq (reachable_subset hid)).1 hid⟩
    · rintro ⟨hid, hdep⟩
      exact (mem_reachable_iff hq hid).2 hdep
  have hsynthetic : ∀ id, id ∈ syntheticInputs a q ↔ id ∈ q.nodes ∧ id ∉ reachable a q ∧
      ∃ n l u, a.get? id = some n ∧ n.bounds = ⟨some l, some u⟩ ∧ (l == u) = true := by
    intro id
    rw [mem_syntheticInputs_iff hq, hreachable]
    refine and_congr_right fun hid => and_congr ?_ ?_
    · simp [hid]
    · simp only [Interval.isSome_fixedValue?_iff, exists_and_left]
  obtain ⟨e, he, htab⟩ := exists_ofQuery hq
  obtain ⟨hdeclared, hfurther⟩ := htab.nodes_of_inputVars
  refine ⟨exists_settles_reachable a q, hreachable, e, syntheticInputs a q, he, htab.realInputs,
    hdeclared, hfurther, syntheticInputs_sublist a q,
    q.nodes_nodup.sublist (syntheticInputs_sublist a q), hsynthetic, ?_⟩
  intro id hid hinput
  exact ((hsynthetic id).1 hid).2.1 (inputs_subset_reachable hinput)

/-- Two members that read each other, one of them fixed, a fixed free value, and a rectifier that
is listed before the input it reads. -/
def circular : Query Rat where
  nodes := [4, 3, 2, 1, 0]
  inputs := [0]
  outputs := [3]
  equations := []
  nodes_nodup := by decide
  inputs_subset := by decide
  outputs_subset := by decide
  terms_subset := by decide

/-- The nodes of the query. -/
def circularArena : Arena Rat :=
  ⟨#[{ kind := .plain }, { kind := .affine [(1, 2)] 0, bounds := .fixed 5 },
    { kind := .affine [(1, 1)] 0 }, { kind := .relu 0 false, bounds := .fixed 2 },
    { kind := .plain, bounds := .fixed 7 }]⟩

/-- The fixed members that do not read the input become inputs, the one in the circle too. -/
theorem inputVars_of_checked_circular :
    circular.checkIntegrity circularArena = .ok () ∧
      ∃ (e : SolverQuery Rat) (synthetic : List NodeId), ofQuery circularArena circular = .ok e ∧
        (e.inputVars.take e.realInputs).map e.table.nodeOf? = [some 0] ∧
        (e.inputVars.drop e.realInputs).map e.table.nodeOf? = synthetic.map some ∧
        1 ∈ synthetic ∧ 4 ∈ synthetic ∧ 3 ∉ synthetic := by
  have hq : circular.checkIntegrity circularArena = .ok () := by decide
  obtain ⟨-, hreachable, e, synthetic, he, -, hdeclared, hfurther, -, -, hmem, -⟩ :=
    inputVars_of_checked hq
  refine ⟨hq, e, synthetic, he, hdeclared, hfurther, ?_, ?_, ?_⟩
  · exact (hmem 1).2 ⟨by decide, by decide, _, 5, 5, rfl, rfl, by decide⟩
  · exact (hmem 4).2 ⟨by decide, by decide, _, 7, 7, rfl, rfl, by decide⟩
  · intro h
    have hread : circularArena.Reads 3 0 := (Arena.reads_iff rfl).2 (List.mem_singleton_self 0)
    exact ((hmem 3).1 h).2.1 ((hreachable 3).2 ⟨by decide, 0, by decide, .single hread⟩)

end SolverQuery

end PiecewiseNet
