import PiecewiseNet.Proofs.Evaluation.Seeding
import Mathlib.Tactic.FieldSimp
import Mathlib.Tactic.Ring

/-!
# Propagation derives forced values

Every value that propagation assigns is the value that each solution with the given inputs gives to
that variable. A complete assignment is therefore the only candidate for a solution.

## Main definitions

- `Assignment.AgreesWith`: whatever has a value has the given one.

## Main statements

- `ConstraintSystem.Step.agreesWith`: a step keeps the agreement with every solution.
- `ConstraintSystem.forward_agreesWith`: what is propagated agrees with every solution.
- `ConstraintSystem.forward_forced`: the same for the members of a query, and when a complete
  assignment is a solution.
-/

namespace PiecewiseNet

/-- Every variable that has a value has the given one. -/
def Assignment.AgreesWith {α : Type} (v : Assignment α) (value : Nat → α) : Prop :=
  ∀ i y, v.value? i = some y → y = value i

theorem Assignment.AgreesWith.assign {α : Type} {v : Assignment α} {value : Nat → α}
    (h : v.AgreesWith value) {i : Nat} {x : α} (hx : x = value i) :
    (v.assign i x).AgreesWith value := by
  intro j y hy
  rw [value?_assign] at hy
  split at hy
  · rename_i hij
    cases hy
    exact hij.1 ▸ hx
  · exact h j y hy

namespace ConstraintSystem

variable {s : ConstraintSystem Rat} {v v' : Assignment Rat} {value : Nat → Rat}

/-- A sum splits into its assigned part and its unassigned terms. -/
theorem weightedSum_eq_add (hv : v.AgreesWith value) (terms : List (Nat × Rat)) :
    weightedSum value terms =
      assignedSum v terms + weightedSum value (unassignedTerms v terms) := by
  -- Both running sums start anywhere.
  have hrun : ∀ p r : Rat, terms.foldl (fun acc t => acc + value t.1 * t.2) (p + r) =
      terms.foldl (addAssigned v) p +
        (unassignedTerms v terms).foldl (fun acc t => acc + value t.1 * t.2) r := by
    induction terms with
    | nil =>
      intro p r
      rfl
    | cons t terms ih =>
      intro p r
      cases ht : v.value? t.1 with
      | none =>
        have hopen : unassignedTerms v (t :: terms) = t :: unassignedTerms v terms := by
          simp [unassignedTerms, ht]
        rw [hopen, List.foldl_cons, List.foldl_cons, List.foldl_cons, addAssigned, ht, ← ih]
        congr 1
        ring
      | some x =>
        have hclosed : unassignedTerms v (t :: terms) = unassignedTerms v terms := by
          simp [unassignedTerms, ht]
        rw [hclosed, List.foldl_cons, List.foldl_cons, addAssigned, ht, ← ih, hv t.1 x ht]
        congr 1
        ring
  have hzero := hrun 0 0
  rw [add_zero] at hzero
  exact hzero

/-- An equality that holds gives its only unassigned variable the value that it is solved for. -/
theorem solution_eq (hv : v.AgreesWith value) {c : Constraint Rat} {i : Nat} {coefficient : Rat}
    (hopen : unassignedTerms v c.terms = [(i, coefficient)]) (hne : coefficient ≠ 0)
    (hc : weightedSum value c.terms = c.scalar) : solution v c coefficient = value i := by
  have hlast : weightedSum value [(i, coefficient)] = value i * coefficient := by
    simp [weightedSum]
  rw [weightedSum_eq_add hv, hopen, hlast] at hc
  unfold solution
  rw [← hc]
  field_simp
  ring

/-- A step keeps the agreement with every solution. -/
theorem Step.agreesWith (h : s.Step v v') (hs : s.Satisfied value) (hv : v.AgreesWith value) :
    v'.AgreesWith value := by
  cases h with
  | @solve c i coefficient hc hkind hopen hne =>
    have hholds := hs.constraints c hc
    rw [hkind] at hholds
    exact hv.assign (solution_eq hv hopen (by simpa using hne) hholds)
  | @rectify r y hr hin hout =>
    refine hv.assign ?_
    rw [hs.relus r hr, hv r.input y hin]

theorem agreesWith_of_steps (h : Relation.ReflTransGen s.Step v v') (hs : s.Satisfied value)
    (hv : v.AgreesWith value) : v'.AgreesWith value := by
  induction h with
  | refl => exact hv
  | tail _ hstep ih => exact hstep.agreesWith hs ih

/-- Seeding agrees with every solution that has these inputs. -/
theorem seed_agreesWith {xs : List Rat} (hs : s.Satisfied value)
    (hinputs : s.inputs.map value = xs) : (s.seed xs).AgreesWith value := by
  intro i y hy
  rcases seed_eq_some hy with ⟨l, hb, heq⟩ | ⟨hmem, -⟩
  · obtain ⟨hlower, hupper⟩ := hs.bounds i _ hb
    have hl : l = y := by simpa using heq
    have hle := hlower l rfl
    have hge := hupper y rfl
    rw [hl] at hle
    exact le_antisymm hle hge
  · rw [← hinputs, List.zip_map_right] at hmem
    obtain ⟨⟨j, k⟩, hjk, heq⟩ := List.mem_map.1 hmem
    simp only [Prod.map_apply, id_eq, Prod.mk.injEq] at heq
    obtain ⟨rfl, rfl⟩ := heq
    have hkj : k = j := by
      obtain ⟨n, hn⟩ := List.mem_iff_getElem?.1 hjk
      rw [List.getElem?_zip_eq_some] at hn
      simpa [hn.1] using hn.2.symm
    rw [hkj]

/-- Whatever is propagated from input values agrees with every solution that has these inputs. -/
theorem forward_agreesWith {xs : List Rat} (hs : s.Satisfied value)
    (hinputs : s.inputs.map value = xs) (h : s.forward xs = .ok v) : v.AgreesWith value := by
  unfold forward at h
  split at h
  · cases h
  · simp only at h
    split at h
    · cases h
    · rename_i u hu
      split at h
      · cases h
        exact agreesWith_of_steps (steps_of_propagate hu) hs (seed_agreesWith hs hinputs)
      · cases h

/-- A propagated assignment is complete. -/
theorem forward_complete {xs : List Rat} (h : s.forward xs = .ok v) {i : Nat} (hi : i < s.size) :
    (v.value? i).isSome := by
  unfold forward at h
  split at h
  · cases h
  · simp only at h
    split at h
    · cases h
    · rename_i u hu
      split at h
      · rename_i hnil
        cases h
        have hsize : v.size = s.size :=
          (extendedBy_of_steps (steps_of_propagate hu)).size.trans (size_seed s xs)
        by_contra hnone
        have hmem : i ∈ v.unassigned := by
          rw [Assignment.mem_unassigned, hsize]
          exact ⟨hi, by simpa using hnone⟩
        rw [hnil] at hmem
        cases hmem
      · cases h

/-- Propagation derives only forced values: every solution of a query with the given inputs has the
propagated values. Such a solution exists exactly when the propagated values have these inputs and
satisfy every bound, constraint and rectifier. -/
theorem forward_forced {a : Arena Rat} {q : Query Rat} {xs : List Rat}
    (hs : ofQuery a q = .ok s) (hv : s.forward xs = .ok v) :
    (∀ w, q.Solves a w → q.inputs.map w = xs → ∀ id ∈ q.nodes, s.valueOf? v id = some (w id)) ∧
      ((∃ w, q.Solves a w ∧ q.inputs.map w = xs) ↔
        q.inputs.map (s.valueOf? v) = xs.map some ∧
          s.Satisfied fun i => (v.value? i).getD 0) := by
  have hn := ofQuery_eq_ok hs
  have hagree : ∀ w, q.Solves a w → q.inputs.map w = xs →
      ∀ id ∈ q.nodes, s.valueOf? v id = some (w id) := by
    intro w hw hinputs id hid
    have hvalue : ∀ (i : Nat) (id : NodeId),
        q.nodes[i]? = some id → w (q.nodes[i]?.getD 0) = w id := by
      intro i id h
      rw [h, Option.getD_some]
    have hgiven : s.inputs.map (fun i => w (q.nodes[i]?.getD 0)) = xs := by
      rw [hn.inputs, List.map_map, ← hinputs]
      refine List.map_congr_left ?_
      intro j hj
      exact hvalue _ j (getElem?_idxOf (q.inputs_subset hj))
    have hv' := forward_agreesWith ((satisfied_iff_solves hn hvalue).2 hw) hgiven hv
    have hi : List.idxOf id q.nodes < s.size := by
      rw [size, hn.ids]
      exact List.idxOf_lt_length_of_mem hid
    obtain ⟨y, hy⟩ := Option.isSome_iff_exists.1 (forward_complete hv hi)
    rw [hn.valueOf?_eq v hid, hy, hv' _ y hy]
    exact congrArg some (hvalue _ id (getElem?_idxOf hid))
  -- The values of the assignment by member.
  have hmember : ∀ i id, q.nodes[i]? = some id →
      (v.value? i).getD 0 = (s.valueOf? v id).getD 0 := by
    intro i id h
    rw [hn.valueOf?_eq v (List.mem_of_getElem? h), idxOf_eq q.nodes_nodup h]
  refine ⟨hagree, ?_⟩
  constructor
  · rintro ⟨w, hw, hinputs⟩
    have hw' := hagree w hw hinputs
    refine ⟨?_, (satisfied_iff_solves hn ?_).2 hw⟩
    · rw [← hinputs, List.map_map]
      exact List.map_congr_left fun id hid => hw' id (q.inputs_subset hid)
    · intro i id h
      rw [hmember i id h, hw' id (List.mem_of_getElem? h), Option.getD_some]
  · rintro ⟨hinputs, hsat⟩
    refine ⟨fun id => (s.valueOf? v id).getD 0, (satisfied_iff_solves hn hmember).1 hsat, ?_⟩
    have hget := congrArg (List.map fun y => y.getD 0) hinputs
    rw [List.map_map, List.map_map] at hget
    simpa [Function.comp_def] using hget

/-- A rectifier of an affine node, and a free node that only an equation determines. -/
def sampleArena : Arena Rat :=
  ⟨#[{ kind := .plain }, { kind := .affine [(2, 0)] (-1) }, { kind := .relu 1 false },
    { kind := .plain }]⟩

/-- Asks for values of all four nodes, listed against their dependence, with `2 * n1 + 3 * n3 = 7`.
-/
def sampleQuery : Query Rat where
  nodes := [3, 0, 2, 1]
  inputs := [0]
  outputs := [3]
  equations := [⟨[(1, 2), (3, 3)], .eq, 7⟩]
  nodes_nodup := by decide
  inputs_subset := by decide
  outputs_subset := by decide
  terms_subset := by decide

/-- The numbered form of the sample. -/
def sampleSystem : ConstraintSystem Rat where
  ids := [3, 0, 2, 1]
  names := ["#3", "#0", "#2", "#1"]
  inputs := [1]
  outputs := [0]
  bounds := [⟨none, none⟩, ⟨none, none⟩, ⟨none, none⟩, ⟨none, none⟩]
  constraints := [⟨.eq, 1, [(1, 2), (3, -1)]⟩, ⟨.eq, 7, [(2, 1), (0, 3)]⟩]
  relus := [⟨3, 2⟩]

/-- On the sample, input `2` forces `4/3` on the node that only the equation determines. -/
theorem forward_forced_sample :
    ofQuery sampleArena sampleQuery = .ok sampleSystem ∧
      sampleSystem.forward [2] = .ok #[some (4 / 3), some 2, some 3, some 3] ∧
      ∀ w, sampleQuery.Solves sampleArena w → sampleQuery.inputs.map w = [2] →
        ∀ id ∈ sampleQuery.nodes,
          sampleSystem.valueOf? #[some (4 / 3), some 2, some 3, some 3] id = some (w id) := by
  have hs : ofQuery sampleArena sampleQuery = .ok sampleSystem := by rfl
  have hv : sampleSystem.forward [2] = .ok #[some (4 / 3), some 2, some 3, some 3] := by
    decide +kernel
  exact ⟨hs, hv, (forward_forced hs hv).1⟩

end ConstraintSystem

end PiecewiseNet
