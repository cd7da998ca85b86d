import PiecewiseNet.Proofs.Evaluation.Numbering
import Mathlib.Logic.Relation

/-!
# Steps of propagation

Propagation is a sequence of steps, each of which gives one variable a value by one of the two
rules. What every step preserves, the whole propagation preserves.

## Main definitions

- `ConstraintSystem.Step`: one variable gets a value.
- `ConstraintSystem.Stable`: neither rule applies.
- `ConstraintSystem.Passes`: what a pass over the relations does.

## Main statements

- `ConstraintSystem.steps_of_propagate`: propagation is a sequence of steps.
- `ConstraintSystem.degenerate_of_propagate`: it fails only at an equation whose last open term has
  coefficient zero.
- `ConstraintSystem.stable_of_propagate`: a round more than there are unassigned variables suffices.
-/

namespace PiecewiseNet

variable {α : Type}

/-! ## Assignments -/

namespace Assignment

@[simp] theorem size_assign (v : Assignment α) (i : Nat) (x : α) :
    (v.assign i x).size = v.size := by
  simp [assign]

theorem value?_assign (v : Assignment α) (i : Nat) (x : α) (j : Nat) :
    (v.assign i x).value? j = if i = j ∧ i < v.size then some x else v.value? j := by
  simp only [assign, value?, Array.getElem?_setIfInBounds]
  by_cases hij : i = j
  · subst hij
    by_cases hlt : i < v.size <;> simp [hlt]
  · simp [hij]

theorem mem_unassigned {v : Assignment α} {i : Nat} :
    i ∈ v.unassigned ↔ i < v.size ∧ v.value? i = none := by
  simp [unassigned]

/-- A new value leaves one variable less without a value. -/
theorem length_unassigned_assign_lt {v : Assignment α} {i : Nat} (x : α) (hi : i < v.size)
    (hv : v.value? i = none) : (v.assign i x).unassigned.length < v.unassigned.length := by
  have hfilter : (v.assign i x).unassigned = v.unassigned.filter (· != i) := by
    unfold unassigned
    rw [size_assign, List.filter_filter]
    refine List.filter_congr ?_
    intro j _
    rw [value?_assign]
    by_cases hij : i = j
    · subst hij
      simp [hi]
    · have hji : j ≠ i := Ne.symm hij
      simp [hij, hji]
  rw [hfilter, List.length_filter_lt_length_iff_exists]
  exact ⟨i, mem_unassigned.2 ⟨hi, hv⟩, by simp⟩

/-- The second assignment has the values of the first one, and possibly more. -/
structure ExtendedBy (v v' : Assignment α) : Prop where
  size : v'.size = v.size
  /-- No value is lost or changed. -/
  value : ∀ i y, v.value? i = some y → v'.value? i = some y

theorem ExtendedBy.refl (v : Assignment α) : v.ExtendedBy v :=
  ⟨rfl, fun _ _ h => h⟩

theorem ExtendedBy.trans {u v w : Assignment α} (h : u.ExtendedBy v) (h' : v.ExtendedBy w) :
    u.ExtendedBy w :=
  ⟨h'.size.trans h.size, fun i y hy => h'.value i y (h.value i y hy)⟩

/-- A value for a variable that has none changes no other. -/
theorem extendedBy_assign {v : Assignment α} {i : Nat} (x : α) (h : v.value? i = none) :
    v.ExtendedBy (v.assign i x) := by
  refine ⟨size_assign v i x, ?_⟩
  intro j y hy
  have hij : i ≠ j := by
    rintro rfl
    rw [h] at hy
    cases hy
  rw [value?_assign, if_neg (fun hc => hij hc.1)]
  exact hy

end Assignment

namespace ConstraintSystem

theorem mem_unassignedTerms {v : Assignment α} {terms : List (Nat × α)} {t : Nat × α} :
    t ∈ unassignedTerms v terms ↔ t ∈ terms ∧ v.value? t.1 = none := by
  simp [unassignedTerms]

variable [Scalar α]

/-! ## Steps -/

/-- The value that an equality gives to a term with this coefficient, all others being assigned. -/
def solution (v : Assignment α) (c : Constraint α) (coefficient : α) : α :=
  -(assignedSum v c.terms - c.scalar) / coefficient

/-- One variable gets a value: by an equality that has no other unassigned term, or by a rectifier
whose input has a value. -/
inductive Step (s : ConstraintSystem α) (v : Assignment α) : Assignment α → Prop where
  | solve {c : Constraint α} {i : Nat} {coefficient : α} (hc : c ∈ s.constraints)
      (hkind : c.kind = .eq) (hopen : unassignedTerms v c.terms = [(i, coefficient)])
      (hne : (coefficient == 0) = false) : Step s v (v.assign i (solution v c coefficient))
  | rectify {r : Rectifier} {y : α} (hr : r ∈ s.relus) (hin : v.value? r.input = some y)
      (hout : v.value? r.output = none) : Step s v (v.assign r.output (Scalar.positivePart y))

/-- An equality has a single unassigned term, and its coefficient is zero. -/
def Degenerate (v : Assignment α) (c : Constraint α) (i : Nat) : Prop :=
  c.kind = .eq ∧ ∃ coefficient, unassignedTerms v c.terms = [(i, coefficient)] ∧
    (coefficient == 0) = true

omit [Scalar α] in
/-- Neither rule applies. -/
structure Stable (s : ConstraintSystem α) (v : Assignment α) : Prop where
  /-- No equality has exactly one unassigned term. -/
  constraints : ∀ c ∈ s.constraints, c.kind = .eq → (unassignedTerms v c.terms).length ≠ 1
  /-- No rectifier with an assigned input has an unassigned output. -/
  relus : ∀ r ∈ s.relus, (v.value? r.input).isSome → (v.value? r.output).isSome

variable {s : ConstraintSystem α} {v v' : Assignment α}

/-- A step gives a value to a variable that had none. -/
theorem Step.exists_assign (h : s.Step v v') :
    ∃ i x, v' = v.assign i x ∧ v.value? i = none ∧ (s.InRange → i < s.size) := by
  cases h with
  | @solve c i coefficient hc hkind hopen hne =>
    have hmem : (i, coefficient) ∈ unassignedTerms v c.terms := by simp [hopen]
    rw [mem_unassignedTerms] at hmem
    exact ⟨i, _, rfl, hmem.2, fun hr => hr.constraints c hc _ hmem.1⟩
  | @rectify r y hr hin hout => exact ⟨r.output, _, rfl, hout, fun hs => hs.relus r hr⟩

theorem Step.extendedBy (h : s.Step v v') : v.ExtendedBy v' := by
  obtain ⟨i, x, rfl, hv, -⟩ := h.exists_assign
  exact Assignment.extendedBy_assign x hv

theorem extendedBy_of_steps (h : Relation.ReflTransGen s.Step v v') : v.ExtendedBy v' := by
  induction h with
  | refl => exact Assignment.ExtendedBy.refl v
  | tail _ hstep ih => exact ih.trans hstep.extendedBy

/-- Every step leaves one variable less without a value. -/
theorem Step.length_unassigned_lt (h : s.Step v v') (hs : s.InRange) (hsize : v.size = s.size) :
    v'.unassigned.length < v.unassigned.length := by
  obtain ⟨i, x, rfl, hv, hi⟩ := h.exists_assign
  exact Assignment.length_unassigned_assign_lt x (hsize ▸ hi hs) hv

theorem length_unassigned_le_of_steps (h : Relation.ReflTransGen s.Step v v') (hs : s.InRange)
    (hsize : v.size = s.size) : v'.unassigned.length ≤ v.unassigned.length := by
  induction h with
  | refl => exact le_rfl
  | tail hsteps hstep ih =>
    have hsize' := (extendedBy_of_steps hsteps).size.trans hsize
    exact (hstep.length_unassigned_lt hs hsize').le.trans ih

/-! ## Passes -/

/-- A pass is a sequence of steps. It begins with one if it fired, and otherwise it changed nothing
because nothing applied. -/
structure Passes (s : ConstraintSystem α) (idle : Prop) (v : Assignment α) (fired : Bool)
    (v' : Assignment α) : Prop where
  steps : Relation.ReflTransGen s.Step v v'
  /-- It begins with a step if it fired. -/
  fires : fired = true → ∃ u, s.Step v u ∧ Relation.ReflTransGen s.Step u v'
  /-- Otherwise nothing changed, and nothing applied. -/
  idles : fired = false → v' = v ∧ idle

/-- A pass that goes on after a step has fired. -/
theorem Passes.of_step {idle idle' : Prop} {u : Assignment α} {fired : Bool} (hstep : s.Step v u)
    (hrest : s.Passes idle u fired v') : s.Passes idle' v true v' :=
  ⟨.head hstep hrest.steps, fun _ => ⟨u, hstep, hrest.steps⟩, by simp⟩

theorem Passes.imp {idle idle' : Prop} {fired : Bool} (h : s.Passes idle v fired v')
    (himp : idle → idle') : s.Passes idle' v fired v' :=
  ⟨h.steps, h.fires, fun hf => (h.idles hf).imp_right himp⟩

/-- A pass over constraints idles where none of them has exactly one open term. -/
theorem passes_of_solvePass {i : Nat} {cs : List (Constraint α)} {fired : Bool}
    (hcs : cs ⊆ s.constraints) (h : s.solvePass i cs v = .ok (v', fired)) :
    s.Passes (∀ c ∈ cs, c.kind = .eq → (unassignedTerms v c.terms).length ≠ 1) v fired v' := by
  induction cs generalizing i v fired with
  | nil =>
    cases h
    exact ⟨.refl, by simp, by simp⟩
  | cons c cs ih =>
    obtain ⟨hc, hcs⟩ := List.cons_subset.1 hcs
    -- A constraint that does not apply leaves the rest of the pass as it is.
    have hskip : (c.kind = .eq → (unassignedTerms v c.terms).length ≠ 1) →
        s.solvePass (i + 1) cs v = .ok (v', fired) →
        s.Passes (∀ d ∈ c :: cs, d.kind = .eq → (unassignedTerms v d.terms).length ≠ 1) v fired
          v' := by
      intro hnot hrest
      exact (ih hcs hrest).imp fun hidle => List.forall_mem_cons.2 ⟨hnot, hidle⟩
    rw [solvePass] at h
    split at h
    · rename_i hkind
      split at h
      · rename_i x coefficient hopen
        split at h
        · cases h
        · rename_i hne
          simp only at h
          split at h
          · cases h
          · rename_i u b hrest
            cases h
            have hstep : s.Step v (v.assign x (solution v c coefficient)) :=
              .solve hc hkind hopen (by simpa using hne)
            exact .of_step hstep (ih hcs hrest)
      · rename_i hopen
        refine hskip ?_ h
        intro _ hlen
        obtain ⟨t, ht⟩ := List.length_eq_one_iff.1 hlen
        exact hopen t.1 t.2 ht
    · rename_i hkind
      exact hskip (fun hk => absurd hk hkind) h

/-- A pass over constraints fails only after some steps, at a degenerate equality, which it
reports. -/
theorem degenerate_of_solvePass {i : Nat} {cs : List (Constraint α)} {e : EvalError α}
    (hcs : s.constraints.drop i = cs) (h : s.solvePass i cs v = .error e) :
    ∃ u, Relation.ReflTransGen s.Step v u ∧ ∃ (j : Nat) (c : Constraint α) (x : Nat),
      s.constraints[j]? = some c ∧ Degenerate u c x ∧ e = .degenerate j (s.name x) := by
  induction cs generalizing i v with
  | nil => cases h
  | cons c cs ih =>
    have hc : s.constraints[i]? = some c := by
      rw [← List.head?_drop, hcs]
      rfl
    have hrest : s.constraints.drop (i + 1) = cs := by
      rw [← List.tail_drop, hcs]
      rfl
    rw [solvePass] at h
    split at h
    · rename_i hkind
      split at h
      · rename_i x coefficient hopen
        split at h
        · rename_i hzero
          cases h
          exact ⟨v, .refl, i, c, x, hc, ⟨hkind, coefficient, hopen, hzero⟩, rfl⟩
        · rename_i hne
          simp only at h
          split at h
          · rename_i err herr
            cases h
            obtain ⟨u, hsteps, hdeg⟩ := ih hrest herr
            have hstep : s.Step v (v.assign x (solution v c coefficient)) :=
              .solve (List.mem_of_getElem? hc) hkind hopen (by simpa using hne)
            exact ⟨u, .head hstep hsteps, hdeg⟩
          · cases h
      · exact ih hrest h
    · exact ih hrest h

/-- A pass over rectifiers idles where the output of each has a value if its input has one. -/
theorem passes_of_rectifyPass {rs : List Rectifier} {fired : Bool} (hrs : rs ⊆ s.relus)
    (h : rectifyPass rs v = (v', fired)) :
    s.Passes (∀ r ∈ rs, (v.value? r.input).isSome → (v.value? r.output).isSome) v fired v' := by
  induction rs generalizing v fired with
  | nil =>
    cases h
    exact ⟨.refl, by simp, by simp⟩
  | cons r rs ih =>
    obtain ⟨hr, hrs⟩ := List.cons_subset.1 hrs
    rw [rectifyPass] at h
    split at h
    · rename_i y hin hout
      cases h
      have hstep : s.Step v (v.assign r.output (Scalar.positivePart y)) := .rectify hr hin hout
      exact .of_step hstep (ih hrs rfl)
    · rename_i hnot
      refine (ih hrs h).imp fun hidle => List.forall_mem_cons.2 ⟨?_, hidle⟩
      intro hin
      obtain ⟨y, hy⟩ := Option.isSome_iff_exists.1 hin
      cases hout : v.value? r.output with
      | none => exact absurd hout (hnot y hy)
      | some z => rfl

/-! ## Propagation -/

/-- Propagation is a sequence of steps. -/
theorem steps_of_propagate {rounds : Nat} (h : s.propagate rounds v = .ok v') :
    Relation.ReflTransGen s.Step v v' := by
  induction rounds generalizing v with
  | zero =>
    cases h
    exact .refl
  | succ rounds ih =>
    rw [propagate] at h
    split at h
    · cases h
    · rename_i u hpass
      exact (passes_of_solvePass (List.Subset.refl _) hpass).steps.trans (ih h)
    · rename_i u hpass
      have hsolve := (passes_of_solvePass (List.Subset.refl _) hpass).steps
      split at h
      · rename_i w hrect
        exact hsolve.trans ((passes_of_rectifyPass (List.Subset.refl _) hrect).steps.trans (ih h))
      · rename_i w hrect
        cases h
        exact hsolve.trans (passes_of_rectifyPass (List.Subset.refl _) hrect).steps

/-- Propagation fails only after some steps, at a degenerate equality, which it reports. -/
theorem degenerate_of_propagate {rounds : Nat} {e : EvalError α}
    (h : s.propagate rounds v = .error e) :
    ∃ u, Relation.ReflTransGen s.Step v u ∧ ∃ (j : Nat) (c : Constraint α) (x : Nat),
      s.constraints[j]? = some c ∧ Degenerate u c x ∧ e = .degenerate j (s.name x) := by
  induction rounds generalizing v with
  | zero => cases h
  | succ rounds ih =>
    rw [propagate] at h
    split at h
    · rename_i err hpass
      cases h
      exact degenerate_of_solvePass List.drop_zero hpass
    · rename_i u hpass
      obtain ⟨w, hw, hdeg⟩ := ih h
      exact ⟨w, (passes_of_solvePass (List.Subset.refl _) hpass).steps.trans hw, hdeg⟩
    · rename_i u hpass
      split at h
      · rename_i u' hrect
        obtain ⟨w, hw, hdeg⟩ := ih h
        have hsolve := (passes_of_solvePass (List.Subset.refl _) hpass).steps
        have hrectify := (passes_of_rectifyPass (List.Subset.refl _) hrect).steps
        exact ⟨w, hsolve.trans (hrectify.trans hw), hdeg⟩
      · cases h

/-- A round more than there are unassigned variables suffices: neither rule applies afterwards. -/
theorem stable_of_propagate {rounds : Nat} (hs : s.InRange) (hsize : v.size = s.size)
    (hrounds : v.unassigned.length < rounds) (h : s.propagate rounds v = .ok v') :
    s.Stable v' := by
  induction rounds generalizing v with
  | zero => omega
  | succ rounds ih =>
    -- A round that assigns something leaves fewer variables for the rounds behind it.
    have hagain : ∀ u, (∃ w, s.Step v w ∧ Relation.ReflTransGen s.Step w u) →
        s.propagate rounds u = .ok v' → s.Stable v' := by
      rintro u ⟨w, hstep, hsteps⟩ hrest
      have hw := hstep.extendedBy.size.trans hsize
      refine ih ((extendedBy_of_steps hsteps).size.trans hw) ?_ hrest
      have hlt := hstep.length_unassigned_lt hs hsize
      have hle := length_unassigned_le_of_steps hsteps hs hw
      omega
    rw [propagate] at h
    split at h
    · cases h
    · rename_i u hpass
      exact hagain u ((passes_of_solvePass (List.Subset.refl _) hpass).fires rfl) h
    · rename_i u hpass
      obtain ⟨rfl, hconstraints⟩ := (passes_of_solvePass (List.Subset.refl _) hpass).idles rfl
      split at h
      · rename_i w hrect
        exact hagain w ((passes_of_rectifyPass (List.Subset.refl _) hrect).fires rfl) h
      · rename_i w hrect
        cases h
        obtain ⟨rfl, hrelus⟩ := (passes_of_rectifyPass (List.Subset.refl _) hrect).idles rfl
        exact ⟨hconstraints, hrelus⟩

end ConstraintSystem

end PiecewiseNet
