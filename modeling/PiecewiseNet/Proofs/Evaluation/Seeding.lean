import PiecewiseNet.Proofs.Evaluation.Steps

/-!
# Seeds of propagation

Propagation starts from the given values of the inputs, each replaced by the value of coinciding
bounds where a variable has these.

## Main statements

- `ConstraintSystem.value?_seed`: the value that a variable starts with.
- `ConstraintSystem.seed_eq_some`, `ConstraintSystem.isSome_seed`: where it comes from, and which
  variables have one.
-/

namespace PiecewiseNet

namespace ConstraintSystem

variable {α : Type} {s : ConstraintSystem α}

/-! ## Given values -/

section Given

variable {v : Assignment α}

theorem size_foldl_assign {pairs : List (Nat × α)} :
    (pairs.foldl (fun v p => v.assign p.1 p.2) v).size = v.size := by
  induction pairs generalizing v with
  | nil => rfl
  | cons p pairs ih => rw [List.foldl_cons, ih, Assignment.size_assign]

/-- A value assigned from a list of pairs stood there before or is in the list. -/
theorem value?_foldl_assign {pairs : List (Nat × α)} {i : Nat} {y : α}
    (h : (pairs.foldl (fun v p => v.assign p.1 p.2) v).value? i = some y) :
    v.value? i = some y ∨ (i, y) ∈ pairs := by
  induction pairs generalizing v with
  | nil => exact .inl h
  | cons p pairs ih =>
    rcases ih h with hv | hmem
    · rw [Assignment.value?_assign] at hv
      split at hv
      · rename_i hp
        cases hv
        exact .inr (by simp [← hp.1])
      · exact .inl hv
    · exact .inr (List.mem_cons_of_mem _ hmem)

/-- Every variable of a list of pairs gets a value. -/
theorem isSome_foldl_assign {pairs : List (Nat × α)} {i : Nat} (hi : i < v.size)
    (h : i ∈ pairs.map Prod.fst ∨ (v.value? i).isSome) :
    ((pairs.foldl (fun v p => v.assign p.1 p.2) v).value? i).isSome := by
  induction pairs generalizing v with
  | nil => simpa using h
  | cons p pairs ih =>
    refine ih (by simpa using hi) ?_
    rw [Assignment.value?_assign]
    by_cases hp : p.1 = i
    · exact .inr (by simp [hp, hi])
    · rw [List.map_cons, List.mem_cons] at h
      rcases h with (rfl | h) | h
      · exact absurd rfl hp
      · exact .inl h
      · exact .inr (by simpa [hp] using h)

/-- A value stays where none is assigned for its variable. -/
theorem value?_foldl_assign_of_ne {pairs : List (Nat × α)} {i : Nat} {y : α}
    (h : v.value? i = some y) (hne : ∀ p ∈ pairs, p.1 ≠ i) :
    (pairs.foldl (fun v p => v.assign p.1 p.2) v).value? i = some y := by
  induction pairs generalizing v with
  | nil => exact h
  | cons p pairs ih =>
    obtain ⟨hp, hne⟩ := List.forall_mem_cons.1 hne
    refine ih ?_ hne
    rw [Assignment.value?_assign, if_neg fun hpi => hp hpi.1, h]

theorem size_given (s : ConstraintSystem α) (xs : List α) : (s.given xs).size = s.size := by
  unfold given
  rw [size_foldl_assign]
  exact Array.size_replicate

theorem mem_of_value?_given {xs : List α} {i : Nat} {y : α}
    (h : (s.given xs).value? i = some y) : (i, y) ∈ s.inputs.zip xs := by
  rcases value?_foldl_assign h with hv | hmem
  · have hnone : ((Array.replicate s.size none)[i]?).getD none = (none : Option α) := by
      by_cases hi : i < s.size <;> simp [hi]
    rw [Assignment.value?, hnone] at hv
    cases hv
  · exact hmem

theorem isSome_value?_given {xs : List α} {i : Nat} (hi : i < s.size)
    (hlen : xs.length = s.inputs.length) (h : i ∈ s.inputs) :
    ((s.given xs).value? i).isSome := by
  refine isSome_foldl_assign (by simpa using hi) (.inl ?_)
  rwa [List.map_fst_zip hlen.ge]

end Given

/-! ## Seeded values -/

variable [Scalar α]

theorem size_seed (s : ConstraintSystem α) (xs : List α) : (s.seed xs).size = s.size := by
  rw [seed, Array.size_mapIdx, size_given]

/-- The value of a seeded variable: that of coinciding bounds, else that of an input. -/
theorem value?_seed {xs : List α} {i : Nat} (hi : i < s.size) :
    (s.seed xs).value? i =
      match s.bounds[i]? with
      | some ⟨some l, some u⟩ => if l == u then some u else (s.given xs).value? i
      | _ => (s.given xs).value? i := by
  have hlt : i < (s.given xs).size := by
    rw [size_given]
    exact hi
  unfold seed
  rw [Assignment.value?, Array.getElem?_mapIdx, Array.getElem?_eq_getElem hlt, Assignment.value?,
    Array.getElem?_eq_getElem hlt]
  rfl

/-- A variable whose bounds do not coincide starts with the value given for it, if one is. -/
theorem value?_seed_of_free {xs : List α} {i : Nat} (hi : i < s.size)
    (hfree : ∀ b, s.bounds[i]? = some b → b.fixedValue? = none) :
    (s.seed xs).value? i = (s.given xs).value? i := by
  rw [value?_seed hi]
  split
  · rename_i l u hb
    have hne := hfree _ hb
    rw [if_neg]
    intro heq
    simp [Interval.fixedValue?, heq] at hne
  · rfl

/-- A seeded value is that of coinciding bounds, or one given for an input without such bounds. -/
theorem seed_eq_some {xs : List α} {i : Nat} {y : α} (h : (s.seed xs).value? i = some y) :
    (∃ l, s.bounds[i]? = some ⟨some l, some y⟩ ∧ (l == y) = true) ∨
      ((i, y) ∈ s.inputs.zip xs ∧ ∀ b, s.bounds[i]? = some b → b.fixedValue? = none) := by
  have hi : i < s.size := by
    by_contra hge
    rw [Assignment.value?, Array.getElem?_eq_none (by rw [size_seed]; omega)] at h
    cases h
  rw [value?_seed hi] at h
  split at h
  · rename_i l u hb
    split at h
    · rename_i heq
      cases h
      exact .inl ⟨l, hb, heq⟩
    · rename_i hne
      refine .inr ⟨mem_of_value?_given h, ?_⟩
      intro b hb'
      rw [hb] at hb'
      cases hb'
      simpa [Interval.fixedValue?] using hne
  · rename_i hnot
    refine .inr ⟨mem_of_value?_given h, ?_⟩
    intro b hb
    unfold Interval.fixedValue?
    split
    · rename_i l u hl hu
      refine absurd ?_ (hnot l u)
      rw [hb, ← hl, ← hu]
    · rfl

/-- Inputs are seeded, and so are the variables whose bounds coincide. -/
theorem isSome_seed {xs : List α} {i : Nat} (hi : i < s.size) (hlen : xs.length = s.inputs.length)
    (h : i ∈ s.inputs ∨ ∃ b, s.bounds[i]? = some b ∧ b.fixedValue?.isSome) :
    ((s.seed xs).value? i).isSome := by
  rw [value?_seed hi]
  split
  · rename_i l u hb
    split
    · rfl
    · rename_i hne
      rcases h with hmem | ⟨b, hb', hfix⟩
      · exact isSome_value?_given hi hlen hmem
      · rw [hb] at hb'
        cases hb'
        simp [Interval.fixedValue?, hne] at hfix
  · rename_i hnot
    rcases h with hmem | ⟨⟨lower, upper⟩, hb, hfix⟩
    · exact isSome_value?_given hi hlen hmem
    · cases lower with
      | none => simp [Interval.fixedValue?] at hfix
      | some l =>
        cases upper with
        | none => simp [Interval.fixedValue?] at hfix
        | some u => exact absurd hb (hnot l u)

end ConstraintSystem

end PiecewiseNet
