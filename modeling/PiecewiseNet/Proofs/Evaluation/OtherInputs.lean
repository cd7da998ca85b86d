import PiecewiseNet.Proofs.Evaluation.Seeding

/-!
# Evaluation on other inputs

Which rule applies next depends on which variables have values and not on what these are. So
propagation takes the same course on all input vectors: it assigns the same variables, and if it
fails, then at the same equation.

## Main definitions

- `Assignment.SameDomain`: the same variables have values.
- `SameOutcome`: two computations return related results, or fail for one and the same cause.

## Main statements

- `ConstraintSystem.propagate_sameDomain`: two assignments with the same variables stay so.
- `ConstraintSystem.forward_sameDomain`: evaluation has the same outcome on all input vectors of one
  length, up to the values.
-/

namespace PiecewiseNet

variable {α : Type}

/-- Two computations return related results, or fail for one and the same cause. -/
inductive SameOutcome {ε β : Type} (r : β → β → Prop) : Except ε β → Except ε β → Prop where
  | ok {x y : β} (h : r x y) : SameOutcome r (.ok x) (.ok y)
  | error (cause : ε) : SameOutcome r (.error cause) (.error cause)

/-! ## Assignments -/

namespace Assignment

/-- The same variables have values. -/
structure SameDomain (v w : Assignment α) : Prop where
  size : w.size = v.size
  isSome : ∀ i, (w.value? i).isSome = (v.value? i).isSome

variable {v w : Assignment α}

theorem SameDomain.isNone (h : v.SameDomain w) (i : Nat) :
    (w.value? i).isNone = (v.value? i).isNone := by
  rw [← Option.not_isSome, ← Option.not_isSome, h.isSome]

/-- Both get a value for a variable, each its own. -/
theorem SameDomain.assign (h : v.SameDomain w) (i : Nat) (x y : α) :
    (v.assign i x).SameDomain (w.assign i y) := by
  refine ⟨by rw [size_assign, size_assign, h.size], fun j => ?_⟩
  rw [value?_assign, value?_assign, h.size]
  split
  · rfl
  · exact h.isSome j

theorem SameDomain.unassigned_eq (h : v.SameDomain w) : w.unassigned = v.unassigned := by
  rw [unassigned, unassigned, h.size]
  exact List.filter_congr fun i _ => h.isNone i

end Assignment

namespace ConstraintSystem

variable {v w : Assignment α} {s : ConstraintSystem α}

theorem unassignedTerms_sameDomain (h : v.SameDomain w) (terms : List (Nat × α)) :
    unassignedTerms w terms = unassignedTerms v terms :=
  List.filter_congr fun t _ => h.isNone t.1

variable [Scalar α]

/-! ## Propagation -/

/-- A pass over constraints solves the same equalities. -/
theorem solvePass_sameDomain (h : v.SameDomain w) (i : Nat) (cs : List (Constraint α)) :
    SameOutcome (fun x y => x.1.SameDomain y.1 ∧ x.2 = y.2) (s.solvePass i cs v)
      (s.solvePass i cs w) := by
  induction cs generalizing i v w with
  | nil => exact .ok ⟨h, rfl⟩
  | cons c cs ih =>
    rw [solvePass, solvePass, unassignedTerms_sameDomain h]
    split
    · split
      · rename_i x coefficient hopen
        split
        · exact .error _
        · have hrest := ih (h.assign x (-(assignedSum v c.terms - c.scalar) / coefficient)
            (-(assignedSum w c.terms - c.scalar) / coefficient)) (i + 1)
          dsimp only
          revert hrest
          generalize s.solvePass (i + 1) cs (v.assign x _) = outcome
          generalize s.solvePass (i + 1) cs (w.assign x _) = outcome'
          rintro (h | cause)
          · exact .ok ⟨h.1, rfl⟩
          · exact .error cause
      · exact ih h (i + 1)
    · exact ih h (i + 1)

/-- A pass over rectifiers assigns the same outputs. -/
theorem rectifyPass_sameDomain (h : v.SameDomain w) (rs : List Rectifier) :
    (rectifyPass rs v).1.SameDomain (rectifyPass rs w).1 ∧
      (rectifyPass rs v).2 = (rectifyPass rs w).2 := by
  induction rs generalizing v w with
  | nil => exact ⟨h, rfl⟩
  | cons r rs ih =>
    have hin := h.isSome r.input
    have hout := h.isSome r.output
    rw [rectifyPass, rectifyPass]
    cases hvin : v.value? r.input <;> cases hwin : w.value? r.input <;>
      cases hvout : v.value? r.output <;> cases hwout : w.value? r.output <;>
      simp only [hvin, hwin, hvout, hwout, Option.isSome_none, Option.isSome_some,
        Bool.false_eq_true, Bool.true_eq_false] at hin hout
    case some.some.none.none x y =>
      exact ⟨(ih (h.assign r.output (Scalar.positivePart x) (Scalar.positivePart y))).1, rfl⟩
    all_goals exact ih h

/-- Propagation assigns the same variables, or fails for the same cause. -/
theorem propagate_sameDomain (h : v.SameDomain w) (rounds : Nat) :
    SameOutcome Assignment.SameDomain (s.propagate rounds v) (s.propagate rounds w) := by
  induction rounds generalizing v w with
  | zero => exact .ok h
  | succ rounds ih =>
    have hsolve := solvePass_sameDomain (s := s) h 0 s.constraints
    rw [propagate, propagate]
    revert hsolve
    generalize s.solvePass 0 s.constraints v = outcome
    generalize s.solvePass 0 s.constraints w = outcome'
    rintro (@⟨⟨u, fired⟩, ⟨u', fired'⟩, hsame, hfired⟩ | cause)
    · obtain rfl : fired = fired' := hfired
      cases fired with
      | true => exact ih hsame
      | false =>
        obtain ⟨hrect, hflag⟩ := rectifyPass_sameDomain hsame s.relus
        simp only
        revert hrect hflag
        generalize rectifyPass s.relus u = next
        generalize rectifyPass s.relus u' = next'
        obtain ⟨w₁, fired₁⟩ := next
        obtain ⟨w₂, fired₂⟩ := next'
        rintro hrect rfl
        cases fired₁ with
        | true => exact ih hrect
        | false => exact .ok hrect
    · exact .error cause

/-! ## Seeds -/

omit [Scalar α] in
/-- Values given for the same inputs. -/
theorem given_sameDomain {xs ys : List α} (hlen : xs.length = ys.length) :
    (s.given xs).SameDomain (s.given ys) := by
  have hfold : ∀ (ids : List Nat) (xs ys : List α) (v w : Assignment α), v.SameDomain w →
      xs.length = ys.length →
      ((ids.zip xs).foldl (fun v p => v.assign p.1 p.2) v).SameDomain
        ((ids.zip ys).foldl (fun v p => v.assign p.1 p.2) w) := by
    intro ids
    induction ids with
    | nil => exact fun _ _ _ _ h _ => h
    | cons i ids ih =>
      rintro (_ | ⟨x, xs⟩) (_ | ⟨y, ys⟩) v w h hlen
      · exact h
      · cases hlen
      · cases hlen
      · exact ih xs ys _ _ (h.assign i x y) (Nat.succ.inj hlen)
  exact hfold s.inputs xs ys _ _ ⟨rfl, fun _ => rfl⟩ hlen

/-- The same variables are seeded. -/
theorem seed_sameDomain {xs ys : List α} (hlen : xs.length = ys.length) :
    (s.seed xs).SameDomain (s.seed ys) := by
  refine ⟨by rw [size_seed, size_seed], fun i => ?_⟩
  by_cases hi : i < s.size
  · rw [value?_seed hi, value?_seed hi]
    have hgiven := (given_sameDomain (s := s) hlen).isSome i
    split
    · split
      · rfl
      · exact hgiven
    · exact hgiven
  · have hnone : ∀ zs : List α, (s.seed zs).value? i = none := by
      intro zs
      rw [Assignment.value?, Array.getElem?_eq_none (by rw [size_seed]; omega)]
      rfl
    rw [hnone, hnone]

/-- On all input vectors of one length evaluation assigns the same variables, or fails for the same
cause. -/
theorem forward_sameDomain {xs ys : List α} (hlen : xs.length = ys.length) :
    SameOutcome Assignment.SameDomain (s.forward xs) (s.forward ys) := by
  have hseed := seed_sameDomain (s := s) hlen
  have hpropagate := propagate_sameDomain (s := s) hseed ((s.seed xs).unassigned.length + 1)
  rw [forward, forward, ← hlen]
  split
  · exact .error _
  · dsimp only
    rw [hseed.unassigned_eq]
    revert hpropagate
    generalize s.propagate _ (s.seed xs) = outcome
    generalize s.propagate _ (s.seed ys) = outcome'
    rintro (hsame | cause)
    · dsimp only
      rw [hsame.unassigned_eq]
      split
      · exact .ok hsame
      · exact .error _
    · exact .error cause

end ConstraintSystem

end PiecewiseNet
