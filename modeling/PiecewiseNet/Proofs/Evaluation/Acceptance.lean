import PiecewiseNet.Proofs.Evaluation.Numbering

/-!
# Accepted assignments

Validation allows every bound and constraint to be missed by a small tolerance, and so accepts
whatever satisfies them exactly.

## Main statements

- `ConstraintSystem.validate_of_satisfied`: values that satisfy a system exactly are accepted.
-/

namespace PiecewiseNet

theorem tolerance_pos : (0 : Rat) < tolerance := by
  decide +kernel

namespace ConstraintSystem

variable {s : ConstraintSystem Rat}

theorem boundViolation?_eq_none {b : Interval Rat} {x : Rat} (h : b.Holds x) (name : String) :
    boundViolation? name x b = none := by
  have hpos := tolerance_pos
  have hbelow : (b.lower.bind fun l =>
      if x < l - tolerance then some (Violation.below name x l) else none) = none := by
    rw [Option.bind_eq_none_iff]
    intro l hl
    have hle := h.1 l hl
    rw [if_neg]
    linarith
  have habove : (b.upper.bind fun u =>
      if u + tolerance < x then some (Violation.above name x u) else none) = none := by
    rw [Option.bind_eq_none_iff]
    intro u hu
    have hle := h.2 u hu
    rw [if_neg]
    linarith
  rw [boundViolation?, hbelow, habove]
  rfl

/-- The residual of a comparison that holds is within the tolerance. -/
theorem residualHolds_of_holds {c : Comparator} {total scalar : Rat} (h : c.Holds total scalar) :
    residualHolds c (total - scalar) = true := by
  have hpos := tolerance_pos
  cases c with
  | le =>
    have hle : total ≤ scalar := h
    rw [residualHolds, decide_eq_true_iff]
    linarith
  | eq =>
    have heq : total = scalar := h
    rw [residualHolds, decide_eq_true_iff, heq, sub_self]
    exact hpos
  | ge =>
    have hge : scalar ≤ total := h
    rw [residualHolds, decide_eq_true_iff]
    linarith

/-- A complete assignment of values that satisfy the system exactly is accepted. -/
theorem validate_of_satisfied {v : Assignment Rat} (hsize : v.size = s.size)
    (hcomplete : v.unassigned = []) (hs : s.Satisfied fun i => (v.value? i).getD 0) :
    s.validate v = .ok () := by
  have hbounds : (s.bounds.zipIdx.findSome? fun p =>
      boundViolation? (s.name p.2) ((v.value? p.2).getD 0) p.1) = none := by
    rw [List.findSome?_eq_none_iff]
    rintro ⟨b, i⟩ hmem
    exact boundViolation?_eq_none (hs.bounds i b (List.mem_zipIdx_iff_getElem?.1 hmem)) _
  have hconstraints : (s.constraints.zipIdx.findSome? fun p =>
      constraintViolation? (fun i => (v.value? i).getD 0) p.1 p.2) = none := by
    rw [List.findSome?_eq_none_iff]
    rintro ⟨c, i⟩ hmem
    have hc : c ∈ s.constraints := List.mem_of_getElem? (List.mem_zipIdx_iff_getElem?.1 hmem)
    simp only [constraintViolation?, residualHolds_of_holds (hs.constraints c hc), if_true]
  have hrelus : s.relus.findSome? (s.reluViolation? fun i => (v.value? i).getD 0) = none := by
    rw [List.findSome?_eq_none_iff]
    intro r hr
    rw [reluViolation?, if_pos (beq_iff_eq.2 (hs.relus r hr))]
  simp only [validate, hsize, ne_eq, not_true_eq_false, if_false, hcomplete, hbounds, hconstraints,
    hrelus, Option.or_none]

end ConstraintSystem

end PiecewiseNet
