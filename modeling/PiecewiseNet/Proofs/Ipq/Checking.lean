import PiecewiseNet.Ipq.Basic

/-!
# Checking records

What values satisfy of a query file speaks of finitely many records, so over the rational numbers it
can be checked.

## Main definitions

- Instances of `Decidable` for equations, for constraints and for solutions of a file.
-/

namespace PiecewiseNet

variable {v : Nat → Rat}

instance Comparator.decidableHolds {c : Comparator} {left right : Rat} :
    Decidable (c.Holds left right) :=
  match c with
  | .le => inferInstanceAs (Decidable (left ≤ right))
  | .eq => inferInstanceAs (Decidable (left = right))
  | .ge => inferInstanceAs (Decidable (right ≤ left))

instance IpqEquation.decidableHolds {e : IpqEquation Rat} : Decidable (e.Holds v) :=
  inferInstanceAs (Decidable (e.comparator.Holds (e.sum v) e.scalar))

instance IpqConstraint.decidableHolds {c : IpqConstraint} : Decidable (c.Holds v) :=
  match c with
  | .relu f b => inferInstanceAs (Decidable (v f = Scalar.positivePart (v b)))
  | .abs f b => inferInstanceAs (Decidable (v f = Scalar.magnitude (v b)))
  | .max f inputs =>
    inferInstanceAs (Decidable ((∃ i ∈ inputs, v f = v i) ∧ ∀ i ∈ inputs, v i ≤ v f))

instance IpqFile.decidableSolves {f : IpqFile Rat} : Decidable (f.Solves v) :=
  decidable_of_iff
    ((∀ e ∈ f.lowerBounds.entries, e.2 ≤ v e.1) ∧ (∀ e ∈ f.upperBounds.entries, v e.1 ≤ e.2) ∧
      (∀ e ∈ f.equations, e.Holds v) ∧ ∀ c ∈ f.constraints, c.Holds v)
    ⟨fun ⟨hl, hu, he, hc⟩ => ⟨hl, hu, he, hc⟩, fun h =>
      ⟨h.lower, h.upper, h.equations, h.constraints⟩⟩

end PiecewiseNet
