import PiecewiseNet.Interval
import Mathlib.Algebra.BigOperators.Field
import Mathlib.Algebra.Order.Field.Basic
import Mathlib.Algebra.Order.Field.Rat
import Mathlib.Tactic.Linarith
import Mathlib.Tactic.Ring

/-!
# Slices of intervals

Digits name ever smaller slices of an interval, as the digits of a fraction do.

## Main definitions

- `fraction`: the number that digits behind the point stand for.
- `Interval.IsProper`: an interval with two ends that do not exclude each other.
- `Interval.slice`: one of equally wide slices of an interval.
- `Interval.sliced`: a slice of a slice, along a list of digits.

## Main statements

- `fraction_map_range`: a fraction as a sum.
- `fraction_add_lt_one`: without the greatest digit no fraction comes close to one.
- `Interval.narrowed_slice`: narrowing an interval to a slice gives the slice.
- `Interval.sliced_mk`: where a slice of slices lies.
- `Interval.exists_slice`, `Interval.exists_sliced`: every value of an interval lies in a slice.
-/

namespace PiecewiseNet

/-! ## Fractions -/

/-- The number that the digits behind the point stand for. -/
def fraction (splits : Nat) (ds : List Nat) : Rat :=
  ds.foldr (fun d rest => (d + rest) / splits) 0

section Fraction

variable {s d : Nat} {ds : List Nat}

@[simp] theorem fraction_nil (s : Nat) : fraction s [] = 0 := rfl

@[simp] theorem fraction_cons (s d : Nat) (ds : List Nat) :
    fraction s (d :: ds) = (d + fraction s ds) / s := rfl

/-- A fraction as a sum. -/
theorem fraction_map_range (s : Nat) (f : Nat → Nat) (k : Nat) :
    fraction s ((List.range k).map f) = ∑ j ∈ Finset.range k, (f j : Rat) / s ^ (j + 1) := by
  induction k generalizing f with
  | zero => rfl
  | succ k ih =>
    have htail : ∀ j, (f (j + 1) : Rat) / s ^ (j + 1) / s = f (j + 1) / s ^ (j + 1 + 1) := by
      intro j
      rw [div_div, ← pow_succ]
    rw [List.range_succ_eq_map, List.map_cons, List.map_map, fraction_cons, ih,
      Finset.sum_range_succ', zero_add, pow_one, add_div, Finset.sum_div, add_comm]
    exact congrArg (· + (f 0 : Rat) / s) (Finset.sum_congr rfl fun j _ => htail j)

/-- A fraction and a unit in its last place. -/
theorem fraction_cons_add (s d : Nat) (ds : List Nat) :
    fraction s (d :: ds) + 1 / s ^ (d :: ds).length =
      (d + (fraction s ds + 1 / s ^ ds.length)) / s := by
  rw [fraction_cons, List.length_cons, pow_succ, ← div_div, ← add_div, add_assoc]

/-- The greatest fraction with as many digits is a unit in the last place below one. -/
theorem fraction_add_le_one (hds : ∀ d ∈ ds, d < s) : fraction s ds + 1 / s ^ ds.length ≤ 1 := by
  induction ds with
  | nil => simp
  | cons d ds ih =>
    obtain ⟨hd, hds⟩ := List.forall_mem_cons.1 hds
    have hpos : (0 : Rat) < s := Nat.cast_pos.2 (Nat.zero_lt_of_lt hd)
    have hsucc : (d : Rat) + 1 ≤ s := by exact_mod_cast hd
    rw [fraction_cons_add, div_le_one hpos]
    exact (add_le_add_right (ih hds) _).trans hsucc

/-- Without the greatest digit no fraction comes as close to one. -/
theorem fraction_add_lt_one (hne : ds ≠ []) (hds : ∀ d ∈ ds, d + 1 < s) :
    fraction s ds + 1 / s ^ ds.length < 1 := by
  cases ds with
  | nil => exact absurd rfl hne
  | cons d ds =>
    obtain ⟨hd, hds⟩ := List.forall_mem_cons.1 hds
    have hpos : (0 : Rat) < s := Nat.cast_pos.2 (Nat.zero_lt_of_lt hd)
    have hsucc : (d : Rat) + 1 < s := by exact_mod_cast hd
    have hrest := fraction_add_le_one fun e he => Nat.lt_of_succ_lt (hds e he)
    rw [fraction_cons_add, div_lt_one hpos]
    exact (add_le_add_right hrest _).trans_lt hsucc

end Fraction

/-! ## Slices -/

namespace Interval

/-- The interval has two ends, which do not exclude each other. -/
def IsProper (i : Interval Rat) : Prop :=
  ∃ l u, i = ⟨some l, some u⟩ ∧ l ≤ u

/-- One of `splits` equally wide slices of an interval. -/
def slice (i : Interval Rat) (splits d : Nat) : Interval Rat :=
  match i.lower, i.upper with
  | some l, some u =>
    ⟨some (l + d * ((u - l) / splits)), some (l + d * ((u - l) / splits) + (u - l) / splits)⟩
  | _, _ => i

/-- A slice of a slice, along the digits. -/
def sliced (i : Interval Rat) (splits : Nat) (ds : List Nat) : Interval Rat :=
  ds.foldl (fun i d => i.slice splits d) i

section

variable {i : Interval Rat} {s d : Nat} {ds : List Nat} {l u x : Rat}

theorem slice_mk (s d : Nat) (l u : Rat) : (⟨some l, some u⟩ : Interval Rat).slice s d =
    ⟨some (l + d * ((u - l) / s)), some (l + d * ((u - l) / s) + (u - l) / s)⟩ := rfl

@[simp] theorem sliced_nil (i : Interval Rat) (s : Nat) : i.sliced s [] = i := rfl

@[simp] theorem sliced_cons (i : Interval Rat) (s d : Nat) (ds : List Nat) :
    i.sliced s (d :: ds) = (i.slice s d).sliced s ds := rfl

theorem holds_mk_iff : (⟨some l, some u⟩ : Interval Rat).Holds x ↔ l ≤ x ∧ x ≤ u := by
  simp [Holds]

/-- The width of a slice is not negative. -/
theorem width_nonneg (h : l ≤ u) (s : Nat) : 0 ≤ (u - l) / (s : Rat) :=
  div_nonneg (sub_nonneg.2 h) (Nat.cast_nonneg s)

theorem IsProper.slice (h : i.IsProper) (s d : Nat) : (i.slice s d).IsProper := by
  obtain ⟨l, u, rfl, hle⟩ := h
  exact ⟨_, _, slice_mk s d l u, le_add_of_nonneg_right (width_nonneg hle s)⟩

theorem IsProper.sliced (h : i.IsProper) (s : Nat) (ds : List Nat) : (i.sliced s ds).IsProper := by
  induction ds generalizing i with
  | nil => exact h
  | cons d ds ih => exact ih (h.slice s d)

/-- The last slice ends where the interval does. -/
theorem slice_le (h : l ≤ u) (hd : d < s) : l + d * ((u - l) / s) + (u - l) / s ≤ u := by
  have hpos : (0 : Rat) < s := Nat.cast_pos.2 (Nat.zero_lt_of_lt hd)
  have hsucc : (d : Rat) + 1 ≤ s := by exact_mod_cast hd
  have hall : (d + 1) * ((u - l) / s) ≤ s * ((u - l) / s) :=
    mul_le_mul_of_nonneg_right hsucc (width_nonneg h s)
  rw [mul_div_cancel₀ _ hpos.ne'] at hall
  linarith

/-- Narrowing an interval to a slice gives the slice, and something is left. -/
theorem narrowed_slice (h : i.IsProper) (hd : d < s) :
    i.narrowed (i.slice s d).lower (i.slice s d).upper = i.slice s d ∧
      (i.slice s d).isEmpty = false := by
  obtain ⟨l, u, rfl, hle⟩ := h
  have hwidth := width_nonneg hle s
  have hlow : l ≤ l + d * ((u - l) / s) :=
    le_add_of_nonneg_right (mul_nonneg (Nat.cast_nonneg d) hwidth)
  have hhigh := slice_le hle hd
  rw [slice_mk]
  refine ⟨?_, ?_⟩
  · simp [narrowed, mergeEnds, Scalar.larger, Scalar.smaller, hlow, hhigh]
  · simpa [isEmpty] using hwidth

/-- The slices of slices of an interval lie as the fraction says. -/
theorem sliced_mk (s : Nat) (ds : List Nat) (l u : Rat) :
    (⟨some l, some u⟩ : Interval Rat).sliced s ds =
      ⟨some (l + (u - l) * fraction s ds),
        some (l + (u - l) * fraction s ds + (u - l) / s ^ ds.length)⟩ := by
  induction ds generalizing l u with
  | nil => simp
  | cons d ds ih =>
    have hlower : l + d * ((u - l) / s) + (u - l) / s * fraction s ds =
        l + (u - l) * fraction s (d :: ds) := by
      rw [fraction_cons]
      ring
    rw [sliced_cons, slice_mk, ih, add_sub_cancel_left, hlower, List.length_cons, pow_succ',
      div_div]

/-! ## Slices cover -/

/-- Every value of an interval lies in a slice; if the interval holds no other value, in the first
one. -/
theorem exists_slice (hs : 0 < s) (h : i.IsProper) (hx : i.Holds x) :
    ∃ d < s, (i.lower = i.upper → d = 0) ∧ (i.slice s d).Holds x := by
  obtain ⟨l, u, rfl, hle⟩ := h
  obtain ⟨hlow, hhigh⟩ := holds_mk_iff.1 hx
  have hpos : (0 : Rat) < s := Nat.cast_pos.2 hs
  have hlast : x ≤ l + (s - 1 : Nat) * ((u - l) / s) + (u - l) / s := by
    rw [Nat.cast_sub hs]
    have hall : s * ((u - l) / s) = u - l := mul_div_cancel₀ _ hpos.ne'
    push_cast
    linarith
  -- The first slice that does not end before the value.
  have hex : ∃ d : Nat, x ≤ l + d * ((u - l) / s) + (u - l) / s := ⟨s - 1, hlast⟩
  refine ⟨Nat.find hex, ?_, ?_, ?_⟩
  · exact Nat.lt_of_le_of_lt (Nat.find_min' hex hlast) (Nat.sub_lt hs Nat.one_pos)
  · intro heq
    obtain rfl : l = u := Option.some.inj heq
    refine Nat.le_zero.1 (Nat.find_min' hex ?_)
    simpa using hhigh
  · rw [slice_mk, holds_mk_iff]
    refine ⟨?_, Nat.find_spec hex⟩
    cases hfind : Nat.find hex with
    | zero => simpa using hlow
    | succ d =>
      have hbefore := Nat.find_min hex (m := d) (by omega)
      rw [not_le] at hbefore
      push_cast
      linarith

/-- Every value of an interval lies in a slice of slices. -/
theorem exists_sliced (hs : 0 < s) (h : i.IsProper) (hx : i.Holds x) (k : Nat) :
    ∃ ds, ds.length = k ∧ (∀ d ∈ ds, d < s) ∧ (i.lower = i.upper → ∀ d ∈ ds, d = 0) ∧
      (i.sliced s ds).Holds x := by
  induction k generalizing i with
  | zero => exact ⟨[], rfl, by simp, by simp, hx⟩
  | succ k ih =>
    obtain ⟨d, hd, hzero, hslice⟩ := exists_slice hs h hx
    obtain ⟨ds, hlen, hds, hzeros, hsliced⟩ := ih (h.slice s d) hslice
    refine ⟨d :: ds, by rw [List.length_cons, hlen], List.forall_mem_cons.2 ⟨hd, hds⟩, ?_, hsliced⟩
    intro heq
    refine List.forall_mem_cons.2 ⟨hzero heq, hzeros ?_⟩
    obtain ⟨l, u, rfl, -⟩ := h
    obtain rfl : l = u := Option.some.inj heq
    simp [slice_mk]

end

end Interval

end PiecewiseNet
