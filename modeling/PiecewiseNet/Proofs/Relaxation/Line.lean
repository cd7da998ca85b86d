import PiecewiseNet.Override
import PiecewiseNet.Proofs.Edits
import PiecewiseNet.Proofs.Evaluation.Networks
import PiecewiseNet.Proofs.Network.Checking
import PiecewiseNet.Proofs.QueryMembers
import PiecewiseNet.Relaxation
import Mathlib.Algebra.Order.Field.Basic
import Mathlib.Algebra.Order.Field.Rat
import Mathlib.Tactic.FieldSimp
import Mathlib.Tactic.Linarith
import Mathlib.Tactic.Ring

/-!
# Lines of relaxed rectifiers

The line of a relaxation runs through the middle of the triangle that encloses the rectifier: on
the interval it is never further away from the rectifier than at the ends and at zero, where the
distance is the error of the relaxation. A relaxed query puts the free output of a neuron on this
line.

## Main statements

- `abs_relaxationValue_sub_max_le`: the line is close to the rectifier.
- `relaxationValue_nonneg_iff`: where the line is negative, though the rectifier never is.
- `relaxationEquation_holds_iff`: the equation of the line says that a node lies on it.
- `Network.relaxedQuery_eq_ok_iff`: when there is a relaxed query, and what it adds.
-/

namespace PiecewiseNet

/-! ## The line and the rectifier -/

section Line

variable {l u x y : Rat}

theorem relaxationError_eq (l u : Rat) : relaxationError l u = -l * u / (2 * (u - l)) := by
  rw [← one_add_one_eq_two]
  rfl

theorem relaxationError_pos (hl : l < 0) (hu : 0 < u) : 0 < relaxationError l u := by
  rw [relaxationError_eq]
  exact div_pos (mul_pos (neg_pos.2 hl) hu) (mul_pos two_pos (by linarith))

/-- The line rises by its slope. -/
theorem relaxationValue_sub (l u x y : Rat) :
    relaxationValue l u y - relaxationValue l u x = u / (u - l) * (y - x) := by
  unfold relaxationValue
  ring

theorem relaxationValue_zero (l u : Rat) : relaxationValue l u 0 = relaxationError l u := by
  unfold relaxationValue
  ring

theorem relaxationValue_lower (h : l < u) : relaxationValue l u l = -relaxationError l u := by
  have hwidth : u - l ≠ 0 := by linarith
  unfold relaxationValue
  rw [relaxationError_eq]
  field_simp
  ring

theorem relaxationValue_upper (h : l < u) : relaxationValue l u u = u - relaxationError l u := by
  have hwidth : u - l ≠ 0 := by linarith
  unfold relaxationValue
  rw [relaxationError_eq]
  field_simp
  ring

/-- The line rises, but not as fast as the identity. -/
theorem relaxationValue_mono (hl : l < 0) (hu : 0 < u) (h : x ≤ y) :
    relaxationValue l u x ≤ relaxationValue l u y ∧
      relaxationValue l u y - y ≤ relaxationValue l u x - x := by
  have hslope : 0 ≤ u / (u - l) ∧ u / (u - l) ≤ 1 :=
    ⟨div_nonneg hu.le (by linarith), (div_le_one (by linarith)).2 (by linarith)⟩
  have hrise := relaxationValue_sub l u x y
  have hlow : 0 ≤ u / (u - l) * (y - x) := mul_nonneg hslope.1 (sub_nonneg.2 h)
  have hhigh : u / (u - l) * (y - x) ≤ y - x :=
    mul_le_of_le_one_left (sub_nonneg.2 h) hslope.2
  exact ⟨by linarith, by linarith⟩

/-- On the interval the line is as close to the rectifier as the error says. -/
theorem abs_relaxationValue_sub_max_le (hl : l < 0) (hu : 0 < u) (hlow : l ≤ x) (hhigh : x ≤ u) :
    |relaxationValue l u x - max 0 x| ≤ relaxationError l u := by
  have hlower := relaxationValue_lower (hl.trans hu)
  have hzero := relaxationValue_zero l u
  have hupper := relaxationValue_upper (hl.trans hu)
  rw [abs_le]
  -- Below zero the distance rises with the line, above zero it falls with the identity.
  rcases le_total x 0 with hneg | hpos
  · have hleft := (relaxationValue_mono hl hu hlow).1
    have hright := (relaxationValue_mono hl hu hneg).1
    rw [max_eq_left hneg]
    exact ⟨by linarith, by linarith⟩
  · have hleft := (relaxationValue_mono hl hu hpos).2
    have hright := (relaxationValue_mono hl hu hhigh).2
    rw [max_eq_right hpos]
    exact ⟨by linarith, by linarith⟩

/-- At the ends and at zero the distance is the error. -/
theorem abs_relaxationValue_sub_max_eq (hl : l < 0) (hu : 0 < u) (hx : x = l ∨ x = 0 ∨ x = u) :
    |relaxationValue l u x - max 0 x| = relaxationError l u := by
  have herror := relaxationError_pos hl hu
  rcases hx with rfl | rfl | rfl
  · rw [relaxationValue_lower (hl.trans hu), max_eq_left hl.le, sub_zero, abs_neg,
      abs_of_pos herror]
  · rw [relaxationValue_zero, max_self, sub_zero, abs_of_pos herror]
  · rw [relaxationValue_upper (hl.trans hu), max_eq_right hu.le, sub_sub_cancel_left, abs_neg,
      abs_of_pos herror]

/-- The line crosses zero in the middle of the lower half of the interval. -/
theorem relaxationValue_nonneg_iff (hl : l < 0) (hu : 0 < u) :
    0 ≤ relaxationValue l u x ↔ l ≤ 2 * x := by
  have hwidth : 0 < u - l := by linarith
  have hvalue : relaxationValue l u x = u / (2 * (u - l)) * (2 * x - l) := by
    unfold relaxationValue
    rw [relaxationError_eq]
    field_simp
    ring
  rw [hvalue, mul_nonneg_iff_of_pos_left (div_pos hu (mul_pos two_pos hwidth)), sub_nonneg]

end Line

/-! ## The equation of the line -/

theorem exists_relaxationEquation_iff {pre post : NodeId} {l u : Rat} :
    (∃ e, relaxationEquation pre post l u = .ok e) ↔ l < u := by
  unfold relaxationEquation
  split <;> simp_all

theorem nodes_of_relaxationEquation {pre post : NodeId} {l u : Rat} {e : Equation Rat}
    (h : relaxationEquation pre post l u = .ok e) : e.nodes = [post, pre] := by
  unfold relaxationEquation at h
  split at h
  · cases h
    rfl
  · cases h

/-- The equation of the line says that the second node lies on the line over the first one. -/
theorem relaxationEquation_holds_iff {pre post : NodeId} {l u : Rat} {e : Equation Rat}
    (h : relaxationEquation pre post l u = .ok e) (v : Valuation Rat) :
    e.Holds v ↔ v post = relaxationValue l u (v pre) := by
  unfold relaxationEquation at h
  split at h
  · cases h
    show 0 + v post * 1 + v pre * -(u / (u - l)) = relaxationError l u ↔ _
    unfold relaxationValue
    constructor <;> intro h <;> linarith
  · cases h

namespace Network

variable {net : Network} {a : Arena Rat} {layer neuron : Nat} {l u : Rat} {q : Query Rat}

/-- There is a relaxed query exactly for a neuron that consists of a head and a free node: it is the
query of the network and the equation of the line. -/
theorem relaxedQuery_eq_ok_iff :
    net.relaxedQuery layer neuron l u a = .ok q ↔
      ∃ pre post n runs e, chainAt net.layers layer neuron = some [pre, post] ∧
        a.get? post = some n ∧ n.kind.isPlain = true ∧ net.toQuery = .ok runs ∧
        relaxationEquation pre post l u = .ok e ∧ runs.pushEquation e = .ok q ∧
        q.checkIntegrity a = .ok () := by
  have hnode : ∀ id n, a.node id = .ok n ↔ a.get? id = some n := by
    intro id n
    unfold Arena.node
    cases a.get? id <;> simp
  unfold relaxedQuery
  constructor
  · intro h
    obtain ⟨c, hc, h⟩ := bind_eq_ok_iff.1 h
    split at h
    · rename_i pre post
      obtain ⟨n, hn, h⟩ := bind_eq_ok_iff.1 h
      split at h
      · rename_i hplain
        obtain ⟨runs, hruns, h⟩ := bind_eq_ok_iff.1 h
        obtain ⟨e, he, h⟩ := bind_eq_ok_iff.1 h
        obtain ⟨q', hq, h⟩ := bind_eq_ok_iff.1 h
        obtain ⟨_, hcheck, h⟩ := bind_eq_ok_iff.1 h
        obtain rfl : q' = q := Except.ok.inj h
        exact ⟨pre, post, n, runs, e, chain_eq_ok_iff.1 hc, (hnode post n).1 hn, hplain, hruns, he,
          hq, hcheck⟩
      · cases h
    · cases h
  · rintro ⟨pre, post, n, runs, e, hc, hn, hplain, hruns, he, hq, hcheck⟩
    refine bind_eq_ok_iff.2 ⟨[pre, post], chain_eq_ok_iff.2 hc, ?_⟩
    refine bind_eq_ok_iff.2 ⟨n, (hnode post n).2 hn, ?_⟩
    rw [if_pos hplain]
    refine bind_eq_ok_iff.2 ⟨runs, hruns, bind_eq_ok_iff.2 ⟨e, he, bind_eq_ok_iff.2 ⟨q, hq, ?_⟩⟩⟩
    exact bind_eq_ok_iff.2 ⟨(), hcheck, rfl⟩

/-- Whether there is a relaxed query depends on the neuron and the interval only. -/
theorem exists_relaxedQuery {pre post : NodeId} (hnet : net.WellFormed a)
    (hc : chainAt net.layers layer neuron = some [pre, post]) (hpost : IsFree a post) (h : l < u) :
    ∃ q, net.relaxedQuery layer neuron l u a = .ok q := by
  obtain ⟨n, hn, hplain⟩ := hpost
  obtain ⟨runs, hruns, hnodes, -⟩ := exists_toQuery (α := Rat) hnet
  obtain ⟨e, he⟩ : ∃ e, relaxationEquation pre post l u = .ok e :=
    exists_relaxationEquation_iff.2 h
  have hterms : e.nodes ⊆ runs.nodes := by
    rw [nodes_of_relaxationEquation he, hnodes, List.cons_subset, List.cons_subset]
    exact ⟨mem_nodes hc (by simp), mem_nodes hc (by simp), List.nil_subset _⟩
  obtain ⟨q, hq⟩ := Query.exists_pushEquation_iff.2 hterms
  have hcheck := hnet.checkIntegrity_toQuery hruns
  rw [Query.checkIntegrity_eq_ok_iff, ← (Query.pushEquation_eq_ok hq).1,
    ← Query.checkIntegrity_eq_ok_iff] at hcheck
  exact ⟨q, relaxedQuery_eq_ok_iff.2 ⟨pre, post, n, runs, e, hc, hn, by rw [hplain]; rfl, hruns, he,
    hq, hcheck⟩⟩

theorem inputs_of_relaxedQuery (hq : net.relaxedQuery layer neuron l u a = .ok q) :
    q.inputs = net.inputs := by
  obtain ⟨-, -, -, runs, e, -, -, -, hruns, -, hpush, -⟩ := relaxedQuery_eq_ok_iff.1 hq
  exact (Query.pushEquation_eq_ok hpush).2.1.trans (Query.new_eq_ok hruns).2.1

/-- The solutions of a relaxed query are the runs in which the free node lies on the line. -/
theorem solves_relaxedQuery_iff {pre post : NodeId}
    (hc : chainAt net.layers layer neuron = some [pre, post])
    (hq : net.relaxedQuery layer neuron l u a = .ok q) {v : Valuation Rat} :
    q.Solves a v ↔ net.Runs a v ∧ v post = relaxationValue l u (v pre) := by
  obtain ⟨pre', post', n, runs, e, hc', -, -, hruns, he, hpush, -⟩ := relaxedQuery_eq_ok_iff.1 hq
  obtain ⟨rfl, rfl⟩ : pre = pre' ∧ post = post' := by simpa using hc.symm.trans hc'
  obtain ⟨hnodes, -, -, hequations⟩ := Query.pushEquation_eq_ok hpush
  obtain ⟨hnodes', -, -, hequations'⟩ := Query.new_eq_ok hruns
  rw [hequations', List.nil_append] at hequations
  have hmem : ∀ id, id ∈ q.nodes ↔ id ∈ net.nodes := by
    intro id
    rw [hnodes, hnodes', List.mem_eraseDups]
  rw [← relaxationEquation_holds_iff he]
  constructor
  · intro h
    refine ⟨fun id hid => h.nodes id ((hmem id).2 hid), h.equations e ?_⟩
    rw [hequations]
    exact List.mem_singleton_self e
  · rintro ⟨hruns, hline⟩
    refine ⟨fun id hid => hruns id ((hmem id).1 hid), ?_⟩
    rwa [hequations, List.forall_mem_singleton]

/-- The error of a relaxation is positive, and on the interval the line is never further away from
the rectifier than this error, with equality at the ends and at zero. In every solution of a relaxed
query the tail of the neuron lies on the line over its head, so it is as close to the rectifier
wherever the head lies in the interval. -/
theorem relaxation_close_to_rectifier (hl : l < 0) (hu : 0 < u) :
    0 < relaxationError l u ∧
      (∀ x, l ≤ x → x ≤ u → |relaxationValue l u x - max 0 x| ≤ relaxationError l u) ∧
      (∀ x, x = l ∨ x = 0 ∨ x = u → |relaxationValue l u x - max 0 x| = relaxationError l u) ∧
      ∀ (net : Network) (a : Arena Rat) (layer neuron : Nat) (q : Query Rat),
        net.relaxedQuery layer neuron l u a = .ok q →
          ∃ head tail, chainAt net.layers layer neuron = some [head, tail] ∧
            ∀ v, q.Solves a v → v tail = relaxationValue l u (v head) ∧
              (l ≤ v head → v head ≤ u → |v tail - max 0 (v head)| ≤ relaxationError l u) := by
  have hclose := fun x => abs_relaxationValue_sub_max_le (x := x) hl hu
  refine ⟨relaxationError_pos hl hu, hclose, fun x => abs_relaxationValue_sub_max_eq hl hu, ?_⟩
  intro net a layer neuron q hq
  obtain ⟨head, tail, -, -, -, hc, -⟩ := relaxedQuery_eq_ok_iff.1 hq
  refine ⟨head, tail, hc, fun v hv => ?_⟩
  have hline := ((solves_relaxedQuery_iff hc hq).1 hv).2
  refine ⟨hline, fun hlow hhigh => ?_⟩
  rw [hline]
  exact hclose (v head) hlow hhigh

/-- Between minus one and one the line rises from minus a quarter to three quarters; a rectifier of
the sample that was set free lies on it. -/
theorem relaxation_close_to_rectifier_sample :
    (-1 : Rat) < 0 ∧ (0 : Rat) < 1 ∧ 0 < relaxationError (-1 : Rat) 1 ∧
      ∃ net b,
        (sample.override (OrderedMap.empty.insert (1, 0) .nofunc)).Yields Arena.sample net b ∧
        ∃ q, net.relaxedQuery 1 0 (-1) 1 b = .ok q ∧
          ∀ v, q.Solves b v → v 6 = 1 / 2 * v 1 + 1 / 4 := by
  have hlower : (-1 : Rat) < 0 := by decide
  have hupper : (0 : Rat) < 1 := by decide
  have hfreed : ∃ net b,
      (sample.override (OrderedMap.empty.insert (1, 0) .nofunc)).Yields Arena.sample net b ∧
        chainAt net.layers 1 0 = some [1, 6] ∧
          (net.relaxedQuery 1 0 (-1) 1 b).isOk = true := by
    rw [Edit.exists_yields_and_iff]
    decide +kernel
  obtain ⟨net, b, hyields, hc, hrelaxed⟩ := hfreed
  obtain ⟨hpos, -, -, hquery⟩ := relaxation_close_to_rectifier hlower hupper
  refine ⟨hlower, hupper, hpos, net, b, hyields, ?_⟩
  obtain ⟨q, hq⟩ := exists_eq_ok_iff.2 hrelaxed
  obtain ⟨head, tail, hc', hline⟩ := hquery net b 1 0 q hq
  obtain ⟨rfl, rfl⟩ : 1 = head ∧ 6 = tail := by simpa using hc.symm.trans hc'
  refine ⟨q, hq, fun v hv => ?_⟩
  have herror : relaxationError (-1 : Rat) 1 = 1 / 4 := by decide +kernel
  rw [(hline v hv).1, relaxationValue, herror]
  norm_num

end Network

end PiecewiseNet
