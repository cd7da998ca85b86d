import PiecewiseNet.Proofs.FailedEdits

/-!
# Narrowing a node again and again

A node is narrowed to one interval after the other, and a narrowing that would leave nothing is
passed over. Where the scalars are in a linear order, the order of the intervals does not matter as
long as they have a value in common: every narrowing succeeds, and the node ends with the
intersection of all of them. Where they have none, a narrowing fails in every order; but which one
it is, and what the others leave behind, depends on the order.

## Main definitions

- `Interval.IsIntersection`: an interval with the tightest of the ends that others have.
- `Edit.limitEach`: narrowing a node to one interval after the other, past failures.
- `Edit.Narrows`: what one narrowing does to a node.

## Main statements

- `Interval.exists_holds_iff`: an interval has a value unless its ends exclude each other.
- `Interval.isIntersection_narrowedAll`: narrowing computes the intersection.
- `Edit.limitEach_of_common`, `Edit.exists_error_of_not_common`: with and without a common value.
- `Edit.limitEach_perm`: narrowing in any order.
-/

namespace PiecewiseNet

variable {α : Type}

theorem Arena.set_set (a : Arena α) (id : NodeId) (m n : Node α) :
    (a.set id m).set id n = a.set id n :=
  congrArg Arena.mk (Array.setIfInBounds_setIfInBounds m)

theorem Arena.set_of_get? {a : Arena α} {id : NodeId} {n : Node α} (hn : a.get? id = some n) :
    a.set id n = a := by
  obtain ⟨hlt, rfl⟩ := Array.getElem?_eq_some_iff.1 hn
  rw [Arena.set, Array.setIfInBounds_def, dif_pos hlt, Array.set_getElem_self]

theorem Arena.get?_set_self {a : Arena α} {id : NodeId} {n : Node α} (hn : a.get? id = some n)
    (m : Node α) : (a.set id m).get? id = some m := by
  rw [get?_set, if_pos ⟨rfl, lt_size_of_get? hn⟩]

namespace Interval

/-! ## Tightest ends -/

/-- Among the ends that are given, `x` is one that the relation puts behind all of them. -/
def TightestEnd (R : α → α → Prop) (ends : List (Option α)) (x : α) : Prop :=
  some x ∈ ends ∧ ∀ y, some y ∈ ends → R y x

/-- Of two values `choose` takes the one that the relation puts behind the other. -/
structure Takes (R : α → α → Prop) (choose : α → α → α) : Prop where
  eq_or_eq : ∀ x y, choose x y = x ∨ choose x y = y
  left : ∀ x y, R x (choose x y)
  right : ∀ x y, R y (choose x y)
  refl : ∀ x, R x x
  trans : ∀ x y z, R x y → R y z → R x z
  antisymm : ∀ x y, R x y → R y x → x = y

variable {R : α → α → Prop} {choose : α → α → α} {x : α}

theorem tightestEnd_none_cons {ends : List (Option α)} :
    TightestEnd R (none :: ends) x ↔ TightestEnd R ends x := by
  simp [TightestEnd]

/-- Two ends that are given count as the one that is taken. -/
theorem Takes.tightestEnd_some_cons (h : Takes R choose) {y z : α} {ends : List (Option α)} :
    TightestEnd R (some (choose y z) :: ends) x ↔ TightestEnd R (some y :: some z :: ends) x := by
  simp only [TightestEnd, List.mem_cons, Option.some.injEq]
  constructor
  · rintro ⟨hmem, hlast⟩
    have hchosen : R (choose y z) x := hlast _ (.inl rfl)
    refine ⟨?_, ?_⟩
    · rcases hmem with rfl | hmem
      · rcases h.eq_or_eq y z with heq | heq
        · exact .inl heq
        · exact .inr (.inl heq)
      · exact .inr (.inr hmem)
    · rintro w (rfl | rfl | hw)
      · exact h.trans _ _ _ (h.left w z) hchosen
      · exact h.trans _ _ _ (h.right y w) hchosen
      · exact hlast w (.inr hw)
  · rintro ⟨hmem, hlast⟩
    have hy : R y x := hlast y (.inl rfl)
    have hz : R z x := hlast z (.inr (.inl rfl))
    have hchosen : R (choose y z) x := by
      rcases h.eq_or_eq y z with heq | heq <;> rw [heq]
      · exact hy
      · exact hz
    refine ⟨?_, ?_⟩
    · rcases hmem with rfl | rfl | hmem
      · exact .inl (h.antisymm _ _ (h.left x z) hchosen)
      · exact .inl (h.antisymm _ _ (h.right y x) hchosen)
      · exact .inr hmem
    · rintro w (rfl | hw)
      · exact hchosen
      · exact hlast w (.inr (.inr hw))

/-- Merging ends one after the other leaves the tightest of them. -/
theorem Takes.foldl_mergeEnds_eq_some_iff (h : Takes R choose) {e : Option α}
    {ends : List (Option α)} :
    ends.foldl (mergeEnds choose) e = some x ↔ TightestEnd R (e :: ends) x := by
  induction ends generalizing e with
  | nil =>
    simp only [List.foldl_nil, TightestEnd, List.mem_singleton]
    constructor
    · rintro rfl
      exact ⟨rfl, fun y hy => Option.some.inj hy ▸ h.refl y⟩
    · exact fun hx => hx.1.symm
  | cons e' ends ih =>
    rw [List.foldl_cons, ih]
    cases e with
    | none =>
      rw [tightestEnd_none_cons]
      rfl
    | some y =>
      cases e' with
      | none =>
        -- An absent end does not matter, wherever it stands.
        simp [TightestEnd, mergeEnds]
      | some z => exact h.tightestEnd_some_cons

/-- A value lies within merged ends when it lies within both. -/
theorem Takes.forall_mergeEnds (h : Takes R choose) {e e' : Option α} :
    (∀ y, mergeEnds choose e e' = some y → R y x) ↔
      (∀ y, e = some y → R y x) ∧ ∀ y, e' = some y → R y x := by
  cases e with
  | none => simp [mergeEnds]
  | some y =>
    cases e' with
    | none => simp [mergeEnds]
    | some z =>
      simp only [mergeEnds, Option.some.injEq, forall_eq']
      constructor
      · exact fun hx => ⟨h.trans _ _ _ (h.left y z) hx, h.trans _ _ _ (h.right y z) hx⟩
      · rintro ⟨hy, hz⟩
        rcases h.eq_or_eq y z with heq | heq <;> rw [heq]
        · exact hy
        · exact hz

/-- In a total order one of two values comes behind the other. -/
theorem takes_ite [DecidableRel R] (hrefl : ∀ x, R x x) (htrans : ∀ x y z, R x y → R y z → R x z)
    (hantisymm : ∀ x y, R x y → R y x → x = y) (htotal : ∀ x y, R x y ∨ R y x) :
    Takes R fun x y => if R x y then y else x := by
  refine ⟨?_, ?_, ?_, hrefl, htrans, hantisymm⟩
  all_goals
    intro x y
    by_cases hxy : R x y
  · exact .inr (if_pos hxy)
  · exact .inl (if_neg hxy)
  · rwa [if_pos hxy]
  · rw [if_neg hxy]
    exact hrefl x
  · rw [if_pos hxy]
    exact hrefl y
  · rw [if_neg hxy]
    exact (htotal x y).resolve_left hxy

/-! ## Intersections -/

section

variable [Scalar α]

/-- The interval `j` is the intersection of the intervals: its lower end is the greatest and its
upper end the least that one of them has, and it has no such end where none of them has one. -/
structure IsIntersection (is : List (Interval α)) (j : Interval α) : Prop where
  lower : ∀ x, j.lower = some x ↔ TightestEnd (fun y x => y ≤ x) (is.map Interval.lower) x
  upper : ∀ x, j.upper = some x ↔ TightestEnd (fun y x => x ≤ y) (is.map Interval.upper) x

/-- An interval narrowed to one interval after the other. -/
def narrowedAll (i : Interval α) (is : List (Interval α)) : Interval α :=
  is.foldl (fun i j => i.narrowed j.lower j.upper) i

variable {i j : Interval α} {is js : List (Interval α)}

/-- There is one intersection of intervals, whatever their order. -/
theorem IsIntersection.unique (h : IsIntersection is i) (h' : IsIntersection js j)
    (hperm : js.Perm is) : i = j := by
  have hlower : i.lower = j.lower := by
    refine Option.ext fun x => ?_
    simp only [h.lower, h'.lower, TightestEnd, (hperm.map Interval.lower).mem_iff]
  have hupper : i.upper = j.upper := by
    refine Option.ext fun x => ?_
    simp only [h.upper, h'.upper, TightestEnd, (hperm.map Interval.upper).mem_iff]
  cases i
  cases j
  cases hlower
  cases hupper
  rfl

variable [Std.IsLinearOrder α]

/-- An interval has a value unless its ends exclude each other. -/
theorem exists_holds_iff [Std.LawfulOrderLT α] : (∃ v, i.Holds v) ↔ i.isEmpty = false := by
  obtain ⟨lower, upper⟩ := i
  cases lower with
  | none =>
    refine ⟨fun _ => rfl, fun _ => ?_⟩
    cases upper with
    | none => exact ⟨0, by simp [Holds]⟩
    | some u => exact ⟨u, by simp [Holds, Std.le_refl]⟩
  | some l =>
    cases upper with
    | none => exact ⟨fun _ => rfl, fun _ => ⟨l, by simp [Holds, Std.le_refl]⟩⟩
    | some u =>
      simp only [Holds, Option.some.injEq, forall_eq', isEmpty, decide_eq_false_iff_not,
        Std.not_lt]
      exact ⟨fun ⟨v, hl, hu⟩ => Std.le_trans hl hu, fun h => ⟨l, Std.le_refl l, h⟩⟩

variable [ReflBEq α]

theorem takes_larger : Takes (fun y x : α => y ≤ x) Scalar.larger := by
  have hlarger : Scalar.larger = fun x y : α => if x ≤ y then y else x := by
    funext x y
    rw [Scalar.larger, BEq.rfl, if_pos rfl]
  rw [hlarger]
  exact takes_ite Std.le_refl (fun _ _ _ => Std.le_trans) (fun _ _ => Std.le_antisymm)
    fun _ _ => Std.le_total

theorem takes_smaller : Takes (fun y x : α => x ≤ y) Scalar.smaller := by
  have hsmaller : Scalar.smaller = fun x y : α => if y ≤ x then y else x := by
    funext x y
    rw [Scalar.smaller, BEq.rfl, if_pos rfl]
  rw [hsmaller]
  exact takes_ite Std.le_refl (fun _ _ _ h h' => Std.le_trans h' h)
    (fun _ _ h h' => Std.le_antisymm h' h) fun _ _ => Std.le_total

/-- Narrowing to one interval after the other computes their intersection. -/
theorem isIntersection_narrowedAll (i : Interval α) (is : List (Interval α)) :
    IsIntersection (i :: is) (i.narrowedAll is) := by
  have hlower : (i.narrowedAll is).lower =
      (is.map Interval.lower).foldl (mergeEnds Scalar.larger) i.lower := by
    rw [List.foldl_map]
    exact (List.foldl_hom Interval.lower fun _ _ => rfl).symm
  have hupper : (i.narrowedAll is).upper =
      (is.map Interval.upper).foldl (mergeEnds Scalar.smaller) i.upper := by
    rw [List.foldl_map]
    exact (List.foldl_hom Interval.upper fun _ _ => rfl).symm
  refine ⟨fun x => ?_, fun x => ?_⟩
  · rw [hlower, takes_larger.foldl_mergeEnds_eq_some_iff, List.map_cons]
  · rw [hupper, takes_smaller.foldl_mergeEnds_eq_some_iff, List.map_cons]

/-- A value lies in a narrowed interval when it lies in the interval and in what it is narrowed
to. -/
theorem holds_narrowed {v : α} :
    (i.narrowed j.lower j.upper).Holds v ↔ i.Holds v ∧ j.Holds v := by
  rw [Holds, Holds, Holds, narrowed, takes_larger.forall_mergeEnds, takes_smaller.forall_mergeEnds,
    and_and_and_comm]

end

end Interval

/-! ## Narrowing nodes -/

namespace Edit

variable [Scalar α]

/-- Narrows a node to one interval after the other, and goes on where a narrowing fails. The result
lists how each of them ended. -/
def limitEach (id : NodeId) :
    List (Interval α) → StateM (Arena α) (List (Except (GraphError α) Unit))
  | [] => pure []
  | i :: is => do
    let r ← (limit id i.lower i.upper).run
    let rs ← limitEach id is
    return r :: rs

/-- From one arena to the other a node got new bounds, with outcome `r`, and nothing else changed:
there is a value within the new bounds, and none that is not within the old ones. Where the outcome
is a failure, the bounds are the old ones. -/
structure Narrows (id : NodeId) (b : Arena α) (r : Except (GraphError α) Unit) (c : Arena α) :
    Prop where
  exists_bounds : ∃ m i, b.get? id = some m ∧ c = b.set id { m with bounds := i } ∧
    (∃ v, i.Holds v) ∧ ∀ v, i.Holds v → m.bounds.Holds v
  eq_of_error : ∀ err, r = .error err → c = b

variable {a : Arena α} {id : NodeId} {n : Node α} {i : Interval α} {is js : List (Interval α)}

theorem run_limitEach_cons :
    (limitEach id (i :: is)).run a =
      (((limit id i.lower i.upper).run a).1 ::
          ((limitEach id is).run ((limit id i.lower i.upper).run a).2).1,
        ((limitEach id is).run ((limit id i.lower i.upper).run a).2).2) :=
  rfl

variable [Std.IsLinearOrder α] [Std.LawfulOrderLT α] [ReflBEq α]

/-- A node is narrowed to an interval with which it has a value in common. -/
theorem run_limit_of_common (hn : a.get? id = some n)
    (hcommon : ∃ v, n.bounds.Holds v ∧ i.Holds v) :
    (limit id i.lower i.upper).run a =
      (.ok (), a.set id { n with bounds := n.bounds.narrowed i.lower i.upper }) := by
  obtain ⟨v, hv⟩ := hcommon
  exact yields_limit.2
    ⟨n, hn, Interval.exists_holds_iff.1 ⟨v, Interval.holds_narrowed.2 hv⟩, rfl⟩

/-- Narrowing a node to an interval with which it has no value in common fails and changes
nothing. -/
theorem run_limit_of_not_common (hn : a.get? id = some n)
    (hcommon : ¬∃ v, n.bounds.Holds v ∧ i.Holds v) :
    ∃ l u, u < l ∧
      (limit id i.lower i.upper).run a = (.error (.emptyBounds n.displayName l u), a) := by
  have hempty : (n.bounds.narrowed i.lower i.upper).isEmpty = true := by
    rw [← Bool.not_eq_false, ← Interval.exists_holds_iff]
    simpa only [Interval.holds_narrowed] using hcommon
  cases hnarrow : n.bounds.narrowed i.lower i.upper with
  | mk lower upper =>
    rw [hnarrow] at hempty
    cases lower with
    | none => cases hempty
    | some l =>
      cases upper with
      | none => cases hempty
      | some u =>
        have hlt : u < l := of_decide_eq_true hempty
        exact ⟨l, u, hlt, fails_limit.2 ⟨rfl, .inr ⟨n, l, u, hn, hnarrow, hlt, rfl⟩⟩⟩

/-- Narrowing a node that has a value leaves one that has. -/
theorem narrows_limit (hn : a.get? id = some n) (hvalue : ∃ v, n.bounds.Holds v)
    (i : Interval α) :
    Narrows id a ((limit id i.lower i.upper).run a).1 ((limit id i.lower i.upper).run a).2 := by
  by_cases hcommon : ∃ v, n.bounds.Holds v ∧ i.Holds v
  · rw [run_limit_of_common hn hcommon]
    refine ⟨⟨n, _, hn, rfl, ?_, ?_⟩, ?_⟩
    · exact hcommon.imp fun v hv => Interval.holds_narrowed.2 hv
    · exact fun v hv => (Interval.holds_narrowed.1 hv).1
    · intro err herr
      cases herr
  · obtain ⟨l, u, -, hrun⟩ := run_limit_of_not_common hn hcommon
    rw [hrun]
    exact ⟨⟨n, n.bounds, hn, (Arena.set_of_get? hn).symm, hvalue, fun _ hv => hv⟩, fun _ _ => rfl⟩

/-- However often a node that has a value is narrowed, it still has one. -/
theorem exists_get?_limitEach (hn : a.get? id = some n) (hvalue : ∃ v, n.bounds.Holds v)
    (is : List (Interval α)) :
    ∃ m, ((limitEach id is).run a).2.get? id = some m ∧ ∃ v, m.bounds.Holds v := by
  induction is generalizing a n with
  | nil => exact ⟨n, hn, hvalue⟩
  | cons i is ih =>
    obtain ⟨m, j, hm, hset, hvalue', -⟩ := (narrows_limit hn hvalue i).exists_bounds
    rw [run_limitEach_cons, hset]
    exact ih (Arena.get?_set_self hm _) hvalue'

/-- Intervals with a value in common with the node and with each other narrow it to their
intersection. -/
theorem limitEach_of_common (hn : a.get? id = some n)
    (hcommon : ∃ v, ∀ i ∈ n.bounds :: is, i.Holds v) :
    (limitEach id is).run a =
      (is.map fun _ => .ok (), a.set id { n with bounds := n.bounds.narrowedAll is }) := by
  induction is generalizing a n with
  | nil => exact Prod.ext rfl (Arena.set_of_get? hn).symm
  | cons i is ih =>
    obtain ⟨v, hv⟩ := hcommon
    obtain ⟨hbounds, hi, his⟩ : n.bounds.Holds v ∧ i.Holds v ∧ ∀ i ∈ is, i.Holds v := by
      simpa only [List.forall_mem_cons] using hv
    have hm := Arena.get?_set_self hn { n with bounds := n.bounds.narrowed i.lower i.upper }
    rw [run_limitEach_cons, run_limit_of_common hn ⟨v, hbounds, hi⟩,
      ih hm ⟨v, List.forall_mem_cons.2 ⟨Interval.holds_narrowed.2 ⟨hbounds, hi⟩, his⟩⟩,
      Arena.set_set]
    rfl

/-- Of intervals that leave a node no value, one cannot be narrowed to. -/
theorem exists_error_of_not_common (hn : a.get? id = some n)
    (hvalue : ∃ v, n.bounds.Holds v) (hcommon : ¬∃ v, ∀ i ∈ n.bounds :: is, i.Holds v) :
    ∃ l u, u < l ∧ .error (.emptyBounds n.displayName l u) ∈ ((limitEach id is).run a).1 := by
  induction is generalizing a n with
  | nil => exact absurd (by simpa using hvalue) hcommon
  | cons i is ih =>
    rw [run_limitEach_cons]
    by_cases hfirst : ∃ v, n.bounds.Holds v ∧ i.Holds v
    · -- The first interval can be narrowed to, so the fault lies behind it.
      have hm := Arena.get?_set_self hn { n with bounds := n.bounds.narrowed i.lower i.upper }
      rw [run_limit_of_common hn hfirst]
      obtain ⟨l, u, hlt, hmem⟩ := ih hm
        (hfirst.imp fun v hv => Interval.holds_narrowed.2 hv)
        (by
          rintro ⟨v, hv⟩
          obtain ⟨hfirst, his⟩ := List.forall_mem_cons.1 hv
          obtain ⟨hbounds, hi⟩ := Interval.holds_narrowed.1 hfirst
          exact hcommon ⟨v, List.forall_mem_cons.2 ⟨hbounds, List.forall_mem_cons.2 ⟨hi, his⟩⟩⟩)
      exact ⟨l, u, hlt, List.mem_cons_of_mem _ hmem⟩
    · obtain ⟨l, u, hlt, hrun⟩ := run_limit_of_not_common hn hfirst
      rw [hrun]
      exact ⟨l, u, hlt, List.mem_cons_self ..⟩

/-- A node that has a value is narrowed to intervals in any order, past failures. If the intervals
have a value in common with it, then no narrowing fails and the node ends with the intersection of
its bounds and the intervals; otherwise a narrowing fails for want of a value. Whatever came before,
each narrowing leaves the node with a value and with none that it did not have, and changes nothing
if it fails. -/
theorem limitEach_perm (hn : a.get? id = some n) (hvalue : n.bounds.isEmpty = false)
    (is : List (Interval α)) :
    ((∃ v, ∀ i ∈ n.bounds :: is, i.Holds v) →
      ∃ i, Interval.IsIntersection (n.bounds :: is) i ∧ ∀ js, js.Perm is →
        (limitEach id js).run a = (js.map fun _ => .ok (), a.set id { n with bounds := i })) ∧
    ((¬∃ v, ∀ i ∈ n.bounds :: is, i.Holds v) → ∀ js, js.Perm is →
      ∃ l u, u < l ∧ .error (.emptyBounds n.displayName l u) ∈ ((limitEach id js).run a).1) ∧
    ∀ js (i : Interval α) b, ((limitEach id js).run a).2 = b →
      Narrows id b ((limit id i.lower i.upper).run b).1
        ((limit id i.lower i.upper).run b).2 := by
  have hvalue := Interval.exists_holds_iff.2 hvalue
  have hmem : ∀ js, js.Perm is → ∀ v, (∀ i ∈ n.bounds :: js, i.Holds v) ↔
      ∀ i ∈ n.bounds :: is, i.Holds v := fun js hperm v =>
    forall_congr' fun i => by rw [(hperm.cons n.bounds).mem_iff]
  refine ⟨?_, ?_, ?_⟩
  · rintro ⟨v, hv⟩
    refine ⟨_, Interval.isIntersection_narrowedAll n.bounds is, fun js hperm => ?_⟩
    rw [limitEach_of_common hn ⟨v, (hmem js hperm v).2 hv⟩,
      (Interval.isIntersection_narrowedAll n.bounds is).unique
        (Interval.isIntersection_narrowedAll n.bounds js) (hperm.cons n.bounds)]
  · intro hcommon js hperm
    refine exists_error_of_not_common hn hvalue ?_
    rintro ⟨v, hv⟩
    exact hcommon ⟨v, (hmem js hperm v).1 hv⟩
  · rintro js i b rfl
    obtain ⟨m, hm, hvalue'⟩ := exists_get?_limitEach hn hvalue js
    exact narrows_limit hm hvalue' i

/-- A free node between zero and ten. -/
def boxed : Node Rat :=
  { kind := .plain, bounds := ⟨some 0, some 10⟩, label := some "x" }

/-- The node is narrowed to two intervals that overlap, and to three that exclude each other. -/
theorem limitEach_perm_boxed :
    (⟨#[boxed]⟩ : Arena Rat).get? 0 = some boxed ∧ boxed.bounds.isEmpty = false ∧
      (∃ i, Interval.IsIntersection [boxed.bounds, ⟨some 2, none⟩, ⟨none, some 5⟩] i ∧
        ∀ js, js.Perm [⟨some 2, none⟩, ⟨none, some 5⟩] →
          (limitEach 0 js).run ⟨#[boxed]⟩ =
            (js.map fun _ => .ok (), Arena.set ⟨#[boxed]⟩ 0 { boxed with bounds := i })) ∧
      ∀ js, js.Perm [⟨some 6, none⟩, ⟨none, some 5⟩, ⟨some 7, none⟩] →
        ∃ l u, u < l ∧ .error (.emptyBounds "x" l u) ∈ ((limitEach 0 js).run ⟨#[boxed]⟩).1 := by
  have hn : (⟨#[boxed]⟩ : Arena Rat).get? 0 = some boxed := rfl
  have hvalue : boxed.bounds.isEmpty = false := by decide
  refine ⟨hn, hvalue, ?_, ?_⟩
  · refine (limitEach_perm hn hvalue [⟨some 2, none⟩, ⟨none, some 5⟩]).1 ⟨3, ?_⟩
    simp only [List.forall_mem_cons, Interval.Holds, boxed]
    refine ⟨⟨?_, ?_⟩, ⟨?_, ?_⟩, ⟨?_, ?_⟩, by simp⟩ <;> rintro _ ⟨⟩ <;> decide
  · refine (limitEach_perm hn hvalue [⟨some 6, none⟩, ⟨none, some 5⟩, ⟨some 7, none⟩]).2.1 ?_
    rintro ⟨v, hv⟩
    have hsix : (6 : Rat) ≤ v := (hv ⟨some 6, none⟩ (by simp)).1 6 rfl
    have hfive : v ≤ (5 : Rat) := (hv ⟨none, some 5⟩ (by simp)).2 5 rfl
    exact absurd (Rat.le_trans hsix hfive) (by decide)

/-- What failing narrowings leave behind depends on their order. -/
example :
    let after := fun is : List (Interval Rat) => ((limitEach 0 is).run ⟨#[boxed]⟩).2.get? 0
    after [⟨some 6, none⟩, ⟨none, some 5⟩] = some { boxed with bounds := ⟨some 6, some 10⟩ } ∧
      after [⟨none, some 5⟩, ⟨some 6, none⟩] = some { boxed with bounds := ⟨some 0, some 5⟩ } := by
  decide

end Edit

end PiecewiseNet
