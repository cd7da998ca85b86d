import PiecewiseNet.Proofs.FailedEdits
import PiecewiseNet.Proofs.Subspace.Rounds

/-!
# Subspaces that are refused

A name is refused before anything changes. An input is refused when its turn comes, and the inputs
that had theirs before it keep the slices they were narrowed to.

## Main definitions

- `NameRefusal`: why a name is refused.
- `SplitRefusal`: why an input is refused on its turn.
- `Query.Names`: the digits that an accepted name stands for.

## Main statements

- `splitInput_fails_iff`: an input that is refused stays as it is.
- `applySubspace_fails_iff`: how narrowing to a subspace fails, and what it leaves behind.
- `bounds_kept_iff_of_fails`: over the rationals, when a failure leaves all bounds as they were.
-/

namespace PiecewiseNet

open Text

variable {α : Type}

/-! ## Refusals -/

/-- Why a name is refused: its digits are not whole rounds, or one of them names no slice, and then
the first one that does not is told. -/
inductive NameRefusal (width splits : Nat) (digits : String) : GraphError α → Prop where
  | length (h : width = 0 ∨ digits.utf8ByteSize % width ≠ 0) :
      NameRefusal width splits digits (.outOfRange .subspaceLength digits.utf8ByteSize width)
  | digit {position : Nat} {c : Char} (hne : width ≠ 0)
      (hwhole : digits.utf8ByteSize % width = 0) (hc : digits.toList[position]? = some c)
      (hbad : ∀ d, digit? c = some d → splits ≤ d)
      (hbefore : ∀ e ∈ digits.toList.take position, ∃ d, digit? e = some d ∧ d < splits) :
      NameRefusal width splits digits (.outOfRange .subspaceDigit position splits)

/-- The digits of an accepted name: one for each input in every round, each below the number of
slices. -/
structure Query.Names (q : Query α) (splits : Nat) (digits : String) (ds : List Nat) : Prop where
  nonempty : q.inputs ≠ []
  whole : digits.utf8ByteSize % q.inputs.length = 0
  digits : digits.toList.map digit? = ds.map some
  below : ∀ d ∈ ds, d < splits

/-- Why an input is refused on its turn: it is not in the arena, an end of its bounds is missing, or
nothing is left of them in the slice. -/
inductive SplitRefusal [Scalar α] (a : Arena α) (splits : Nat) (id : NodeId) (d : Nat) :
    GraphError α → Prop where
  | foreign (h : a.get? id = none) : SplitRefusal a splits id d (.misuse (.foreignNode id))
  | unbounded {n : Node α} (hn : a.get? id = some n)
      (h : n.bounds.lower = none ∨ n.bounds.upper = none) :
      SplitRefusal a splits id d (.unsplittable (a.name id))
  | empty {n : Node α} {l u start lower upper : α} (hn : a.get? id = some n)
      (hbounds : n.bounds = ⟨some l, some u⟩) (hstart : start = l + d * ((u - l) / splits))
      (hnarrow : n.bounds.narrowed (some start) (some (start + (u - l) / splits)) =
        ⟨some lower, some upper⟩)
      (hlt : upper < lower) : SplitRefusal a splits id d (.emptyBounds n.displayName lower upper)

/-- A name that is refused is not read. -/
theorem NameRefusal.not_names {q : Query α} {splits : Nat} {digits : String} {ds : List Nat}
    (h : NameRefusal q.inputs.length splits digits err) : ¬q.Names splits digits ds := by
  intro hnames
  cases h with
  | length h =>
    rcases h with hzero | hnot
    · exact hnames.nonempty (List.length_eq_zero_iff.1 hzero)
    · exact hnot hnames.whole
  | @digit position c _ _ hc hbad _ =>
    have hread : (ds.map some)[position]? = some (digit? c) := by
      rw [← hnames.digits, List.getElem?_map, hc]
      rfl
    rw [List.getElem?_map, Option.map_eq_some_iff] at hread
    obtain ⟨d, hd, heq⟩ := hread
    exact absurd (hnames.below d (List.mem_of_getElem? hd)) (Nat.not_lt.2 (hbad d heq.symm))

section

variable {s position : Nat} {cs : List Char} {err : GraphError α}

/-- The first character that is no digit below the number of slices is told. -/
theorem subspaceDigits_eq_error_iff :
    subspaceDigits s position cs = .error err ↔ ∃ k c, cs[k]? = some c ∧
      (∀ d, digit? c = some d → s ≤ d) ∧
      (∀ e ∈ cs.take k, ∃ d, digit? e = some d ∧ d < s) ∧
      err = .outOfRange .subspaceDigit (position + k) s := by
  induction cs generalizing position with
  | nil => simp [subspaceDigits]
  | cons c cs ih =>
    by_cases hc : ∃ d, digit? c = some d ∧ d < s
    · have hrest : subspaceDigits s position (c :: cs) = .error err ↔
          subspaceDigits s (position + 1) cs = .error err := by
        obtain ⟨d, hd, hlt⟩ := hc
        rw [subspaceDigits, hd, Option.filter_some_pos (by simpa using hlt)]
        cases subspaceDigits (α := α) s (position + 1) cs <;> simp
      rw [hrest, ih]
      constructor
      · rintro ⟨k, e, he, hbad, hbefore, rfl⟩
        refine ⟨k + 1, e, he, hbad, ?_, by rw [Nat.add_assoc, Nat.add_comm 1]⟩
        rw [List.take_succ_cons]
        exact List.forall_mem_cons.2 ⟨hc, hbefore⟩
      · rintro ⟨k, e, he, hbad, hbefore, rfl⟩
        cases k with
        | zero =>
          obtain rfl : c = e := Option.some.inj he
          obtain ⟨d, hd, hlt⟩ := hc
          exact absurd hlt (Nat.not_lt.2 (hbad d hd))
        | succ k =>
          rw [List.take_succ_cons] at hbefore
          exact ⟨k, e, he, hbad, (List.forall_mem_cons.1 hbefore).2,
            by rw [Nat.add_assoc, Nat.add_comm 1]⟩
    · have hbad : ∀ d, digit? c = some d → s ≤ d := fun d hd =>
        Nat.le_of_not_lt fun hlt => hc ⟨d, hd, hlt⟩
      have hstop : subspaceDigits s position (c :: cs) = .error err ↔
          err = .outOfRange .subspaceDigit position s := by
        have hnone : (digit? c).filter (fun d => decide (d < s)) = none := by
          simpa [Option.filter_eq_none_iff] using hbad
        rw [subspaceDigits, hnone]
        simp [eq_comm]
      rw [hstop]
      constructor
      · rintro rfl
        exact ⟨0, c, rfl, hbad, by simp, rfl⟩
      · rintro ⟨k, e, -, -, hbefore, rfl⟩
        cases k with
        | zero => rfl
        | succ k =>
          rw [List.take_succ_cons] at hbefore
          exact absurd (hbefore c (List.mem_cons_self ..)) hc

end

/-! ## Turns -/

section

variable [Scalar α] {a b : Arena α} {s d : Nat} {id : NodeId} {err : GraphError α} {u : PUnit}

/-- An input that is refused stays as it is. -/
theorem splitInput_fails_iff :
    (splitInput s id d).Fails a err b ↔ b = a ∧ SplitRefusal a s id d err := by
  simp only [splitInput, Edit.fails_bind, Edit.fails_node, Edit.yields_node]
  constructor
  · rintro (⟨hnone, rfl, rfl⟩ | ⟨n, _, ⟨hn, rfl⟩, h⟩)
    · exact ⟨rfl, .foreign hnone⟩
    · split at h
      · rename_i l w hl hw
        obtain ⟨rfl, ⟨hnone, -⟩ | ⟨m, lower, upper, hm, hnarrow, hlt, rfl⟩⟩ := Edit.fails_limit.1 h
        · rw [hn] at hnone
          cases hnone
        · obtain rfl : n = m := Option.some.inj (hn.symm.trans hm)
          exact ⟨rfl, .empty hn (by rw [← hl, ← hw]) rfl hnarrow hlt⟩
      · rename_i hends
        have hmissing : n.bounds.lower = none ∨ n.bounds.upper = none := by
          by_contra hboth
          obtain ⟨hl, hw⟩ := not_or.1 hboth
          obtain ⟨l, hl⟩ := Option.ne_none_iff_exists'.1 hl
          obtain ⟨w, hw⟩ := Option.ne_none_iff_exists'.1 hw
          exact hends l w hl hw
        simp only [Edit.fails_bind, Edit.not_fails_arena, Edit.yields_arena, Edit.fails_throw,
          false_or] at h
        obtain ⟨_, _, ⟨rfl, rfl⟩, rfl, rfl⟩ := h
        exact ⟨rfl, .unbounded hn hmissing⟩
  · rintro ⟨rfl, hnone | ⟨hn, hmissing⟩ | ⟨hn, hbounds, rfl, hnarrow, hlt⟩⟩
    · exact .inl ⟨hnone, rfl, rfl⟩
    · refine .inr ⟨_, b, ⟨hn, rfl⟩, ?_⟩
      split
      · rename_i l w hl hw
        simp [hl, hw] at hmissing
      · simp
    · refine .inr ⟨_, b, ⟨hn, rfl⟩, ?_⟩
      simp only [hbounds] at hnarrow ⊢
      exact Edit.fails_limit.2 ⟨rfl, .inr ⟨_, _, _, hn, by rw [hbounds]; exact hnarrow, hlt, rfl⟩⟩

/-- An input that has its turn changes in its bounds only. -/
theorem splitInput_changes {v : Unit} (h : (splitInput s id d).Yields a v b) :
    ∃ n i, a.get? id = some n ∧ b = a.set id { n with bounds := i } := by
  simp only [splitInput, Edit.yields_bind, Edit.yields_node] at h
  obtain ⟨n, _, ⟨-, rfl⟩, h⟩ := h
  split at h
  · obtain ⟨m, hm, -, rfl⟩ := Edit.yields_limit.1 h
    exact ⟨m, _, hm, rfl⟩
  · simp at h

/-- Turns change the bounds of the inputs that take them and nothing else. -/
theorem splitAll_changes {ps : List (NodeId × Nat)}
    (h : Edit.Yields (ps.forM fun p => splitInput s p.1 p.2) a u b) :
    b.size = a.size ∧
      (∀ j n, a.get? j = some n → ∃ i, b.get? j = some { n with bounds := i }) ∧
      ∀ j, (∀ p ∈ ps, p.1 ≠ j) → b.get? j = a.get? j := by
  induction ps generalizing a with
  | nil =>
    obtain ⟨-, rfl⟩ := Edit.yields_pure.1 h
    exact ⟨rfl, fun j n hn => ⟨n.bounds, hn⟩, fun _ _ => rfl⟩
  | cons p ps ih =>
    obtain ⟨_, c, hfirst, hrest⟩ := Edit.yields_bind.1 h
    obtain ⟨n, i, hn, rfl⟩ := splitInput_changes hfirst
    obtain ⟨hsize, hheld, hother⟩ := ih hrest
    refine ⟨by rw [hsize, Arena.size_set], ?_, ?_⟩
    · intro j m hm
      by_cases hj : p.1 = j
      · subst hj
        obtain rfl : n = m := Option.some.inj (hn.symm.trans hm)
        refine hheld p.1 { n with bounds := i } ?_
        rw [Arena.get?_set, if_pos ⟨rfl, Arena.lt_size_of_get? hn⟩]
      · refine hheld j m ?_
        rw [Arena.get?_set, if_neg fun hboth => hj hboth.1, hm]
    · intro j hj
      obtain ⟨hfirst, hlater⟩ := List.forall_mem_cons.1 hj
      rw [hother j hlater, Arena.get?_set, if_neg fun hboth => hfirst hboth.1]

variable {inputs : List NodeId} {ds : List Nat}

/-- The rounds fail on the turn of an input that is refused as the turns before it leave it. -/
theorem splitRounds_fails_iff (hne : inputs ≠ []) :
    (splitRounds s inputs inputs ds).Fails a err b ↔ ∃ m d id, ds[m]? = some d ∧
      inputs[m % inputs.length]? = some id ∧
      (splitRounds s inputs inputs (ds.take m)).Yields a () b ∧ SplitRefusal b s id d err := by
  simp only [splitRounds_eq_forM, turns_take hne]
  rw [Edit.fails_forM]
  constructor
  · rintro ⟨m, ⟨id, d⟩, c, hturn, hbefore, hfails⟩
    obtain ⟨rfl, hrefusal⟩ := splitInput_fails_iff.1 hfails
    obtain ⟨hd, hid⟩ := (getElem?_turns_eq_some_iff hne).1 hturn
    exact ⟨m, d, id, hd, hid, hbefore, hrefusal⟩
  · rintro ⟨m, d, id, hd, hid, hbefore, hrefusal⟩
    exact ⟨m, (id, d), b, (getElem?_turns_eq_some_iff hne).2 ⟨hd, hid⟩, hbefore,
      splitInput_fails_iff.2 ⟨rfl, hrefusal⟩⟩

/-- The first turns change the bounds of the inputs that take them and nothing else. -/
theorem splitRounds_changes (hne : inputs ≠ []) {m : Nat}
    (h : (splitRounds s inputs inputs (ds.take m)).Yields a () b) :
    b.size = a.size ∧
      (∀ j n, a.get? j = some n → ∃ i, b.get? j = some { n with bounds := i }) ∧
      ∀ j, (∀ k < m, inputs[k % inputs.length]? ≠ some j) → b.get? j = a.get? j := by
  rw [splitRounds_eq_forM] at h
  obtain ⟨hsize, hheld, hother⟩ := splitAll_changes h
  refine ⟨hsize, hheld, fun j hj => hother j ?_⟩
  rintro ⟨id, d⟩ hp rfl
  obtain ⟨k, hk⟩ := List.mem_iff_getElem?.1 hp
  obtain ⟨hd, hinput⟩ := (getElem?_turns_eq_some_iff hne).1 hk
  have hlt : k < (ds.take m).length := (List.getElem?_eq_some_iff.1 hd).1
  exact hj k (hlt.trans_le (List.length_take_le m ds)) hinput

end

/-! ## Subspaces -/

section

variable [Scalar α] {q : Query α} {a b : Arena α} {splits : Nat} {digits : String}
  {err : GraphError α}

/-- A name is refused, or it is read and a turn fails. -/
theorem applySubspace_fails_cases :
    (applySubspace q digits splits).Fails a err b ↔
      (NameRefusal q.inputs.length splits digits err ∧ b = a) ∨
        ∃ ds, q.Names splits digits ds ∧
          (splitRounds splits q.inputs q.inputs ds).Fails a err b := by
  unfold applySubspace
  by_cases hwidth : q.inputs.length = 0 ∨ digits.utf8ByteSize % q.inputs.length ≠ 0
  · simp only [if_pos hwidth, Edit.fails_throw]
    constructor
    · rintro ⟨rfl, rfl⟩
      exact .inl ⟨.length hwidth, rfl⟩
    · rintro (⟨hname, rfl⟩ | ⟨ds, hnames, -⟩)
      · cases hname with
        | length => exact ⟨rfl, rfl⟩
        | digit hne hwhole => exact absurd hwidth (not_or.2 ⟨hne, not_not.2 hwhole⟩)
      · exact absurd hnames (NameRefusal.length (α := α) hwidth).not_names
  · simp only [if_neg hwidth, Edit.fails_bind, Edit.fails_ofExcept, Edit.yields_ofExcept,
      subspaceDigits_eq_error_iff, subspaceDigits_eq_ok_iff, Nat.zero_add]
    obtain ⟨hne, hwhole⟩ := not_or.1 hwidth
    rw [not_not] at hwhole
    constructor
    · rintro (⟨⟨k, c, hc, hbad, hbefore, rfl⟩, rfl⟩ | ⟨ds, _, ⟨⟨hchars, hds⟩, rfl⟩, h⟩)
      · exact .inl ⟨.digit hne hwhole hc hbad hbefore, rfl⟩
      · exact .inr ⟨ds, ⟨mt List.length_eq_zero_iff.2 hne, hwhole, hchars, hds⟩, h⟩
    · rintro (⟨hname, rfl⟩ | ⟨ds, hnames, h⟩)
      · cases hname with
        | length h => exact absurd h hwidth
        | digit _ _ hc hbad hbefore => exact .inl ⟨⟨_, _, hc, hbad, hbefore, rfl⟩, rfl⟩
      · exact .inr ⟨ds, a, ⟨⟨hnames.digits, hnames.below⟩, rfl⟩, h⟩

/-- Narrowing to a subspace fails in two ways. The name is refused, and the arena stays as it is; or
the name is read and an input is refused on its turn, and the arena is left as the turns before it
left it. Those have narrowed the inputs that took them and changed nothing else, so that all is as
it was if the first turn fails. -/
theorem applySubspace_fails_iff :
    (applySubspace q digits splits).Fails a err b ↔
      (NameRefusal q.inputs.length splits digits err ∧ b = a) ∨
        ∃ ds m d id, q.Names splits digits ds ∧ ds[m]? = some d ∧
          q.inputs[m % q.inputs.length]? = some id ∧
          (splitRounds splits q.inputs q.inputs (ds.take m)).Yields a () b ∧
          SplitRefusal b splits id d err ∧ b.size = a.size ∧
          (∀ j n, a.get? j = some n → ∃ i, b.get? j = some { n with bounds := i }) ∧
          ∀ j, (∀ k < m, q.inputs[k % q.inputs.length]? ≠ some j) → b.get? j = a.get? j := by
  rw [applySubspace_fails_cases]
  refine or_congr_right ⟨?_, ?_⟩
  · rintro ⟨ds, hnames, h⟩
    obtain ⟨m, d, id, hd, hid, hbefore, hrefusal⟩ := (splitRounds_fails_iff hnames.nonempty).1 h
    exact ⟨ds, m, d, id, hnames, hd, hid, hbefore, hrefusal,
      splitRounds_changes hnames.nonempty hbefore⟩
  · rintro ⟨ds, m, d, id, hnames, hd, hid, hbefore, hrefusal, -⟩
    exact ⟨ds, hnames,
      (splitRounds_fails_iff hnames.nonempty).2 ⟨m, d, id, hd, hid, hbefore, hrefusal⟩⟩

end

/-- The nodes of the query `boxed`, the second input without bounds. -/
def halfBoxedArena : Arena Rat :=
  ⟨#[{ kind := .plain, bounds := ⟨some 0, some 8⟩ }, { kind := .plain, label := some "b" },
    { kind := .affine [(1, 0), (1, 1)] 0 }]⟩

/-- The second input is refused, and the first one keeps the half that its digit names. -/
theorem applySubspace_fails_halfBoxed :
    ∃ b, (applySubspace boxed "10" 2).Fails halfBoxedArena (.unsplittable "b") b ∧
      (halfBoxedArena.get? 0).map Node.bounds = some ⟨some 0, some 8⟩ ∧
      (b.get? 0).map Node.bounds = some ⟨some 4, some 8⟩ := by
  refine ⟨((applySubspace boxed "10" 2).run halfBoxedArena).2, Prod.ext ?_ rfl, by decide, ?_⟩
  · decide +kernel
  · decide +kernel

/-! ## Exact bounds -/

namespace Interval

variable {i : Interval Rat} {s d : Nat} {ds : List Nat} {l u : Rat} {lower upper : Option Rat}

/-- Ends that exclude each other still do when they are narrowed. -/
theorem exists_narrowed_of_lt (h : u < l) (start stop : Rat) : ∃ lower upper,
    (⟨some l, some u⟩ : Interval Rat).narrowed (some start) (some stop) =
      ⟨some lower, some upper⟩ ∧ upper < lower := by
  refine ⟨_, _, rfl, ?_⟩
  have hlower : l ≤ Scalar.larger l start := by
    simp only [Scalar.larger, BEq.rfl, if_true]
    split <;> simp [*]
  have hupper : Scalar.smaller u stop ≤ u := by
    simp only [Scalar.smaller, BEq.rfl, if_true]
    split <;> simp [*]
  exact hupper.trans_lt (h.trans_le hlower)

/-- An interval is its own slice if it is the only slice or holds one value. -/
theorem slice_eq_self (hd : d < s) (h : s = 1 ∨ i.lower = i.upper) : i.slice s d = i := by
  obtain ⟨lower, upper⟩ := i
  cases lower with
  | none => rfl
  | some l =>
    cases upper with
    | none => rfl
    | some u =>
      rw [slice_mk]
      rcases h with rfl | heq
      · obtain rfl := Nat.lt_one_iff.1 hd
        simp
      · obtain rfl : l = u := Option.some.inj heq
        simp

/-- Slices of slices leave a proper interval as it is only if there is one slice or one value. -/
theorem IsProper.sliced_eq_self_iff (h : i.IsProper) (hne : ds ≠ []) (hds : ∀ d ∈ ds, d < s) :
    i.sliced s ds = i ↔ s = 1 ∨ i.lower = i.upper := by
  constructor
  · obtain ⟨l, u, rfl, -⟩ := h
    intro heq
    rw [sliced_mk, Interval.mk.injEq, Option.some_inj, Option.some_inj] at heq
    obtain ⟨hlower, hupper⟩ := heq
    rw [hlower, ← eq_sub_iff_add_eq'] at hupper
    rcases eq_or_ne l u with heq | hlu
    · exact .inr (congrArg some heq)
    · -- The width is what it was, so a power of the number of slices is one.
      obtain ⟨d, hd⟩ := List.exists_mem_of_ne_nil ds hne
      have hpos : (0 : Rat) < s := Nat.cast_pos.2 (Nat.zero_lt_of_lt (hds d hd))
      have hone : (s : Rat) ^ ds.length = 1 := by
        rw [div_eq_iff (pow_pos hpos _).ne'] at hupper
        exact (left_eq_mul₀ (sub_ne_zero.2 hlu.symm)).1 hupper
      have hpow : s ^ ds.length = 1 := by exact_mod_cast hone
      exact .inl ((Nat.pow_eq_one.1 hpow).resolve_right (mt List.length_eq_zero_iff.1 hne))
  · intro heq
    induction ds with
    | nil => rfl
    | cons d ds ih =>
      obtain ⟨hd, hds⟩ := List.forall_mem_cons.1 hds
      rw [sliced_cons, slice_eq_self hd heq]
      cases ds with
      | nil => rfl
      | cons e ds => exact ih (List.cons_ne_nil e ds) hds

end Interval

section

variable {q : Query Rat} {a b : Arena Rat} {s d : Nat} {ds : List Nat} {digits : String}
  {id : NodeId} {err : GraphError Rat}

/-- The node is in the arena and has proper bounds. -/
def Arena.IsProperAt (a : Arena Rat) (id : NodeId) : Prop :=
  ∃ n, a.get? id = some n ∧ n.bounds.IsProper

/-- Exactly the inputs without proper bounds are refused. -/
theorem exists_splitRefusal_iff (hd : d < s) :
    (∃ err, SplitRefusal a s id d err) ↔ ¬a.IsProperAt id := by
  constructor
  · rintro ⟨err, h⟩ ⟨n, hn, hproper⟩
    exact (splitInput_yields hn hproper hd).not_fails (splitInput_fails_iff.2 ⟨rfl, h⟩)
  · intro h
    cases hn : a.get? id with
    | none => exact ⟨_, .foreign hn⟩
    | some n =>
      cases hl : n.bounds.lower with
      | none => exact ⟨_, .unbounded hn (.inl hl)⟩
      | some l =>
        cases hu : n.bounds.upper with
        | none => exact ⟨_, .unbounded hn (.inr hu)⟩
        | some u =>
          have hbounds : n.bounds = ⟨some l, some u⟩ := by rw [← hl, ← hu]
          have hlt : u < l := by
            by_contra hle
            exact h ⟨n, hn, l, u, hbounds, not_lt.1 hle⟩
          obtain ⟨lower, upper, hnarrow, hempty⟩ := Interval.exists_narrowed_of_lt hlt
            (l + d * ((u - l) / s)) (l + d * ((u - l) / s) + (u - l) / s)
          exact ⟨_, .empty hn hbounds rfl (by rw [hbounds, hnarrow]) hempty⟩

/-- In whole rounds, if any, all inputs have a turn. -/
theorem Query.Names.length_le (hnames : q.Names s digits ds) (hne : ds ≠ []) :
    q.inputs.length ≤ ds.length := by
  have hwhole := hnames.whole
  rw [utf8ByteSize_of_digits hnames.digits] at hwhole
  exact Nat.le_of_dvd (List.length_pos_iff.2 hne) (Nat.dvd_of_mod_eq_zero hwhole)

/-- Turns of the first round are taken by the first inputs. -/
theorem mem_turns_take {inputs ids rest : List NodeId} (hinputs : inputs = ids ++ id :: rest)
    (hlen : ids.length ≤ ds.length) (i : NodeId) :
    (∃ d, (i, d) ∈ turns inputs inputs (ds.take ids.length)) ↔ i ∈ ids := by
  have hne : inputs ≠ [] := by simp [hinputs]
  have hget : ∀ k < ids.length, inputs[k % inputs.length]? = ids[k]? := by
    intro k hk
    have hlt : k < inputs.length := by
      rw [hinputs, List.length_append]
      omega
    rw [Nat.mod_eq_of_lt hlt, hinputs, List.getElem?_append_left hk]
  constructor
  · rintro ⟨d, hd⟩
    obtain ⟨k, hk⟩ := List.mem_iff_getElem?.1 hd
    obtain ⟨hdigit, hinput⟩ := (getElem?_turns_eq_some_iff hne).1 hk
    have hlt : k < (ds.take ids.length).length := (List.getElem?_eq_some_iff.1 hdigit).1
    rw [hget k (hlt.trans_le (List.length_take_le ..))] at hinput
    exact List.mem_of_getElem? hinput
  · intro hi
    obtain ⟨k, hk⟩ := List.mem_iff_getElem?.1 hi
    have hlt : k < ids.length := (List.getElem?_eq_some_iff.1 hk).1
    have hd : (ds.take ids.length)[k]? = some ds[k] := by
      rw [List.getElem?_take_of_lt hlt, List.getElem?_eq_getElem (hlt.trans_le hlen)]
    have hturn := (getElem?_turns_eq_some_iff hne).2 ⟨hd, (hget k hlt).trans hk⟩
    exact ⟨ds[k], List.mem_of_getElem? hturn⟩

/-- The first input without proper bounds is refused in the first round, when the inputs before it
have been narrowed to slices. -/
theorem exists_first_refused (hnames : q.Names s digits ds)
    (h : (splitRounds s q.inputs q.inputs ds).Fails a err b) : ∃ ids id rest,
      q.inputs = ids ++ id :: rest ∧ ids.length ≤ ds.length ∧ (∀ i ∈ ids, a.IsProperAt i) ∧
        ¬a.IsProperAt id ∧ ∀ j, b.get? j = (a.get? j).map
          (·.sliced s (digitsFor j (turns q.inputs q.inputs (ds.take ids.length)))) := by
  classical
  have hne : ds ≠ [] := by
    rintro rfl
    exact Edit.not_fails_pure h
  cases hfind : q.inputs.find? fun i => ¬a.IsProperAt i with
  | none =>
    have hbox : ∀ i ∈ q.inputs, a.IsProperAt i := by simpa using hfind
    obtain ⟨c, hc, -⟩ := exists_splitRounds hnames.nonempty hbox hnames.below
    exact absurd h hc.not_fails
  | some id =>
    obtain ⟨hid, ids, rest, hinputs, hbefore⟩ := List.find?_eq_some_iff_append.1 hfind
    have himproper : ¬a.IsProperAt id := of_decide_eq_true hid
    have hproper : ∀ i ∈ ids, a.IsProperAt i := by simpa using hbefore
    have hlt : ids.length < q.inputs.length := by
      rw [hinputs, List.length_append, List.length_cons]
      omega
    have hlen : ids.length < ds.length := hlt.trans_le (hnames.length_le hne)
    have hturn : q.inputs[ids.length % q.inputs.length]? = some id := by
      rw [Nat.mod_eq_of_lt hlt, hinputs, List.getElem?_append_right (Nat.le_refl _), Nat.sub_self]
      rfl
    have htaken : ∀ p ∈ turns q.inputs q.inputs (ds.take ids.length), a.IsProperAt p.1 :=
      fun p hp => hproper p.1 ((mem_turns_take hinputs hlen.le p.1).1 ⟨p.2, hp⟩)
    obtain ⟨c, hc, -, hget⟩ := exists_splitAll (a := a) (s := s)
      (fun p hp => hnames.below p.2
        (List.mem_of_mem_take (mem_of_mem_turns hnames.nonempty hp).2)) htaken
    have hsame : c.get? id = a.get? id := by
      have hnone : digitsFor id (turns q.inputs q.inputs (ds.take ids.length)) = [] := by
        refine digitsFor_eq_nil fun p hp heq => himproper ?_
        rw [← heq]
        exact htaken p hp
      rw [hget, hnone]
      simp
    have hrefused : ¬c.IsProperAt id := by
      rw [Arena.IsProperAt, hsame]
      exact himproper
    obtain ⟨err', hrefusal⟩ :=
      (exists_splitRefusal_iff (hnames.below _ (List.getElem_mem hlen))).2 hrefused
    rw [← splitRounds_eq_forM] at hc
    have hfails := (splitRounds_fails_iff hnames.nonempty).2
      ⟨ids.length, _, id, List.getElem?_eq_getElem hlen, hturn, hc, hrefusal⟩
    obtain ⟨-, rfl⟩ := h.unique hfails
    exact ⟨ids, id, rest, hinputs, hlen.le, hproper, himproper, hget⟩

/-- Slices keep all bounds exactly if there is one slice only or the sliced nodes hold one value. -/
theorem bounds_sliced_iff {ids : List NodeId} {ds : NodeId → List Nat}
    (hproper : ∀ i ∈ ids, a.IsProperAt i) (hdigits : ∀ j, j ∈ ids ↔ ds j ≠ [])
    (hbelow : ∀ j, ∀ d ∈ ds j, d < s)
    (hget : ∀ j, b.get? j = (a.get? j).map (·.sliced s (ds j))) :
    (∀ j, (b.get? j).map Node.bounds = (a.get? j).map Node.bounds) ↔
      ∀ i ∈ ids, ∀ n, a.get? i = some n → s = 1 ∨ n.bounds.lower = n.bounds.upper := by
  have hself : ∀ i ∈ ids, ∀ n, a.get? i = some n →
      (n.bounds.sliced s (ds i) = n.bounds ↔ s = 1 ∨ n.bounds.lower = n.bounds.upper) := by
    intro i hi n hn
    obtain ⟨m, hm, hbox⟩ := hproper i hi
    obtain rfl : n = m := Option.some.inj (hn.symm.trans hm)
    exact hbox.sliced_eq_self_iff ((hdigits i).1 hi) (hbelow i)
  constructor
  · intro hall i hi n hn
    have hsame := hall i
    rw [hget, hn] at hsame
    exact (hself i hi n hn).1 (Option.some.inj hsame)
  · intro hall j
    rw [hget]
    by_cases hj : j ∈ ids
    · obtain ⟨n, hn, -⟩ := hproper j hj
      rw [hn]
      exact congrArg some ((hself j hj n hn).2 (hall j hj n hn))
    · rw [not_not.1 fun hne => hj ((hdigits j).2 hne)]
      simp

/-- The beginning of a list, if all in it have a property, ends before a member that has not. -/
theorem subset_of_prefix_of_forall {β : Type} {p : β → Prop} {xs ys zs : List β} {y : β}
    (hxs : xs <+: ys ++ y :: zs) (hall : ∀ x ∈ xs, p x) (hy : ¬p y) : xs ⊆ ys := by
  rcases Nat.lt_or_ge ys.length xs.length with hlt | hge
  · have hlonger : ys ++ [y] <+: xs := by
      refine List.prefix_of_prefix_length_le ⟨zs, by simp⟩ hxs ?_
      rw [List.length_append]
      exact hlt
    exact absurd (hall y (hlonger.subset (by simp))) hy
  · exact (List.prefix_of_prefix_length_le hxs (List.prefix_append ..) hge).subset

/-- A failure leaves all bounds as they were exactly if the name is refused, if there is one slice
only, or if the inputs before the first one without proper bounds hold one value each. -/
theorem bounds_kept_iff_of_fails (h : (applySubspace q digits s).Fails a err b) :
    (∀ id, (b.get? id).map Node.bounds = (a.get? id).map Node.bounds) ↔
      NameRefusal q.inputs.length s digits err ∨ s = 1 ∨
        ∀ ids, ids <+: q.inputs → (∀ i ∈ ids, a.IsProperAt i) →
          ∀ i ∈ ids, ∃ n x, a.get? i = some n ∧ n.bounds = .fixed x := by
  rcases applySubspace_fails_cases.1 h with ⟨hname, rfl⟩ | ⟨ds, hnames, hrounds⟩
  · simp [hname]
  obtain ⟨ids, id, rest, hinputs, hlen, hproper, himproper, hget⟩ :=
    exists_first_refused hnames hrounds
  have hdigits : ∀ j, j ∈ ids ↔
      digitsFor j (turns q.inputs q.inputs (ds.take ids.length)) ≠ [] := by
    intro j
    rw [← mem_turns_take hinputs hlen]
    constructor
    · rintro ⟨d, hd⟩
      exact List.ne_nil_of_mem (mem_digitsFor.2 hd)
    · intro hne
      obtain ⟨d, hd⟩ := List.exists_mem_of_ne_nil _ hne
      exact ⟨d, mem_digitsFor.1 hd⟩
  have hbelow : ∀ j, ∀ d ∈ digitsFor j (turns q.inputs q.inputs (ds.take ids.length)), d < s :=
    fun j d hd => hnames.below d
      (List.mem_of_mem_take (mem_of_mem_turns hnames.nonempty (mem_digitsFor.1 hd)).2)
  rw [bounds_sliced_iff hproper hdigits hbelow hget]
  constructor
  · intro hall
    refine .inr (or_iff_not_imp_left.2 fun hs ids' hprefix hproper' i hi => ?_)
    obtain ⟨n, hn, l, u, hbounds, -⟩ := hproper' i hi
    have hmem := subset_of_prefix_of_forall (hinputs ▸ hprefix) hproper' himproper hi
    have heq := (hall i hmem n hn).resolve_left hs
    rw [hbounds] at heq
    obtain rfl : l = u := Option.some.inj heq
    exact ⟨n, l, hn, hbounds⟩
  · rintro (hname | rfl | hfixed) i hi n hn
    · exact absurd hnames hname.not_names
    · exact .inl rfl
    · obtain ⟨m, x, hm, hbounds⟩ := hfixed ids (by simp [hinputs]) hproper i hi
      obtain rfl : n = m := Option.some.inj (hn.symm.trans hm)
      exact .inr (by rw [hbounds]; rfl)

end

end PiecewiseNet
