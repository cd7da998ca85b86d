import PiecewiseNet.Proofs.Evaluation.Forced

/-!
# Propagation ends

Propagation without a bound on its rounds: a round is a pass over the constraints and, if that pass
assigned nothing, one over the rectifiers, and rounds follow each other until one assigns nothing or
stops at an equality that cannot be solved. What the passes assign is recorded, so that it can be
said when a variable is assigned.

## Main definitions

- `Assignment.write`, `Assignment.Fresh`: values written one after the other, each for a variable
  that has none by then.
- `ConstraintSystem.round`, `ConstraintSystem.roundWrites`: one round, and what it writes.
- `ConstraintSystem.Settles`: the rounds until propagation ends.

## Main statements

- `ConstraintSystem.fresh_roundWrites`: a round writes for variables without a value only.
- `ConstraintSystem.exists_settles`: the rounds come to an end, at most one more than there are
  unassigned variables.
- `ConstraintSystem.propagation_ends`: how propagation of a query ends.
-/

namespace PiecewiseNet

variable {α : Type}

/-! ## Writes -/

namespace Assignment

/-- The assignment after values were written, one after the other. -/
def write (v : Assignment α) (ws : List (Nat × α)) : Assignment α :=
  ws.foldl (fun v w => v.assign w.1 w.2) v

/-- Each value is written for a variable that has none when its turn comes. -/
inductive Fresh : Assignment α → List (Nat × α) → Prop where
  | nil (v : Assignment α) : Fresh v []
  | cons {v : Assignment α} {i : Nat} {x : α} {ws : List (Nat × α)} (hi : i < v.size)
      (hnone : v.value? i = none) (rest : Fresh (v.assign i x) ws) : Fresh v ((i, x) :: ws)

variable {v : Assignment α} {ws us : List (Nat × α)}

@[simp] theorem write_nil (v : Assignment α) : v.write [] = v :=
  rfl

@[simp] theorem write_cons (v : Assignment α) (i : Nat) (x : α) (ws : List (Nat × α)) :
    v.write ((i, x) :: ws) = (v.assign i x).write ws :=
  rfl

theorem write_append (v : Assignment α) (ws us : List (Nat × α)) :
    v.write (ws ++ us) = (v.write ws).write us :=
  List.foldl_append ..

theorem Fresh.append (h : v.Fresh ws) (h' : (v.write ws).Fresh us) : v.Fresh (ws ++ us) := by
  induction h with
  | nil => exact h'
  | cons hi hnone _ ih => exact .cons hi hnone (ih h')

/-- No value is lost or changed by values for variables without one. -/
theorem Fresh.extendedBy (h : v.Fresh ws) : v.ExtendedBy (v.write ws) := by
  induction h with
  | nil v => exact .refl v
  | cons _ hnone _ ih => exact (extendedBy_assign _ hnone).trans ih

/-- Every value that is written leaves one variable less without a value. -/
theorem Fresh.length_add_unassigned_le (h : v.Fresh ws) :
    ws.length + (v.write ws).unassigned.length ≤ v.unassigned.length := by
  induction h with
  | nil v => simp
  | @cons v i x ws hi hnone _ ih =>
    have hlt := length_unassigned_assign_lt x hi hnone
    rw [List.length_cons, write_cons]
    omega

/-- No variable is written twice, nor one that had a value. -/
theorem Fresh.nodup (h : v.Fresh ws) :
    (ws.map Prod.fst).Nodup ∧ ∀ i ∈ ws.map Prod.fst, v.value? i = none := by
  induction h with
  | nil => simp
  | @cons v i x ws hi hnone _ ih =>
    obtain ⟨hnd, hvalues⟩ := ih
    have hne : ∀ j ∈ ws.map Prod.fst, i ≠ j ∧ v.value? j = none := by
      intro j hj
      have hj' := hvalues j hj
      rw [value?_assign] at hj'
      split at hj'
      · cases hj'
      · rename_i hnot
        exact ⟨fun hij => hnot ⟨hij, hi⟩, hj'⟩
    rw [List.map_cons]
    refine ⟨List.nodup_cons.2 ⟨fun hmem => (hne i hmem).1 rfl, hnd⟩, ?_⟩
    exact List.forall_mem_cons.2 ⟨hnone, fun j hj => (hne j hj).2⟩

end Assignment

namespace ConstraintSystem

variable [Scalar α] {s : ConstraintSystem α} {v u : Assignment α}

/-! ## What the passes write -/

/-- What a pass over constraints writes, up to the equality that cannot be solved if there is
one. -/
def solveWrites : List (Constraint α) → Assignment α → List (Nat × α)
  | [], _ => []
  | c :: cs, v =>
    if c.kind = .eq then
      match unassignedTerms v c.terms with
      | [(x, coefficient)] =>
        if coefficient == 0 then []
        else (x, solution v c coefficient) ::
          solveWrites cs (v.assign x (solution v c coefficient))
      | _ => solveWrites cs v
    else
      solveWrites cs v

/-- What a pass over rectifiers writes. -/
def rectifyWrites : List Rectifier → Assignment α → List (Nat × α)
  | [], _ => []
  | r :: rs, v =>
    match v.value? r.input, v.value? r.output with
    | some x, none => (r.output, Scalar.positivePart x) ::
        rectifyWrites rs (v.assign r.output (Scalar.positivePart x))
    | _, _ => rectifyWrites rs v

/-- The result of a pass over constraints is what it writes, and the flag tells whether it wrote. -/
theorem write_solveWrites {i : Nat} {cs : List (Constraint α)} {fired : Bool}
    (h : s.solvePass i cs v = .ok (u, fired)) :
    u = v.write (solveWrites cs v) ∧ fired = !(solveWrites cs v).isEmpty := by
  induction cs generalizing i v fired with
  | nil =>
    cases h
    exact ⟨rfl, rfl⟩
  | cons c cs ih =>
    rw [solvePass] at h
    rw [solveWrites]
    by_cases hkind : c.kind = .eq
    · rw [if_pos hkind] at h ⊢
      rcases hopen : unassignedTerms v c.terms with _ | ⟨⟨x, coefficient⟩, _ | ⟨t, ts⟩⟩
      · simp only [hopen] at h ⊢
        exact ih h
      · simp only [hopen] at h ⊢
        by_cases hzero : (coefficient == 0) = true
        · rw [if_pos hzero] at h
          cases h
        · rw [if_neg hzero] at h ⊢
          split at h
          · cases h
          · rename_i w b hrest
            cases h
            exact ⟨(ih hrest).1, rfl⟩
      · simp only [hopen] at h ⊢
        exact ih h
    · rw [if_neg hkind] at h ⊢
      exact ih h

/-- The result of a pass over rectifiers is what it writes, and the flag tells whether it wrote. -/
theorem write_rectifyWrites {rs : List Rectifier} {fired : Bool}
    (h : rectifyPass rs v = (u, fired)) :
    u = v.write (rectifyWrites rs v) ∧ fired = !(rectifyWrites rs v).isEmpty := by
  induction rs generalizing v fired with
  | nil =>
    cases h
    exact ⟨rfl, rfl⟩
  | cons r rs ih =>
    rw [rectifyPass] at h
    rw [rectifyWrites]
    rcases hin : v.value? r.input with _ | x
    · simp only [hin] at h ⊢
      exact ih h
    · rcases hout : v.value? r.output with _ | y
      · simp only [hin, hout] at h ⊢
        cases h
        exact ⟨(ih rfl).1, rfl⟩
      · simp only [hin, hout] at h ⊢
        exact ih h

/-- A pass over constraints writes for variables without a value only. -/
theorem fresh_solveWrites (hs : s.InRange) {cs : List (Constraint α)} (hcs : cs ⊆ s.constraints)
    (hsize : v.size = s.size) : v.Fresh (solveWrites cs v) := by
  induction cs generalizing v with
  | nil => exact .nil v
  | cons c cs ih =>
    obtain ⟨hc, hcs⟩ := List.cons_subset.1 hcs
    rw [solveWrites]
    split
    · split
      · rename_i x coefficient hopen
        split
        · exact .nil v
        · have hmem : (x, coefficient) ∈ unassignedTerms v c.terms := by simp [hopen]
          obtain ⟨hterm, hnone⟩ := mem_unassignedTerms.1 hmem
          have hx : x < v.size := hsize ▸ hs.constraints c hc _ hterm
          exact .cons hx hnone (ih hcs (by rw [Assignment.size_assign, hsize]))
      · exact ih hcs hsize
    · exact ih hcs hsize

/-- A pass over rectifiers writes for variables without a value only. -/
theorem fresh_rectifyWrites (hs : s.InRange) {rs : List Rectifier} (hrs : rs ⊆ s.relus)
    (hsize : v.size = s.size) : v.Fresh (rectifyWrites rs v) := by
  induction rs generalizing v with
  | nil => exact .nil v
  | cons r rs ih =>
    obtain ⟨hr, hrs⟩ := List.cons_subset.1 hrs
    rw [rectifyWrites]
    split
    · rename_i x hin hout
      have hlt : r.output < v.size := hsize ▸ hs.relus r hr
      exact .cons hlt hout (ih hrs (by rw [Assignment.size_assign, hsize]))
    · exact ih hrs hsize

/-! ## Rounds -/

/-- One round: a pass over the constraints, and if it assigned nothing one over the rectifiers. The
flag tells whether something was assigned. -/
def round (s : ConstraintSystem α) (v : Assignment α) :
    Except (EvalError α) (Assignment α × Bool) :=
  match s.solvePass 0 s.constraints v with
  | .error e => .error e
  | .ok (u, true) => .ok (u, true)
  | .ok (u, false) => .ok (rectifyPass s.relus u)

/-- What a round writes. -/
def roundWrites (s : ConstraintSystem α) (v : Assignment α) : List (Nat × α) :=
  match s.solvePass 0 s.constraints v with
  | .ok (u, false) => rectifyWrites s.relus u
  | _ => solveWrites s.constraints v

/-- The rounds from an assignment on, with what they write, until one fails or assigns nothing. -/
inductive Settles (s : ConstraintSystem α) :
    Assignment α → Nat → List (Nat × α) → Except (EvalError α) (Assignment α) → Prop where
  | fails {v : Assignment α} {e : EvalError α} (h : s.round v = .error e) :
      Settles s v 1 (s.roundWrites v) (.error e)
  | stops {v u : Assignment α} (h : s.round v = .ok (u, false)) :
      Settles s v 1 (s.roundWrites v) (.ok u)
  | again {v u : Assignment α} {rounds : Nat} {ws : List (Nat × α)}
      {r : Except (EvalError α) (Assignment α)} (h : s.round v = .ok (u, true))
      (rest : Settles s u rounds ws r) : Settles s v (rounds + 1) (s.roundWrites v ++ ws) r

/-- A bounded propagation begins with a round. -/
theorem propagate_succ (rounds : Nat) (v : Assignment α) :
    s.propagate (rounds + 1) v =
      match s.round v with
      | .error e => .error e
      | .ok (u, true) => s.propagate rounds u
      | .ok (u, false) => .ok u := by
  rw [propagate, round]
  cases s.solvePass 0 s.constraints v with
  | error e => rfl
  | ok p =>
    obtain ⟨u, fired⟩ := p
    cases fired with
    | true => rfl
    | false =>
      dsimp only
      cases rectifyPass s.relus u with
      | mk w fired => cases fired <;> rfl

/-- The result of a round is what it writes, and the flag tells whether it wrote. -/
theorem write_roundWrites {fired : Bool} (h : s.round v = .ok (u, fired)) :
    u = v.write (s.roundWrites v) ∧ fired = !(s.roundWrites v).isEmpty := by
  rw [round] at h
  rw [roundWrites]
  split at h
  · cases h
  · rename_i w hpass
    cases h
    rw [hpass]
    exact write_solveWrites hpass
  · rename_i w hpass
    obtain ⟨rfl, -⟩ := (passes_of_solvePass (List.Subset.refl _) hpass).idles rfl
    rw [hpass]
    exact write_rectifyWrites (Except.ok.inj h)

theorem length_roundWrites_pos (h : s.round v = .ok (u, true)) :
    0 < (s.roundWrites v).length := by
  obtain ⟨-, hwrote⟩ := write_roundWrites h
  rw [List.length_pos_iff, ne_eq, ← List.isEmpty_iff]
  simpa using hwrote

/-- A round writes for variables without a value only. -/
theorem fresh_roundWrites (hs : s.InRange) (hsize : v.size = s.size) :
    v.Fresh (s.roundWrites v) := by
  unfold roundWrites
  split
  · rename_i u hpass
    obtain ⟨rfl, -⟩ := (passes_of_solvePass (List.Subset.refl _) hpass).idles rfl
    exact fresh_rectifyWrites hs (List.Subset.refl _) hsize
  · exact fresh_solveWrites hs (List.Subset.refl _) hsize

/-- A round that assigns nothing leaves nothing to assign. -/
theorem stable_of_round (h : s.round v = .ok (u, false)) : u = v ∧ s.Stable v := by
  rw [round] at h
  split at h
  · cases h
  · cases h
  · rename_i w hpass
    obtain ⟨rfl, hconstraints⟩ := (passes_of_solvePass (List.Subset.refl _) hpass).idles rfl
    obtain ⟨rfl, hrelus⟩ :=
      (passes_of_rectifyPass (List.Subset.refl _) (Except.ok.inj h)).idles rfl
    exact ⟨rfl, hconstraints, hrelus⟩

/-- A round fails only at an equality that cannot be solved. -/
theorem degenerate_of_round {e : EvalError α} (h : s.round v = .error e) :
    ∃ number name, e = .degenerate number name := by
  rw [round] at h
  split at h
  · rename_i cause hpass
    cases h
    obtain ⟨-, -, j, -, x, -, -, he⟩ := degenerate_of_solvePass List.drop_zero hpass
    exact ⟨j, s.name x, he⟩
  · cases h
  · cases h

namespace Settles

variable {rounds rounds' : Nat} {ws ws' : List (Nat × α)}
  {r r' : Except (EvalError α) (Assignment α)}

theorem unique (h : s.Settles v rounds ws r) (h' : s.Settles v rounds' ws' r') :
    rounds' = rounds ∧ ws' = ws ∧ r' = r := by
  induction h generalizing rounds' ws' with
  | fails hround => cases h' <;> simp_all
  | stops hround => cases h' <;> simp_all
  | again hround _ ih =>
    cases h' with
    | fails hround' => simp_all
    | stops hround' => simp_all
    | again hround' rest' =>
      rw [hround] at hround'
      cases hround'
      obtain ⟨rfl, rfl, rfl⟩ := ih rest'
      exact ⟨rfl, rfl, rfl⟩

/-- With a bound that is not reached, bounded propagation has the same result. -/
theorem propagate_eq (h : s.Settles v rounds ws r) {bound : Nat} (hbound : rounds ≤ bound) :
    s.propagate bound v = r := by
  induction h generalizing bound with
  | fails hround =>
    obtain ⟨bound, rfl⟩ := Nat.exists_eq_add_of_lt hbound
    rw [Nat.zero_add, propagate_succ, hround]
  | stops hround =>
    obtain ⟨bound, rfl⟩ := Nat.exists_eq_add_of_lt hbound
    rw [Nat.zero_add, propagate_succ, hround]
  | again hround _ ih =>
    obtain ⟨bound, rfl⟩ := Nat.exists_eq_add_of_lt (Nat.lt_of_lt_of_le (Nat.succ_pos _) hbound)
    rw [Nat.zero_add, propagate_succ, hround]
    exact ih (by omega)

/-- The rounds write for variables without a value only, and each but the last writes. -/
theorem fresh (h : s.Settles v rounds ws r) (hs : s.InRange) (hsize : v.size = s.size) :
    v.Fresh ws ∧ rounds ≤ ws.length + 1 := by
  induction h with
  | fails => exact ⟨fresh_roundWrites hs hsize, by omega⟩
  | stops => exact ⟨fresh_roundWrites hs hsize, by omega⟩
  | @again v u rounds ws r hround _ ih =>
    have hfresh := fresh_roundWrites hs hsize
    have hpos := length_roundWrites_pos hround
    obtain ⟨rfl, -⟩ := write_roundWrites hround
    obtain ⟨hrest, hlen⟩ := ih (hfresh.extendedBy.size.trans hsize)
    rw [List.length_append]
    exact ⟨hfresh.append hrest, by omega⟩

/-- Where propagation ends without a failure, nothing is left to assign, and the result is what was
written. -/
theorem stable (h : s.Settles v rounds ws (.ok u)) : u = v.write ws ∧ s.Stable u := by
  generalize hr : Except.ok u = r at h
  induction h with
  | fails => cases hr
  | stops hround =>
    cases hr
    obtain ⟨rfl, hstable⟩ := stable_of_round hround
    exact ⟨(write_roundWrites hround).1, hstable⟩
  | again hround _ ih =>
    obtain ⟨rfl, hstable⟩ := ih hr
    obtain ⟨rfl, -⟩ := write_roundWrites hround
    exact ⟨(Assignment.write_append ..).symm, hstable⟩

theorem degenerate {e : EvalError α} (h : s.Settles v rounds ws (.error e)) :
    ∃ number name, e = .degenerate number name := by
  generalize hr : Except.error e = r at h
  induction h with
  | fails hround =>
    cases hr
    exact degenerate_of_round hround
  | stops => cases hr
  | again _ _ ih => exact ih hr

end Settles

/-- The rounds come to an end: each that goes on leaves fewer variables without a value. -/
theorem exists_settles (hs : s.InRange) (hsize : v.size = s.size) :
    ∃ rounds ws r, s.Settles v rounds ws r := by
  induction hn : v.unassigned.length using Nat.strong_induction_on generalizing v with
  | h n ih =>
    subst hn
    cases hround : s.round v with
    | error e => exact ⟨1, _, _, .fails hround⟩
    | ok p =>
      obtain ⟨u, fired⟩ := p
      cases fired with
      | false => exact ⟨1, _, _, .stops hround⟩
      | true =>
        have hfresh := fresh_roundWrites hs hsize
        have hpos := length_roundWrites_pos hround
        have hle := hfresh.length_add_unassigned_le
        obtain ⟨rfl, -⟩ := write_roundWrites hround
        obtain ⟨rounds, ws, r, hrest⟩ := ih _ (by omega) (hfresh.extendedBy.size.trans hsize) rfl
        exact ⟨rounds + 1, _, r, .again hround hrest⟩

/-! ## Evaluation -/

omit [Scalar α] in
/-- Of the values given for an input the last one counts. -/
theorem value?_given_eq_some {xs : List α} {k i : Nat} {x : α} (hi : i < s.size)
    (hinput : s.inputs[k]? = some i) (hx : xs[k]? = some x)
    (hlast : ∀ j, k < j → s.inputs[j]? ≠ some i) : (s.given xs).value? i = some x := by
  have hpair : (s.inputs.zip xs)[k]? = some (i, x) := List.getElem?_zip_eq_some.2 ⟨hinput, hx⟩
  obtain ⟨hk, hget⟩ := List.getElem?_eq_some_iff.1 hpair
  have hsplit : s.inputs.zip xs =
      (s.inputs.zip xs).take k ++ (i, x) :: (s.inputs.zip xs).drop (k + 1) := by
    rw [← hget, ← List.drop_eq_getElem_cons hk, List.take_append_drop]
  -- The values behind the last one are given for other variables.
  have hothers : ∀ p ∈ (s.inputs.zip xs).drop (k + 1), p.1 ≠ i := by
    rintro p hp rfl
    obtain ⟨j, hj⟩ := List.mem_iff_getElem?.1 hp
    rw [List.getElem?_drop, List.getElem?_zip_eq_some] at hj
    exact hlast _ (by omega) hj.1
  unfold given
  rw [hsplit, List.foldl_append, List.foldl_cons]
  refine value?_foldl_assign_of_ne ?_ hothers
  rw [Assignment.value?_assign, if_pos ⟨rfl, by simpa [size_foldl_assign] using hi⟩]

/-- Evaluation reports how the rounds end, and which variables are left. -/
theorem Settles.forward_eq {xs : List α} {rounds : Nat} {ws : List (Nat × α)}
    {r : Except (EvalError α) (Assignment α)} (h : s.Settles (s.seed xs) rounds ws r)
    (hlen : xs.length = s.inputs.length)
    (hbound : rounds ≤ (s.seed xs).unassigned.length + 1) :
    s.forward xs = r.bind fun v =>
      match v.unassigned with
      | [] => .ok v
      | i :: is => .error (.incomplete (is.length + 1) (s.name i)) := by
  rw [forward, if_neg (not_not.2 hlen)]
  simp only [h.propagate_eq hbound]
  cases r <;> rfl

/-- What evaluation starts from is still there: the values of coinciding bounds, and for the other
inputs the given values, of which the last one counts. -/
structure KeepsStart (s : ConstraintSystem α) (xs : List α) (v : Assignment α) : Prop where
  fixed : ∀ (i : Nat) (l u : α), s.bounds[i]? = some ⟨some l, some u⟩ → (l == u) = true →
    v.value? i = some u
  inputs : ∀ (k i : Nat) (x : α), s.inputs[k]? = some i → xs[k]? = some x →
    (∀ j, k < j → s.inputs[j]? ≠ some i) →
    (∀ b, s.bounds[i]? = some b → b.fixedValue? = none) → v.value? i = some x

/-- Evaluation of a query goes through a certain number of rounds, at most one more than there are
variables without a value at its start. Every value is written for a variable that has none, so
what it started from stays. If it does not stop at an equality that cannot be solved, no equality
has exactly one open term and no rectifier an open output behind a known input, and it reports the
variables that are left. -/
theorem propagation_ends {a : Arena α} {q : Query α} {xs : List α} (hs : ofQuery a q = .ok s)
    (hlen : xs.length = s.inputs.length) :
    ∃ rounds ws r, s.Settles (s.seed xs) rounds ws r ∧
      (∀ rounds' ws' r', s.Settles (s.seed xs) rounds' ws' r' →
        rounds' = rounds ∧ ws' = ws ∧ r' = r) ∧
      rounds ≤ (s.seed xs).unassigned.length + 1 ∧
      (∀ bound, rounds ≤ bound → s.propagate bound (s.seed xs) = r) ∧
      (s.seed xs).Fresh ws ∧
      ((ws.map Prod.fst).Nodup ∧ ∀ i ∈ ws.map Prod.fst, (s.seed xs).value? i = none) ∧
      s.KeepsStart xs ((s.seed xs).write ws) ∧
      (∀ e, r = .error e → (∃ number name, e = .degenerate number name) ∧
        s.forward xs = .error e) ∧
      ∀ v, r = .ok v → v = (s.seed xs).write ws ∧ s.Stable v ∧
        (v.unassigned = [] → s.forward xs = .ok v) ∧
        ∀ i is, v.unassigned = i :: is →
          s.forward xs = .error (.incomplete (is.length + 1) (s.name i)) := by
  have hn := ofQuery_eq_ok hs
  have hsize := size_seed s xs
  obtain ⟨rounds, ws, r, hsettles⟩ := exists_settles hn.inRange hsize
  obtain ⟨hfresh, hrounds⟩ := hsettles.fresh hn.inRange hsize
  have hwritten := hfresh.length_add_unassigned_le
  have hbound : rounds ≤ (s.seed xs).unassigned.length + 1 := by omega
  have hforward := hsettles.forward_eq hlen hbound
  refine ⟨rounds, ws, r, hsettles, fun _ _ _ h => hsettles.unique h, hbound,
    fun _ h => hsettles.propagate_eq h, hfresh, hfresh.nodup, ⟨?_, ?_⟩, ?_, ?_⟩
  · intro i l u hb heq
    have hi : i < s.size := hn.lt_size_of_bounds hb
    refine hfresh.extendedBy.value i u ?_
    rw [value?_seed hi, hb]
    exact if_pos heq
  · intro k i x hinput hx hlast hfree
    have hi : i < s.size := hn.inRange.inputs i (List.mem_of_getElem? hinput)
    refine hfresh.extendedBy.value i x ?_
    rw [← value?_given_eq_some hi hinput hx hlast]
    exact value?_seed_of_free hi hfree
  · rintro e rfl
    exact ⟨hsettles.degenerate, hforward⟩
  · rintro v rfl
    obtain ⟨hv, hstable⟩ := hsettles.stable
    refine ⟨hv, hstable, fun hnil => ?_, fun i is hcons => ?_⟩
    · rw [hforward, Except.bind]
      simp only [hnil]
    · rw [hforward, Except.bind]
      simp only [hcons]

/-- On the sample, three variables are open at the start, and there are four rounds. -/
theorem propagation_ends_sample :
    ofQuery sampleArena sampleQuery = .ok sampleSystem ∧
      [(2 : Rat)].length = sampleSystem.inputs.length ∧
      (sampleSystem.seed [2]).unassigned = [0, 2, 3] ∧
      ∃ ws r, ws = [((3 : Nat), (3 : Rat)), (2, 3), (0, 4 / 3)] ∧
        sampleSystem.Settles (sampleSystem.seed [2]) 4 ws r ∧ (sampleSystem.seed [2]).Fresh ws ∧
        ∀ v, r = .ok v → sampleSystem.Stable v := by
  have hs : ofQuery sampleArena sampleQuery = .ok sampleSystem := by rfl
  have hlen : [(2 : Rat)].length = sampleSystem.inputs.length := by rfl
  have hround₁ : sampleSystem.round (sampleSystem.seed [2]) =
      .ok (#[none, some 2, none, some 3], true) := by decide +kernel
  have hround₂ : sampleSystem.round #[none, some 2, none, some 3] =
      .ok (#[none, some 2, some 3, some 3], true) := by decide +kernel
  have hround₃ : sampleSystem.round #[none, some 2, some 3, some 3] =
      .ok (#[some (4 / 3), some 2, some 3, some 3], true) := by decide +kernel
  have hround₄ : sampleSystem.round #[some (4 / 3), some 2, some 3, some 3] =
      .ok (#[some (4 / 3), some 2, some 3, some 3], false) := by decide +kernel
  have hsettles := Settles.again hround₁ (.again hround₂ (.again hround₃ (.stops hround₄)))
  obtain ⟨rounds, ws, r, -, hunique, -, -, hfresh, -, -, -, hok⟩ := propagation_ends hs hlen
  obtain ⟨rfl, rfl, rfl⟩ := hunique _ _ _ hsettles
  exact ⟨hs, hlen, by decide +kernel, _, _, by decide +kernel, hsettles, hfresh,
    fun v hv => (hok v hv).2.1⟩

end ConstraintSystem

end PiecewiseNet
