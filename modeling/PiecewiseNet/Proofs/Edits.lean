import PiecewiseNet.Arena

/-!
# Edits

An edit of an arena succeeds in one way at most. The lemmas here take a successful edit apart.

## Main definitions

- `Edit.Yields`: the edit succeeds with a result and leaves an arena behind.

## Main statements

- `Edit.yields_bind`: one edit after the other.
- `Edit.redirectAll_yields`, `Edit.exists_redirectAll`: letting several nodes read others.
-/

namespace PiecewiseNet

variable {ε α β γ : Type}

/-- One fallible computation after the other succeeds when both do. -/
theorem bind_eq_ok_iff {r : Except ε β} {f : β → Except ε γ} {y : γ} :
    r >>= f = .ok y ↔ ∃ x, r = .ok x ∧ f x = .ok y := by
  cases r <;> simp [bind, Except.bind]

/-- Whether a computation succeeds can be seen from its outcome. -/
theorem exists_eq_ok_iff {r : Except ε β} : (∃ x, r = .ok x) ↔ r.isOk = true := by
  cases r <;> simp [Except.isOk, Except.toBool]

/-- One change to a state after the other: the second one starts from what the first one leaves
behind, and is not run if the first one fails. -/
theorem run_bind {σ : Type} (c : ExceptT ε (StateM σ) β) (f : β → ExceptT ε (StateM σ) γ) (s : σ) :
    (c >>= f).run s =
      match c.run s with
      | (.ok x, s') => (f x).run s'
      | (.error err, s') => (.error err, s') := by
  show (ExceptT.bind c f).run s = _
  simp only [ExceptT.bind, ExceptT.bindCont, ExceptT.run, ExceptT.mk, bind, StateT.bind]
  cases h : c s with
  | mk r s' => cases r <;> rfl

/-- Looking at the state changes nothing. -/
theorem run_get {σ : Type} (s : σ) : (get : ExceptT ε (StateM σ) σ).run s = (.ok s, s) := rfl

namespace Edit

/-- Run on arena `a`, the edit succeeds with result `x` and leaves arena `b` behind. -/
def Yields (e : Edit ε α β) (a : Arena α) (x : β) (b : Arena α) : Prop :=
  e.run a = (.ok x, b)

/-- An edit has one outcome. -/
theorem Yields.unique {e : Edit ε α β} {a b b' : Arena α} {x x' : β} (h : e.Yields a x b)
    (h' : e.Yields a x' b') : x = x' ∧ b = b' := by
  have heq := h.symm.trans h'
  cases heq
  exact ⟨rfl, rfl⟩

/-- Whether an edit succeeds can be seen by running it. -/
theorem exists_yields_iff {e : Edit ε α β} {a : Arena α} :
    (∃ x b, e.Yields a x b) ↔ (e.run a).1.isOk = true := by
  constructor
  · rintro ⟨x, b, h⟩
    rw [h]
    rfl
  · intro h
    cases hrun : e.run a with
    | mk r b =>
      cases r with
      | error err =>
        rw [hrun] at h
        cases h
      | ok x => exact ⟨x, b, hrun⟩

/-- Whether an edit succeeds with a result and an arena of some kind can be seen by running it. -/
theorem exists_yields_and_iff {e : Edit ε α β} {a : Arena α} {p : β → Arena α → Prop}
    [∀ x b, Decidable (p x b)] :
    (∃ x b, e.Yields a x b ∧ p x b) ↔
      (match e.run a with
        | (.ok x, b) => decide (p x b)
        | (.error _, _) => false) = true := by
  cases hrun : e.run a with
  | mk r b =>
    cases r with
    | error err =>
      constructor
      · rintro ⟨x, b', h, -⟩
        rw [Yields, hrun] at h
        cases h
      · intro h
        cases h
    | ok x =>
      constructor
      · rintro ⟨x', b', h, hp⟩
        rw [Yields, hrun] at h
        cases h
        exact decide_eq_true hp
      · intro h
        exact ⟨x, b, hrun, of_decide_eq_true h⟩

@[simp] theorem yields_pure {x y : β} {a b : Arena α} :
    (pure x : Edit ε α β).Yields a y b ↔ y = x ∧ b = a := by
  constructor
  · intro h
    cases h
    exact ⟨rfl, rfl⟩
  · rintro ⟨rfl, rfl⟩
    rfl

/-- Edits one after the other: the second one starts from what the first one leaves behind. -/
@[simp] theorem yields_bind {e : Edit ε α β} {f : β → Edit ε α γ} {a c : Arena α} {y : γ} :
    (e >>= f).Yields a y c ↔ ∃ x b, e.Yields a x b ∧ (f x).Yields b y c := by
  constructor
  · intro h
    rw [Yields, run_bind] at h
    split at h
    · rename_i x b he
      exact ⟨x, b, he, h⟩
    · cases h
  · rintro ⟨x, b, he, hf⟩
    rw [Yields, run_bind, he]
    exact hf

@[simp] theorem not_yields_throw {err : ε} {a b : Arena α} {x : β} :
    ¬(throw err : Edit ε α β).Yields a x b := by
  intro h
  cases h

@[simp] theorem yields_arena {a b c : Arena α} :
    (arena : Edit ε α (Arena α)).Yields a b c ↔ b = a ∧ c = a := by
  constructor
  · intro h
    cases h
    exact ⟨rfl, rfl⟩
  · rintro ⟨rfl, rfl⟩
    rfl

@[simp] theorem yields_set {a b c : Arena α} {u : Unit} :
    (set b : Edit ε α Unit).Yields a u c ↔ c = b := by
  constructor
  · intro h
    cases h
    rfl
  · rintro rfl
    rfl

@[simp] theorem yields_ofExcept {r : Except ε β} {a b : Arena α} {x : β} :
    (ofExcept r : Edit ε α β).Yields a x b ↔ r = .ok x ∧ b = a := by
  constructor
  · intro h
    cases h
    exact ⟨rfl, rfl⟩
  · rintro ⟨rfl, rfl⟩
    rfl

@[simp] theorem yields_reading {f : Arena α → Except ε β} {a b : Arena α} {x : β} :
    (reading f).Yields a x b ↔ f a = .ok x ∧ b = a := by
  simp only [reading, yields_bind, yields_arena, yields_ofExcept]
  constructor
  · rintro ⟨_, _, ⟨rfl, rfl⟩, hf, rfl⟩
    exact ⟨hf, rfl⟩
  · rintro ⟨hf, rfl⟩
    exact ⟨b, b, ⟨rfl, rfl⟩, hf, rfl⟩

@[simp] theorem yields_push {n : Node α} {a b : Arena α} {id : NodeId} :
    (push n : Edit ε α NodeId).Yields a id b ↔ id = a.size ∧ b = a.push n := by
  constructor
  · intro h
    cases h
    exact ⟨rfl, rfl⟩
  · rintro ⟨rfl, rfl⟩
    rfl

/-- A node is read where it is in the arena. -/
@[simp] theorem yields_node {id : NodeId} {a b : Arena α} {n : Node α} :
    (node id : Edit (GraphError α) α (Node α)).Yields a n b ↔ a.get? id = some n ∧ b = a := by
  unfold node
  rw [yields_reading, Arena.node]
  cases a.get? id <;> simp [eq_comm]

@[simp] theorem yields_update {id : NodeId} {f : Node α → Node α} {a b : Arena α} {u : Unit} :
    (update id f).Yields a u b ↔ ∃ n, a.get? id = some n ∧ b = a.set id (f n) := by
  simp only [update, yields_bind, yields_node, yields_arena, yields_set]
  constructor
  · rintro ⟨n, _, ⟨hn, rfl⟩, _, _, ⟨rfl, rfl⟩, rfl⟩
    exact ⟨n, hn, rfl⟩
  · rintro ⟨n, hn, rfl⟩
    exact ⟨n, a, ⟨hn, rfl⟩, a, a, ⟨rfl, rfl⟩, rfl⟩

/-- Telling a failure in other words changes nothing else. -/
@[simp] theorem yields_adapt {δ : Type} {f : ε → δ} {e : Edit ε α β} {a b : Arena α} {x : β} :
    Yields (ExceptT.adapt f e : Edit δ α β) a x b ↔ e.Yields a x b := by
  have hrun : (ExceptT.adapt f e : Edit δ α β).run a = ((e.run a).1.mapError f, (e.run a).2) := rfl
  rw [Yields, Yields, hrun]
  cases he : e.run a with
  | mk r c =>
    cases r with
    | error err =>
      constructor
      · intro h
        cases h
      · intro h
        cases h
    | ok y =>
      constructor
      · intro h
        cases h
        rfl
      · intro h
        cases h
        rfl

@[simp] theorem yields_copyNode {id copy : NodeId} {suffix : String} {a b : Arena α} :
    (copyNode id suffix).Yields a copy b ↔
      ∃ n, a.get? id = some n ∧ copy = a.size ∧ b = a.push (n.copied suffix) := by
  simp only [copyNode, yields_bind, yields_node, yields_push]
  constructor
  · rintro ⟨n, _, ⟨hn, rfl⟩, rfl, rfl⟩
    exact ⟨n, hn, rfl, rfl⟩
  · rintro ⟨n, hn, rfl, rfl⟩
    exact ⟨n, a, ⟨hn, rfl⟩, rfl, rfl⟩

@[simp] theorem yields_sever {id input : NodeId} {suffix : String} {a b : Arena α} :
    (sever id suffix).Yields a input b ↔
      ∃ n, a.get? id = some n ∧ input = a.size ∧ b = a.push (n.severed suffix) := by
  simp only [sever, yields_bind, yields_node, yields_push]
  constructor
  · rintro ⟨n, _, ⟨hn, rfl⟩, rfl, rfl⟩
    exact ⟨n, hn, rfl, rfl⟩
  · rintro ⟨n, hn, rfl, rfl⟩
    exact ⟨n, a, ⟨hn, rfl⟩, rfl, rfl⟩

@[simp] theorem yields_redirect {s : Substitution} {id : NodeId} {a b : Arena α} {u : Unit} :
    (redirect s id).Yields a u b ↔
      ∃ n, a.get? id = some n ∧ b = a.set id (n.redirect s.apply) := by
  rw [redirect, yields_update]

/-- Bounds that can be met replace those of the node. -/
@[simp] theorem yields_limit [Scalar α] {id : NodeId} {lower upper : Option α} {a b : Arena α}
    {u : Unit} :
    (limit id lower upper).Yields a u b ↔
      ∃ n, a.get? id = some n ∧ (n.bounds.narrowed lower upper).isEmpty = false ∧
        b = a.set id { n with bounds := n.bounds.narrowed lower upper } := by
  have hupdate : ∀ n, a.get? id = some n →
      ((update id ({ · with bounds := n.bounds.narrowed lower upper })).Yields a u b ↔
        b = a.set id { n with bounds := n.bounds.narrowed lower upper }) := by
    intro n hn
    simp [hn]
  simp only [limit, yields_bind, yields_node]
  constructor
  · rintro ⟨n, _, ⟨hn, rfl⟩, h⟩
    refine ⟨n, hn, ?_⟩
    split at h
    · rename_i l w hl hw
      split at h
      · exact absurd h not_yields_throw
      · rename_i hlt
        exact ⟨by simpa [Interval.isEmpty, hl, hw] using hlt, (hupdate n hn).1 h⟩
    · rename_i hnot
      refine ⟨?_, (hupdate n hn).1 h⟩
      unfold Interval.isEmpty
      split
      · rename_i l w hl hw
        exact absurd hw (hnot l w hl)
      · rfl
  · rintro ⟨n, hn, hmeets, hb⟩
    refine ⟨n, a, ⟨hn, rfl⟩, ?_⟩
    split
    · rename_i l w hl hw
      rw [if_neg (by simpa [Interval.isEmpty, hl, hw] using hmeets)]
      exact (hupdate n hn).2 hb
    · exact (hupdate n hn).2 hb

/-! ## Many nodes -/

theorem forM_map_redirect (s : Substitution) (f : NodeId → NodeId) (ids : List NodeId) :
    (ids.map f).forM (redirect (α := α) s) = ids.forM fun id => redirect s (f id) := by
  simp only [List.forM_eq_forM, List.forM_map]

/-- Letting distinct nodes read others changes these nodes and no other. -/
theorem redirectAll_yields {s : Substitution} {ids : List NodeId} {a b : Arena α} {u : PUnit}
    (h : Yields (ids.forM (redirect s)) a u b) (hnd : ids.Nodup) :
    b.size = a.size ∧ (∀ id ∈ ids, (a.get? id).isSome) ∧
      ∀ j, b.get? j = if j ∈ ids then (a.get? j).map (·.redirect s.apply) else a.get? j := by
  induction ids generalizing a with
  | nil =>
    obtain ⟨-, rfl⟩ := yields_pure.1 h
    simp
  | cons id ids ih =>
    obtain ⟨hid, hnd⟩ := List.nodup_cons.1 hnd
    obtain ⟨_, c, hfirst, hrest⟩ := yields_bind.1 h
    obtain ⟨n, hn, rfl⟩ := yields_redirect.1 hfirst
    obtain ⟨hsize, hheld, hget⟩ := ih hrest hnd
    have hlt : id < a.size := Arena.lt_size_of_get? hn
    refine ⟨by rw [hsize, Arena.size_set], ?_, ?_⟩
    · intro j hj
      rcases List.mem_cons.1 hj with rfl | hj
      · simp [hn]
      · have := hheld j hj
        rw [Arena.get?_set, if_neg (by rintro ⟨rfl, -⟩; exact hid hj)] at this
        exact this
    · intro j
      rw [hget, Arena.get?_set]
      by_cases hj : id = j
      · subst hj
        simp [hid, hlt, hn]
      · simp [hj, Ne.symm hj]

/-- Nodes that are in the arena can be made to read others. -/
theorem exists_redirectAll {s : Substitution} {ids : List NodeId} {a : Arena α}
    (h : ∀ id ∈ ids, (a.get? id).isSome) :
    ∃ b, Yields (ids.forM (redirect s)) a PUnit.unit b := by
  induction ids generalizing a with
  | nil => exact ⟨a, yields_pure.2 ⟨rfl, rfl⟩⟩
  | cons id ids ih =>
    obtain ⟨n, hn⟩ := Option.isSome_iff_exists.1 (h id (List.mem_cons_self ..))
    have hrest : ∀ j ∈ ids, ((a.set id (n.redirect s.apply)).get? j).isSome := by
      intro j hj
      rw [Arena.get?_set]
      split
      · rfl
      · exact h j (List.mem_cons_of_mem _ hj)
    obtain ⟨b, hb⟩ := ih hrest
    exact ⟨b, yields_bind.2 ⟨(), _, yields_redirect.2 ⟨n, hn, rfl⟩, hb⟩⟩

end Edit

end PiecewiseNet
