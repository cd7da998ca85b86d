import PiecewiseNet.Proofs.Edits

/-!
# Edits that fail

A failing edit leaves an arena behind as well: what it changed before it failed stays changed. The
lemmas here take a failing edit apart.

## Main definitions

- `Edit.Fails`: the edit fails with a cause and leaves an arena behind.

## Main statements

- `Edit.fails_bind`: of two edits the first one fails, or it succeeds and the second one fails.
- `Edit.fails_limit`: narrowing fails on a node that is not there, or when nothing would be left.
- `Edit.fails_forM`: of many edits one fails, on what those before it leave behind.
-/

namespace PiecewiseNet

namespace Edit

variable {ε α β γ : Type} {a b c : Arena α} {err : ε}

/-- Run on arena `a`, the edit fails with cause `err` and leaves arena `b` behind. -/
def Fails (e : Edit ε α β) (a : Arena α) (err : ε) (b : Arena α) : Prop :=
  e.run a = (.error err, b)

/-- An edit fails or succeeds. -/
theorem Yields.not_fails {e : Edit ε α β} {x : β} (h : e.Yields a x b) : ¬e.Fails a err c := by
  intro hfails
  have heq := h.symm.trans hfails
  cases heq

/-- An edit fails in one way. -/
theorem Fails.unique {e : Edit ε α β} {err' : ε} (h : e.Fails a err b) (h' : e.Fails a err' c) :
    err = err' ∧ b = c := by
  have heq := h.symm.trans h'
  cases heq
  exact ⟨rfl, rfl⟩

@[simp] theorem not_fails_pure {x : β} : ¬(pure x : Edit ε α β).Fails a err b := by
  intro h
  cases h

@[simp] theorem fails_throw {err' : ε} :
    (throw err' : Edit ε α β).Fails a err b ↔ err = err' ∧ b = a := by
  constructor
  · intro h
    cases h
    exact ⟨rfl, rfl⟩
  · rintro ⟨rfl, rfl⟩
    rfl

/-- Of two edits the first one fails, or it succeeds and the second one fails. -/
@[simp] theorem fails_bind {e : Edit ε α β} {f : β → Edit ε α γ} :
    (e >>= f).Fails a err c ↔ e.Fails a err c ∨ ∃ x b, e.Yields a x b ∧ (f x).Fails b err c := by
  constructor
  · intro h
    rw [Fails, run_bind] at h
    split at h
    · rename_i x b he
      exact .inr ⟨x, b, he, h⟩
    · rename_i err' b he
      cases h
      exact .inl he
  · rintro (h | ⟨x, b, he, hf⟩)
    · rw [Fails] at h
      rw [Fails, run_bind, h]
    · rw [Yields] at he
      rw [Fails, run_bind, he]
      exact hf

/-- If the second edit does not fail with this cause, the first one does. -/
theorem fails_bind_iff {e : Edit ε α β} {f : β → Edit ε α γ}
    (hf : ∀ x b, e.Yields a x b → ¬(f x).Fails b err c) :
    (e >>= f).Fails a err c ↔ e.Fails a err c := by
  rw [fails_bind]
  refine or_iff_left ?_
  rintro ⟨x, b, hx, hfails⟩
  exact hf x b hx hfails

@[simp] theorem not_fails_arena : ¬(arena : Edit ε α (Arena α)).Fails a err b := by
  intro h
  cases h

@[simp] theorem not_fails_set : ¬(set c : Edit ε α Unit).Fails a err b := by
  intro h
  cases h

@[simp] theorem fails_ofExcept {r : Except ε β} :
    (ofExcept r : Edit ε α β).Fails a err b ↔ r = .error err ∧ b = a := by
  constructor
  · intro h
    cases h
    exact ⟨rfl, rfl⟩
  · rintro ⟨rfl, rfl⟩
    rfl

@[simp] theorem fails_reading {f : Arena α → Except ε β} :
    (reading f).Fails a err b ↔ f a = .error err ∧ b = a := by
  simp only [reading, fails_bind, not_fails_arena, false_or, yields_arena, fails_ofExcept]
  constructor
  · rintro ⟨_, _, ⟨rfl, rfl⟩, hf, rfl⟩
    exact ⟨hf, rfl⟩
  · rintro ⟨hf, rfl⟩
    exact ⟨b, b, ⟨rfl, rfl⟩, hf, rfl⟩

/-- Telling a failure in other words changes nothing else. -/
@[simp] theorem fails_adapt {δ : Type} {f : ε → δ} {e : Edit ε α β} {err : δ} :
    Fails (ExceptT.adapt f e : Edit δ α β) a err b ↔
      ∃ cause, e.Fails a cause b ∧ err = f cause := by
  have hrun : (ExceptT.adapt f e : Edit δ α β).run a = ((e.run a).1.mapError f, (e.run a).2) := rfl
  rw [Fails, hrun]
  constructor
  · intro h
    rcases he : e.run a with ⟨cause | x, c⟩
    · rw [he] at h
      cases h
      exact ⟨cause, he, rfl⟩
    · rw [he] at h
      cases h
  · rintro ⟨cause, he, rfl⟩
    rw [Fails] at he
    rw [he]
    rfl

section

variable {err : GraphError α} {id : NodeId}

/-- A node is not read where it is not in the arena. -/
@[simp] theorem fails_node :
    (node id : Edit (GraphError α) α (Node α)).Fails a err b ↔
      a.get? id = none ∧ err = .misuse (.foreignNode id) ∧ b = a := by
  rw [node, fails_reading, Arena.node]
  cases a.get? id <;> simp [eq_comm]

@[simp] theorem fails_update {f : Node α → Node α} :
    (update id f).Fails a err b ↔
      a.get? id = none ∧ err = .misuse (.foreignNode id) ∧ b = a := by
  simp [update]

/-- Narrowing fails on a node that is not there, or when nothing would be left, and changes nothing
then. -/
theorem fails_limit [Scalar α] {lower upper : Option α} :
    (limit id lower upper).Fails a err b ↔ b = a ∧
      ((a.get? id = none ∧ err = .misuse (.foreignNode id)) ∨
        ∃ n l u, a.get? id = some n ∧ n.bounds.narrowed lower upper = ⟨some l, some u⟩ ∧ u < l ∧
          err = .emptyBounds n.displayName l u) := by
  simp only [limit, fails_bind, fails_node, yields_node]
  constructor
  · rintro (⟨hnone, rfl, rfl⟩ | ⟨n, _, ⟨hn, rfl⟩, h⟩)
    · exact ⟨rfl, .inl ⟨hnone, rfl⟩⟩
    · split at h
      · rename_i l u hl hu
        split at h
        · rename_i hlt
          obtain ⟨rfl, rfl⟩ := fails_throw.1 h
          exact ⟨rfl, .inr ⟨n, l, u, hn, by rw [← hl, ← hu], hlt, rfl⟩⟩
        · simp [hn] at h
      · simp [hn] at h
  · rintro ⟨rfl, ⟨hnone, rfl⟩ | ⟨n, l, u, hn, hnarrow, hlt, rfl⟩⟩
    · exact .inl ⟨hnone, rfl, rfl⟩
    · refine .inr ⟨n, b, ⟨hn, rfl⟩, ?_⟩
      simp only [hnarrow, if_pos hlt]
      exact fails_throw.2 ⟨rfl, rfl⟩

end

/-! ## Many edits -/

/-- Of edits one after the other the first to fail runs on what those before it leave behind. -/
theorem fails_forM {f : β → Edit ε α PUnit} {xs : List β} :
    Fails (xs.forM f) a err b ↔ ∃ m x c, xs[m]? = some x ∧
      Yields ((xs.take m).forM f) a PUnit.unit c ∧ (f x).Fails c err b := by
  induction xs generalizing a with
  | nil =>
    constructor
    · intro h
      exact absurd h not_fails_pure
    · rintro ⟨m, x, c, hx, -⟩
      cases hx
  | cons x xs ih =>
    have hcons : Fails ((x :: xs).forM f) a err b ↔
        (f x).Fails a err b ∨ ∃ u c, (f x).Yields a u c ∧ Fails (xs.forM f) c err b := fails_bind
    rw [hcons]
    constructor
    · rintro (h | ⟨u, c, hx, h⟩)
      · exact ⟨0, x, a, rfl, yields_pure.2 ⟨rfl, rfl⟩, h⟩
      · obtain ⟨m, y, d, hy, hbefore, hfails⟩ := ih.1 h
        exact ⟨m + 1, y, d, hy, yields_bind.2 ⟨u, c, hx, hbefore⟩, hfails⟩
    · rintro ⟨m, y, d, hy, hbefore, hfails⟩
      cases m with
      | zero =>
        obtain rfl : x = y := Option.some.inj hy
        obtain ⟨-, rfl⟩ := yields_pure.1 hbefore
        exact .inl hfails
      | succ m =>
        obtain ⟨u, c, hx, hrest⟩ := yields_bind.1 hbefore
        exact .inr ⟨u, c, hx, ih.2 ⟨m, y, d, hy, hrest, hfails⟩⟩

end Edit

end PiecewiseNet
