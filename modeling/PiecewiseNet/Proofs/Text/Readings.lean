/-!
# Readings

A reading takes what it reads off a state, and yields a value or fails. It succeeds in one way at
most. The lemmas here take a successful reading apart.

## Main definitions

- `Text.Reads`: the reading succeeds with a value and leaves a state behind.

## Main statements

- `Text.reads_bind`: one reading after the other.
- `Text.map_fst_run_eq_ok_iff`: the value of a whole reading.
-/

namespace PiecewiseNet.Text

variable {σ ε β γ : Type} {s s' : σ} {x : β}

/-- From state `s` the reading yields `x`, and leaves the state `s'` behind. -/
def Reads (m : StateT σ (Except ε) β) (s : σ) (x : β) (s' : σ) : Prop :=
  m.run s = .ok (x, s')

@[simp] theorem reads_pure {y : β} :
    Reads (pure x : StateT σ (Except ε) β) s y s' ↔ y = x ∧ s' = s := by
  constructor
  · intro h
    cases h
    exact ⟨rfl, rfl⟩
  · rintro ⟨rfl, rfl⟩
    rfl

/-- Readings one after the other: the second one starts from what the first one leaves behind. -/
@[simp] theorem reads_bind {m : StateT σ (Except ε) β} {f : β → StateT σ (Except ε) γ} {y : γ} :
    Reads (m >>= f) s y s' ↔ ∃ x t, Reads m s x t ∧ Reads (f x) t y s' := by
  have hrun : (m >>= f).run s = m.run s >>= fun p => (f p.1).run p.2 := rfl
  rw [Reads, hrun]
  constructor
  · intro h
    cases hm : m.run s with
    | error err =>
      rw [hm] at h
      cases h
    | ok p =>
      rw [hm] at h
      exact ⟨p.1, p.2, hm, h⟩
  · rintro ⟨x, t, hm, hf⟩
    rw [Reads] at hm hf
    rw [hm]
    exact hf

/-- The value of a whole reading, without what it leaves behind. -/
theorem map_fst_run_eq_ok_iff {m : StateT σ (Except ε) β} :
    (·.1) <$> m.run s = .ok x ↔ ∃ s', Reads m s x s' := by
  unfold Reads
  cases m.run s with
  | error err =>
    constructor
    · intro h
      cases h
    · rintro ⟨s', h⟩
      cases h
  | ok p =>
    constructor
    · intro h
      cases h
      exact ⟨p.2, rfl⟩
    · rintro ⟨s', h⟩
      cases h
      rfl

end PiecewiseNet.Text
