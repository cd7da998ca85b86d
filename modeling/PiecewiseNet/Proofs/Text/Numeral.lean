import PiecewiseNet.Text.Blank
import PiecewiseNet.Text.Numeral

/-!
# Reading natural numbers back

The decimal digits of a number are read back as that number, unless it is above the limit of the
reader. Whatever the reader accepts is within its limit.

## Main statements

- `Text.readNat_toString`: the written form of a number is read back.
- `Text.le_limit_of_readNat`: a number that was read is within the limit.
- `Text.isPlain_of_mem_toString`: digits are neither blanks nor separators.
-/

namespace PiecewiseNet.Text

/-- A character that neither separates fields nor is dropped at their ends. -/
def IsPlain (c : Char) : Prop :=
  c ≠ ',' ∧ isBlank c = false

instance instDecidablePredIsPlain : DecidablePred IsPlain :=
  fun c => inferInstanceAs (Decidable (c ≠ ',' ∧ isBlank c = false))

theorem digit?_of_isDigit {c : Char} (h : c.isDigit = true) :
    digit? c = some (c.toNat - '0'.toNat) := by
  have hrange : '0' ≤ c ∧ c ≤ '9' := by
    simpa [Char.isDigit, Char.le_def, and_comm] using h
  rw [digit?, if_pos hrange]

theorem toNat_of_isDigit {c : Char} (h : c.isDigit = true) : 48 ≤ c.toNat ∧ c.toNat ≤ 57 := by
  simp only [Char.isDigit, Bool.and_eq_true, decide_eq_true_eq, ge_iff_le, UInt32.le_iff_toNat_le]
    at h
  exact h

/-- Digits and letters are neither blanks nor separators. -/
theorem isPlain_of_toNat {c : Char} (hlow : 45 ≤ c.toNat) (hhigh : c.toNat ≤ 122) : IsPlain c := by
  refine ⟨?_, ?_⟩
  · rintro rfl
    exact absurd hlow (by decide)
  · rw [isBlank, List.any_eq_false]
    intro r hr
    simp only [blankRanges, List.mem_cons, List.not_mem_nil, or_false] at hr
    simp only [Bool.and_eq_true, decide_eq_true_eq, not_and]
    rcases hr with rfl | rfl | rfl | rfl | rfl | rfl | rfl | rfl | rfl | rfl <;> intros <;> omega

theorem isPlain_of_isDigit {c : Char} (h : c.isDigit = true) : IsPlain c := by
  obtain ⟨hlow, hhigh⟩ := toNat_of_isDigit h
  exact isPlain_of_toNat (by omega) (by omega)

/-- Reading on only makes a number greater. -/
theorem le_ofDigitChars (cs : List Char) (n : Nat) : n ≤ Nat.ofDigitChars 10 cs n := by
  induction cs generalizing n with
  | nil => exact Nat.le_refl n
  | cons c cs ih =>
    rw [Nat.ofDigitChars_cons]
    have := ih (10 * n + (c.toNat - '0'.toNat))
    omega

/-- Digits are read as the number they stand for, if that is within the limit. -/
theorem readDigits_eq {limit n : Nat} {cs : List Char} (h : ∀ c ∈ cs, c.isDigit = true)
    (hle : Nat.ofDigitChars 10 cs n ≤ limit) :
    readDigits limit n cs = .ok (Nat.ofDigitChars 10 cs n) := by
  induction cs generalizing n with
  | nil => rfl
  | cons c cs ih =>
    rw [List.forall_mem_cons] at h
    rw [Nat.ofDigitChars_cons] at hle ⊢
    have hsmall : ¬limit < 10 * n + (c.toNat - '0'.toNat) :=
      Nat.not_lt.2 (Nat.le_trans (le_ofDigitChars cs _) hle)
    simp only [readDigits, digit?_of_isDigit h.1, if_neg hsmall]
    exact ih h.2 hle

theorem isDigit_of_mem_toString {n : Nat} {c : Char} (h : c ∈ (toString n).toList) :
    c.isDigit = true := by
  rw [Nat.toString_eq_repr, Nat.toList_repr] at h
  exact Nat.isDigit_of_mem_toDigits (by decide) (by decide) h

theorem isPlain_of_mem_toString {n : Nat} {c : Char} (h : c ∈ (toString n).toList) : IsPlain c :=
  isPlain_of_isDigit (isDigit_of_mem_toString h)

theorem toList_toString_ne_nil (n : Nat) : (toString n).toList ≠ [] := by
  rw [Nat.toString_eq_repr, Nat.toList_repr]
  exact Nat.toDigits_ne_nil

theorem ofDigitChars_toString (n : Nat) : Nat.ofDigitChars 10 (toString n).toList 0 = n := by
  rw [Nat.toString_eq_repr, Nat.toList_repr]
  exact Nat.ofDigitChars_toDigits (by decide) (by decide)

/-- The written form of a number within the limit is read back. -/
theorem readNat_toString {limit n : Nat} (h : n ≤ limit) :
    readNat limit (toString n).toList = .ok n := by
  have hdigits : ∀ c ∈ (toString n).toList, c.isDigit = true := fun c hc =>
    isDigit_of_mem_toString hc
  have hread : readDigits limit 0 (toString n).toList = .ok n := by
    rw [readDigits_eq hdigits (by rwa [ofDigitChars_toString]), ofDigitChars_toString]
  cases hcs : (toString n).toList with
  | nil => exact absurd hcs (toList_toString_ne_nil n)
  | cons c cs =>
    -- A plus sign in front would be dropped, but the first character is a digit.
    have hplus : c ≠ '+' := by
      rintro rfl
      have := hdigits '+' (by rw [hcs]; exact List.mem_cons_self ..)
      revert this
      decide
    rw [hcs] at hread
    unfold readNat
    split
    · rename_i heq
      cases heq
    · rename_i heq
      cases heq
      exact absurd rfl hplus
    · rename_i heq
      cases heq
      exact absurd rfl hplus
    · rename_i heq
      cases heq
      exact hread

/-- Digits that are read behind a number within the limit give one within the limit. -/
theorem le_limit_of_readDigits {limit n m : Nat} {cs : List Char} (hn : n ≤ limit)
    (h : readDigits limit n cs = .ok m) : m ≤ limit := by
  induction cs generalizing n with
  | nil =>
    cases h
    exact hn
  | cons c cs ih =>
    simp only [readDigits] at h
    split at h
    · cases h
    · split at h
      · cases h
      · exact ih (by omega) h

theorem le_limit_of_readNat {limit n : Nat} {cs : List Char} (h : readNat limit cs = .ok n) :
    n ≤ limit := by
  unfold readNat at h
  split at h
  · cases h
  · cases h
  · exact le_limit_of_readDigits (Nat.zero_le _) h
  · exact le_limit_of_readDigits (Nat.zero_le _) h

end PiecewiseNet.Text
