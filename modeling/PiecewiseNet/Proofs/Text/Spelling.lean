import PiecewiseNet.Proofs.Numeral
import PiecewiseNet.Proofs.Text.Lines

/-!
# What numbers are spelled with

A text that is read as a number can stand in a row of values: it is not empty, contains no comma, no
line feed and no blank, and does not look like the start of a remark.

## Main definitions

- `Text.IsField`: texts that stand in a row as they are.
- `CleanNumeral`: scalars for which every text that is read is such a text. Floating-point numbers,
  integers and rational numbers are.

## Main statements

- `Decimal.isField_of_literal?`: decimal numbers.
- `Text.isField_toString`: natural numbers in digits.
-/

namespace PiecewiseNet

namespace Text

/-- The text stands in a row of values as it is: trimming keeps it, it has no comma and no line
feed, and it starts with a character other than a slash. -/
structure IsField (cs : List Char) : Prop where
  trim_eq : trim cs = cs
  comma : ',' ∉ cs
  feed : '\n' ∉ cs
  start : ∃ c t, cs = c :: t ∧ c ≠ '/'

/-- Texts of characters that are neither commas nor blanks are fields. -/
theorem IsField.of_isPlain {cs : List Char} (h : ∀ c ∈ cs, IsPlain c)
    (start : ∃ c t, cs = c :: t ∧ c ≠ '/') : IsField cs where
  trim_eq := trim_of_forall fun c hc => (h c hc).2
  comma hc := (h ',' hc).1 rfl
  feed hc := absurd (h '\n' hc) (by decide)
  start := start

/-- A character that is neither a comma nor a blank nor a slash. -/
def IsMark (c : Char) : Prop :=
  IsPlain c ∧ c ≠ '/'

instance instDecidablePredIsMark : DecidablePred IsMark :=
  fun c => inferInstanceAs (Decidable (IsPlain c ∧ c ≠ '/'))

theorem IsField.of_isMark {cs : List Char} (hne : cs ≠ []) (h : ∀ c ∈ cs, IsMark c) :
    IsField cs := by
  obtain ⟨c, t, rfl⟩ := List.exists_cons_of_ne_nil hne
  exact .of_isPlain (fun c hc => (h c hc).1) ⟨c, t, rfl, (h c (List.mem_cons_self ..)).2⟩

theorem isMark_of_toNat {c : Char} (hlow : 48 ≤ c.toNat) (hhigh : c.toNat ≤ 122) : IsMark c := by
  refine ⟨isPlain_of_toNat (by omega) hhigh, ?_⟩
  rintro rfl
  exact absurd hlow (by decide)

theorem isMark_of_isDigit {c : Char} (h : c.isDigit = true) : IsMark c := by
  obtain ⟨hlow, hhigh⟩ := toNat_of_isDigit h
  exact isMark_of_toNat hlow (by omega)

/-- Letters in either case. -/
theorem isMark_of_toLower {c : Char} (hlow : 97 ≤ c.toLower.toNat)
    (hhigh : c.toLower.toNat ≤ 122) : IsMark c := by
  have hval : c.val.toNat = c.toNat := rfl
  unfold Char.toLower at hlow hhigh
  split at hlow
  · rename_i hupper
    simp only [ge_iff_le, UInt32.le_iff_toNat_le] at hupper
    have hA : 'A'.val.toNat = 65 := rfl
    have hZ : 'Z'.val.toNat = 90 := rfl
    exact isMark_of_toNat (by omega) (by omega)
  · rename_i hupper
    rw [dif_neg hupper] at hhigh
    exact isMark_of_toNat (by omega) hhigh

/-- The digits of a natural number are a field. -/
theorem isField_toString (n : Nat) : IsField (toString n).toList :=
  .of_isMark (toList_toString_ne_nil n) fun _ hc => isMark_of_isDigit (isDigit_of_mem_toString hc)

end Text

open Text

/-! ## Decimal numbers -/

namespace Decimal

theorem isMark_of_digit? {c : Char} {d : Nat} (h : digit? c = some d) : IsMark c := by
  unfold digit? at h
  split at h
  · rename_i hrange
    exact isMark_of_isDigit (by simpa [Char.isDigit, Char.le_def, and_comm] using hrange)
  · cases h

/-- What is read as digits in front of a text is digits. -/
theorem exists_leadingDigits (n count : Nat) (s : List Char) :
    ∃ ds, s = ds ++ (leadingDigits n count s).2.2 ∧ ∀ c ∈ ds, IsMark c := by
  induction s generalizing n count with
  | nil => exact ⟨[], rfl, by simp⟩
  | cons c s ih =>
    rw [leadingDigits]
    cases hd : digit? c with
    | none => exact ⟨[], rfl, by simp⟩
    | some d =>
      obtain ⟨ds, hs, hds⟩ := ih (10 * n + d) (count + 1)
      refine ⟨c :: ds, ?_, List.forall_mem_cons.2 ⟨isMark_of_digit? hd, hds⟩⟩
      rw [List.cons_append, ← hs]

/-- The characters of digits and of what follows them. -/
theorem forall_isMark_of_leadingDigits (n count : Nat) {s : List Char}
    (h : ∀ c ∈ (leadingDigits n count s).2.2, IsMark c) : ∀ c ∈ s, IsMark c := by
  obtain ⟨ds, hs, hds⟩ := exists_leadingDigits n count s
  rw [hs]
  exact List.forall_mem_append.2 ⟨hds, h⟩

theorem forall_isMark_of_exponent? {r : List Char} {e : Int} (h : exponent? r = some e) :
    ∀ c ∈ r, IsMark c := by
  unfold exponent? at h
  split at h
  · simp
  · split at h
    · rename_i c r hmark
      have hc : IsMark c := by
        rw [Bool.or_eq_true, beq_iff_eq, beq_iff_eq] at hmark
        rcases hmark with rfl | rfl <;> decide
      split at h
      split at h
      · rename_i negative rest hsign p n count hdigits
        have hrest : ∀ c ∈ rest, IsMark c :=
          forall_isMark_of_leadingDigits 0 0 (by rw [hdigits]; simp)
        refine List.forall_mem_cons.2 ⟨hc, ?_⟩
        split at hsign <;> cases hsign
        · exact List.forall_mem_cons.2 ⟨by decide, hrest⟩
        · exact List.forall_mem_cons.2 ⟨by decide, hrest⟩
        · exact hrest
      · cases h
    · cases h

/-- The letters of a word, in either case. -/
theorem forall_isMark_of_map_toLower {s word : List Char} (h : s.map Char.toLower = word)
    (hword : word.all (fun c => 97 ≤ c.toNat ∧ c.toNat ≤ 122) = true) : ∀ c ∈ s, IsMark c := by
  intro c hc
  obtain ⟨hlow, hhigh⟩ :=
    of_decide_eq_true (List.all_eq_true.1 hword c.toLower (h ▸ List.mem_map_of_mem hc))
  exact isMark_of_toLower hlow hhigh

theorem forall_isMark_of_magnitude? {negative : Bool} {s : List Char} {l : Literal}
    (h : magnitude? negative s = some l) : ∀ c ∈ s, IsMark c := by
  unfold magnitude? at h
  dsimp only at h
  split at h
  · rename_i hword
    rcases hword with hword | hword
    · exact forall_isMark_of_map_toLower hword (by decide)
    · exact forall_isMark_of_map_toLower hword (by decide)
  · split at h
    · rename_i hword
      exact forall_isMark_of_map_toLower hword (by decide)
    · refine forall_isMark_of_leadingDigits 0 0 ?_
      split at h
      · rename_i rest hrest
        rw [hrest]
        split at h
        · cases h
        · obtain ⟨e, he, -⟩ := Option.map_eq_some_iff.1 h
          refine List.forall_mem_cons.2 ⟨by decide, ?_⟩
          exact forall_isMark_of_leadingDigits _ 0 (forall_isMark_of_exponent? he)
      · split at h
        · cases h
        · obtain ⟨e, he, -⟩ := Option.map_eq_some_iff.1 h
          exact forall_isMark_of_exponent? he

/-- A text that spells a literal is a field. -/
theorem isField_of_literal? {s : List Char} {l : Literal} (h : literal? s = some l) :
    IsField s := by
  have hne : s ≠ [] := by
    rintro rfl
    cases h
  refine .of_isMark hne ?_
  unfold literal? at h
  split at h
  · exact List.forall_mem_cons.2 ⟨by decide, forall_isMark_of_magnitude? h⟩
  · exact List.forall_mem_cons.2 ⟨by decide, forall_isMark_of_magnitude? h⟩
  · exact forall_isMark_of_magnitude? h

end Decimal

/-! ## Scalars -/

/-- Whatever is read as a scalar is a field. -/
class CleanNumeral (α : Type) [Numeral α] : Prop where
  isField_of_read : ∀ {cs : List Char} {x : α}, Numeral.read cs = .ok x → IsField cs

instance : CleanNumeral Float where
  isField_of_read {cs} {x} h := by
    have h : Decimal.readFloat cs = .ok x := h
    unfold Decimal.readFloat at h
    split at h
    · cases h
    · split at h
      · rename_i l hl
        exact Decimal.isField_of_literal? hl
      · cases h

theorem forall_isDigit_of_readWhole {cs : List Char} {n : Nat} (h : readWhole cs = .ok n) :
    cs ≠ [] ∧ ∀ c ∈ cs, c.isDigit = true := by
  unfold readWhole at h
  split at h
  · cases h
  · rename_i hcs
    simp only [Bool.or_eq_true, not_or, Bool.not_eq_true, Bool.not_eq_false',
      List.isEmpty_eq_false_iff, List.all_eq_true] at hcs
    exact hcs

/-- Integers are read from digits, behind a minus sign at most. -/
theorem forall_isMark_of_read_int {cs : List Char} {i : Int} (h : Numeral.read cs = .ok i) :
    cs ≠ [] ∧ ∀ c ∈ cs, IsMark c := by
  have hwhole : ∀ {ds : List Char}, (∀ e, readWhole ds ≠ .error e) →
      ds ≠ [] ∧ ∀ c ∈ ds, IsMark c := by
    intro ds hds
    cases hn : readWhole ds with
    | error e => exact absurd hn (hds e)
    | ok n =>
      obtain ⟨hne, hdigits⟩ := forall_isDigit_of_readWhole hn
      exact ⟨hne, fun c hc => isMark_of_isDigit (hdigits c hc)⟩
  simp only [Numeral.read] at h
  split at h
  · have hdigits := hwhole fun e he => by
      rw [he] at h
      cases h
    exact ⟨List.cons_ne_nil _ _, List.forall_mem_cons.2 ⟨by decide, hdigits.2⟩⟩
  · refine hwhole fun e he => ?_
    rw [he] at h
    cases h

instance : CleanNumeral Int where
  isField_of_read h :=
    let ⟨hne, hmarks⟩ := forall_isMark_of_read_int h
    .of_isMark hne hmarks

/-- Fractions are an integer and digits, with a slash between them. -/
theorem isField_of_readFraction {num den : List Char} {x : Rat} (h : readFraction num den = .ok x) :
    IsField (num ++ '/' :: den) := by
  unfold readFraction at h
  cases hnum : (Numeral.read num : Except NumeralError Int) with
  | error e =>
    rw [hnum] at h
    cases h
  | ok n =>
    cases hden : readWhole den with
    | error e =>
      rw [hnum, hden] at h
      cases h
    | ok d =>
      obtain ⟨hne, hmarks⟩ := forall_isMark_of_read_int hnum
      obtain ⟨-, hdigits⟩ := forall_isDigit_of_readWhole hden
      obtain ⟨c, t, rfl⟩ := List.exists_cons_of_ne_nil hne
      refine .of_isPlain (List.forall_mem_append.2 ⟨fun c hc => (hmarks c hc).1, ?_⟩) ?_
      · refine List.forall_mem_cons.2 ⟨by decide, ?_⟩
        exact fun c hc => (isMark_of_isDigit (hdigits c hc)).1
      · exact ⟨c, t ++ '/' :: den, rfl, (hmarks c (List.mem_cons_self ..)).2⟩

instance : CleanNumeral Rat where
  isField_of_read {cs} {x} h := by
    simp only [Numeral.read] at h
    split at h
    · rename_i slash den hdrop
      obtain rfl : slash = '/' := by
        have hhead := List.head?_dropWhile_not (· != '/') cs
        rw [hdrop] at hhead
        simpa using hhead
      have hcs : cs = cs.takeWhile (· != '/') ++ '/' :: den := by
        rw [← hdrop, List.takeWhile_append_dropWhile]
      rw [hcs]
      exact isField_of_readFraction h
    · split at h
      · rename_i y hy
        obtain ⟨l, hl, -⟩ := Option.bind_eq_some_iff.1 hy
        exact Decimal.isField_of_literal? hl
      · cases h

end PiecewiseNet
