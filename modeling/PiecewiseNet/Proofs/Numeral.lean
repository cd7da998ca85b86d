import PiecewiseNet.Proofs.Text.Numeral
import PiecewiseNet.Scalar

/-!
# Lawful numerals

The formats that write scalars rely on two laws: a written scalar is read back, and it contains
neither blanks nor separators. Scalars that differ from themselves are exempt.

## Main definitions

- `LawfulNumeral`: the two laws.
- The written form of integers, and that of rational numbers as fractions, which obey them.
- `Decimal.Literal.toRat?`: decimals as rational numbers, which are read exactly.
-/

namespace PiecewiseNet

open Text

/-- Scalars that equal themselves are read back from their written form, and it contains neither
blanks nor separators. -/
class LawfulNumeral (α : Type) [BEq α] [Numeral α] : Prop where
  read_write : ∀ x : α, (x == x) = true → Numeral.read (Numeral.write x).toList = .ok x
  isPlain : ∀ x : α, (x == x) = true → ∀ c ∈ (Numeral.write x).toList, IsPlain c

/-- The number that some digits stand for. -/
def readWhole (cs : List Char) : Except NumeralError Nat :=
  if cs.isEmpty || !cs.all Char.isDigit then .error .badDecimal
  else .ok (Nat.ofDigitChars 10 cs 0)

theorem readWhole_toString (n : Nat) : readWhole (toString n).toList = .ok n := by
  have hdigits : (toString n).toList.all Char.isDigit = true :=
    List.all_eq_true.2 fun c hc => isDigit_of_mem_toString hc
  have hne : (toString n).toList.isEmpty = false :=
    List.isEmpty_eq_false_iff.2 (toList_toString_ne_nil n)
  rw [readWhole, hdigits, hne, ofDigitChars_toString]
  rfl

/-- Integers are written in digits, behind a minus sign where they are negative. -/
instance instNumeralInt : Numeral Int where
  write
    | .ofNat n => toString n
    | .negSucc n => "-" ++ toString (n + 1)
  read
    | '-' :: cs => (fun n => -(n : Int)) <$> readWhole cs
    | cs => (fun n => (n : Int)) <$> readWhole cs

/-- The written form of an integer is read back. -/
theorem read_write_int (i : Int) : Numeral.read (Numeral.write i).toList = .ok i := by
  cases i with
  | ofNat n =>
    show Numeral.read (toString n).toList = .ok (Int.ofNat n)
    have hread := readWhole_toString n
    cases hcs : (toString n).toList with
    | nil =>
      rw [hcs] at hread
      cases hread
    | cons c cs =>
      have hdigit : c.isDigit = true :=
        isDigit_of_mem_toString (n := n) (by rw [hcs]; exact List.mem_cons_self ..)
      rw [hcs] at hread
      simp only [Numeral.read]
      split
      · rename_i heq
        cases heq
        exact absurd hdigit (by decide)
      · rw [hread]
        rfl
  | negSucc n =>
    show Numeral.read ("-" ++ toString (n + 1)).toList = .ok (Int.negSucc n)
    rw [String.toList_append]
    show (fun n => -(n : Int)) <$> readWhole (toString (n + 1)).toList = _
    rw [readWhole_toString]
    rfl

/-- The written form of an integer has digits and a minus sign only. -/
theorem isPlain_of_mem_write_int {i : Int} {c : Char} (h : c ∈ (Numeral.write i).toList) :
    IsPlain c := by
  cases i with
  | ofNat n => exact isPlain_of_mem_toString (n := n) h
  | negSucc n =>
    have hmem : c ∈ ("-" ++ toString (n + 1)).toList := h
    rw [String.toList_append, List.mem_append] at hmem
    rcases hmem with hmem | hmem
    · obtain rfl : c = '-' := by simpa using hmem
      exact ⟨by decide, by decide⟩
    · exact isPlain_of_mem_toString hmem

instance : LawfulNumeral Int where
  read_write i _ := read_write_int i
  isPlain _ _ _ := isPlain_of_mem_write_int

/-- The rational number that a decimal literal stands for, if it is finite. -/
def Decimal.Literal.toRat? : Decimal.Literal → Option Rat
  | .finite negative digits exponent =>
    let magnitude := Rat.ofScientific digits (exponent < 0) exponent.natAbs
    some (if negative then -magnitude else magnitude)
  | .infinite _ => none
  | .notANumber => none

/-- The rational number that a fraction with a slash stands for. -/
def readFraction (num den : List Char) : Except NumeralError Rat := do
  let n : Int ← Numeral.read num
  let d ← readWhole den
  return mkRat n d

/-- Rational numbers are written as fractions. Fractions and decimals are read exactly. -/
instance instNumeralRat : Numeral Rat where
  write x := Numeral.write x.num ++ "/" ++ toString x.den
  read cs :=
    match cs.dropWhile (· != '/') with
    | _ :: den => readFraction (cs.takeWhile (· != '/')) den
    | [] =>
      match (Decimal.literal? cs).bind Decimal.Literal.toRat? with
      | some x => .ok x
      | none => .error .badDecimal

theorem ne_slash_of_mem_write_int {i : Int} {c : Char} (h : c ∈ (Numeral.write i).toList) :
    c ≠ '/' := by
  have hdigit : ∀ n : Nat, c ∈ (toString n).toList → c ≠ '/' := by
    rintro n hc rfl
    exact absurd (isDigit_of_mem_toString hc) (by decide)
  cases i with
  | ofNat n => exact hdigit n h
  | negSucc n =>
    have hmem : c ∈ ("-" ++ toString (n + 1)).toList := h
    rw [String.toList_append, List.mem_append] at hmem
    rcases hmem with hmem | hmem
    · obtain rfl : c = '-' := by simpa using hmem
      decide
    · exact hdigit (n + 1) hmem

/-- A fraction is read back: the slash separates its two numbers. -/
theorem read_write_rat (x : Rat) : Numeral.read (Numeral.write x).toList = .ok x := by
  have hchars : (Numeral.write x).toList =
      (Numeral.write x.num).toList ++ '/' :: (toString x.den).toList := by
    show (Numeral.write x.num ++ "/" ++ toString x.den).toList = _
    simp only [String.toList_append, List.append_assoc]
    rfl
  have hnum : ∀ c ∈ (Numeral.write x.num).toList, (c != '/') = true :=
    fun c hc => bne_iff_ne.2 (ne_slash_of_mem_write_int hc)
  have htake : (Numeral.write x).toList.takeWhile (· != '/') = (Numeral.write x.num).toList := by
    rw [hchars, List.takeWhile_append_of_pos hnum]
    simp
  have hdrop : (Numeral.write x).toList.dropWhile (· != '/') =
      '/' :: (toString x.den).toList := by
    rw [hchars, List.dropWhile_append_of_pos hnum]
    simp
  simp only [Numeral.read, htake, hdrop]
  unfold readFraction
  rw [read_write_int, readWhole_toString]
  show Except.ok (mkRat x.num x.den) = _
  rw [Rat.mkRat_self]

instance : LawfulNumeral Rat where
  read_write x _ := read_write_rat x
  isPlain x _ c hc := by
    have hmem : c ∈ (Numeral.write x.num ++ "/" ++ toString x.den).toList := hc
    simp only [String.toList_append, List.mem_append] at hmem
    rcases hmem with (hmem | hmem) | hmem
    · exact isPlain_of_mem_write_int hmem
    · obtain rfl : c = '/' := by simpa using hmem
      exact ⟨by decide, by decide⟩
    · exact isPlain_of_mem_toString hmem

end PiecewiseNet
