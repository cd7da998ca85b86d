import PiecewiseNet.NameSupply
import PiecewiseNet.Proofs.Text.Numeral
import Mathlib.Data.List.TakeWhile

/-!
# Labels of imported nodes

The label of an imported node is the prefix of its import followed by the layer, the position in
the layer and the part that the node plays. Numbers have as many digits as they need, two at least
for layers and positions, so labels have no fixed length. But words without digits separate the
numbers, so that a label can be taken apart in one way only.

## Main definitions

- `Stem`: the prefixes that a name supply gives out.
- `NodePart`, `NodeName`: what a label says behind the prefix.

## Main statements

- `Text.append_inj_of_forall`: where a run of characters of one kind ends.
- `Stem.append_text_inj`: a label determines the prefix and the name.
-/

namespace PiecewiseNet

namespace Text

/-! ## Runs of digits -/

/-- No digit stands in front. -/
def NoDigitAhead (s : List Char) : Prop :=
  ∀ c ∈ s.head?, c.isDigit = false

/-- A digit stands in front. -/
def DigitAhead (s : List Char) : Prop :=
  ∃ c ∈ s.head?, c.isDigit = true

/-- Where characters of one kind are followed by none of that kind, a text can be cut between them
in one way. -/
theorem append_inj_of_forall {p : Char → Bool} {xs xs' ys ys' : List Char}
    (hxs : ∀ c ∈ xs, p c = true) (hxs' : ∀ c ∈ xs', p c = true)
    (hys : ∀ c ∈ ys.head?, p c = false) (hys' : ∀ c ∈ ys'.head?, p c = false)
    (h : xs ++ ys = xs' ++ ys') : xs = xs' ∧ ys = ys' := by
  have hnil : ∀ zs : List Char, (∀ c ∈ zs.head?, p c = false) → zs.takeWhile p = [] := by
    intro zs hzs
    cases zs with
    | nil => rfl
    | cons c zs => exact List.takeWhile_cons_of_neg (by simp [hzs c rfl])
  have htake := congrArg (List.takeWhile p) h
  rw [List.takeWhile_append_of_pos hxs, List.takeWhile_append_of_pos hxs', hnil ys hys,
    hnil ys' hys', List.append_nil, List.append_nil] at htake
  subst htake
  exact ⟨rfl, List.append_cancel_left h⟩

/-- Digits end where no digit stands ahead. -/
theorem digits_append_inj {ds ds' ys ys' : List Char} (hds : ∀ c ∈ ds, c.isDigit = true)
    (hds' : ∀ c ∈ ds', c.isDigit = true) (hys : NoDigitAhead ys) (hys' : NoDigitAhead ys')
    (h : ds ++ ys = ds' ++ ys') : ds = ds' ∧ ys = ys' :=
  append_inj_of_forall hds hds' hys hys' h

/-- A word without digits ends where a digit stands ahead. -/
theorem word_append_inj {ws ws' ys ys' : List Char} (hws : ∀ c ∈ ws, c.isDigit = false)
    (hws' : ∀ c ∈ ws', c.isDigit = false) (hys : DigitAhead ys) (hys' : DigitAhead ys')
    (h : ws ++ ys = ws' ++ ys') : ws = ws' ∧ ys = ys' := by
  have hahead : ∀ zs : List Char, DigitAhead zs → ∀ c ∈ zs.head?, (!c.isDigit) = false := by
    rintro zs ⟨d, hd, hdigit⟩ c hc
    cases Option.mem_unique hc hd
    rw [hdigit, Bool.not_true]
  exact append_inj_of_forall (fun c hc => by rw [hws c hc, Bool.not_false])
    (fun c hc => by rw [hws' c hc, Bool.not_false]) (hahead ys hys) (hahead ys' hys') h

/-! ## Numbers of a least width -/

variable {width n : Nat}

theorem toList_padded : (padded width n).toList =
    List.replicate (width - (toString n).length) '0' ++ (toString n).toList := by
  rw [padded, String.toList_append, String.toList_ofList]

theorem isDigit_of_mem_padded {c : Char} (h : c ∈ (padded width n).toList) : c.isDigit = true := by
  rw [toList_padded, List.mem_append] at h
  rcases h with h | h
  · obtain rfl := List.eq_of_mem_replicate h
    rfl
  · exact isDigit_of_mem_toString h

/-- Zeros in front do not change the value of digits. -/
theorem ofDigitChars_padded (width n : Nat) :
    Nat.ofDigitChars 10 (padded width n).toList 0 = n := by
  have hzeros : ∀ k, Nat.ofDigitChars 10 (List.replicate k '0') 0 = 0 := by
    intro k
    induction k with
    | zero => rfl
    | succ k ih =>
      rw [List.replicate_succ, Nat.ofDigitChars_cons]
      exact ih
  rw [toList_padded, Nat.ofDigitChars_append, hzeros, ofDigitChars_toString]

theorem digitAhead_of_forall {ds : List Char} (hne : ds ≠ []) (h : ∀ c ∈ ds, c.isDigit = true)
    (rest : List Char) : DigitAhead (ds ++ rest) := by
  obtain ⟨d, ds, rfl⟩ := List.exists_cons_of_ne_nil hne
  exact ⟨d, rfl, h d (List.mem_cons_self ..)⟩

theorem digitAhead_toString (n : Nat) (rest : List Char) :
    DigitAhead ((toString n).toList ++ rest) :=
  digitAhead_of_forall (toList_toString_ne_nil n) (fun _ => isDigit_of_mem_toString) rest

theorem digitAhead_padded (width n : Nat) (rest : List Char) :
    DigitAhead ((padded width n).toList ++ rest) := by
  refine digitAhead_of_forall ?_ (fun _ => isDigit_of_mem_padded) rest
  rw [toList_padded]
  exact List.append_ne_nil_of_right_ne_nil _ (toList_toString_ne_nil n)

end Text

/-! ## Names -/

open Text

/-- The part that an imported node plays in its layer. -/
inductive NodePart where
  /-- An input, or a neuron of one node. -/
  | lone
  /-- The sum of a neuron, in front of its positive part. -/
  | before
  /-- The positive part of a neuron. -/
  | behind
  /-- A sum that an equation defines. -/
  | sum
  /-- A positive part that a constraint defines. -/
  | rectifier
deriving DecidableEq

/-- The word between the numbers of layer and position. -/
def NodePart.mark : NodePart → String
  | lone | before | behind => "_"
  | sum => "_w"
  | rectifier => "_r"

/-- The word behind the position. -/
def NodePart.ending : NodePart → String
  | lone | sum | rectifier => ""
  | before => "_b"
  | behind => "_f"

/-- A node among those of one import. -/
structure NodeName where
  layer : Nat
  position : Nat
  part : NodePart

/-- The name as it stands in a label. -/
def NodeName.text (x : NodeName) : String :=
  labelIndex x.layer ++ x.part.mark ++ labelIndex x.position ++ x.part.ending

/-- The prefix of an import, by its number among those of its kind. -/
inductive Stem where
  | nnet (number : Nat)
  | ipq (number : Nat)

/-- The words for the kinds of imports. -/
def Stem.word : Stem → String
  | nnet _ => "nnet"
  | ipq _ => "ipq"

/-- The number of an import. -/
def Stem.number : Stem → Nat
  | nnet n | ipq n => n

/-- The prefix as it stands in a label. -/
def Stem.text (s : Stem) : String :=
  s.word ++ toString s.number ++ "_"

theorem Stem.eq_of_word {s t : Stem} (hword : s.word = t.word) (hnumber : s.number = t.number) :
    s = t := by
  have hne : "nnet" ≠ "ipq" := by decide
  cases s <;> cases t <;> cases hnumber
  · rfl
  · exact absurd hword hne
  · exact absurd hword hne.symm
  · rfl

theorem isDigit_eq_false_of_any {s : String} (h : s.toList.any Char.isDigit = false) :
    ∀ c ∈ s.toList, c.isDigit = false :=
  fun c hc => Bool.eq_false_iff.2 (List.any_eq_false.1 h c hc)

theorem Stem.isDigit_of_mem_word (s : Stem) : ∀ c ∈ s.word.toList, c.isDigit = false := by
  cases s with
  | nnet => exact isDigit_eq_false_of_any (s := "nnet") (by decide)
  | ipq => exact isDigit_eq_false_of_any (s := "ipq") (by decide)

theorem NodePart.isDigit_of_mem_mark (p : NodePart) : ∀ c ∈ p.mark.toList, c.isDigit = false := by
  refine isDigit_eq_false_of_any ?_
  cases p <;> decide

theorem NodePart.noDigitAhead_mark (p : NodePart) (rest : List Char) :
    NoDigitAhead (p.mark.toList ++ rest) := by
  cases p <;> (rintro c ⟨⟩; rfl)

theorem NodePart.noDigitAhead_ending (p : NodePart) : NoDigitAhead p.ending.toList := by
  cases p <;> (rintro c ⟨⟩ <;> rfl)

theorem NodePart.eq_of_mark {p q : NodePart} (hmark : p.mark.toList = q.mark.toList)
    (hending : p.ending.toList = q.ending.toList) : p = q := by
  revert hmark hending
  cases p <;> cases q <;> decide

theorem padded_inj {m n : Nat} (h : (padded 2 m).toList = (padded 2 n).toList) : m = n := by
  rw [← ofDigitChars_padded 2 m, h, ofDigitChars_padded]

/-- A name is read off its text. -/
theorem NodeName.text_inj {x y : NodeName} (h : x.text.toList = y.text.toList) : x = y := by
  simp only [NodeName.text, labelIndex, String.toList_append, List.append_assoc] at h
  obtain ⟨hlayer, h⟩ := digits_append_inj (fun _ => isDigit_of_mem_padded)
    (fun _ => isDigit_of_mem_padded) (x.part.noDigitAhead_mark _) (y.part.noDigitAhead_mark _) h
  obtain ⟨hmark, h⟩ := word_append_inj x.part.isDigit_of_mem_mark y.part.isDigit_of_mem_mark
    (digitAhead_padded ..) (digitAhead_padded ..) h
  obtain ⟨hposition, hending⟩ := digits_append_inj (fun _ => isDigit_of_mem_padded)
    (fun _ => isDigit_of_mem_padded) x.part.noDigitAhead_ending y.part.noDigitAhead_ending h
  cases x
  cases y
  cases padded_inj hlayer
  cases padded_inj hposition
  cases NodePart.eq_of_mark hmark hending
  rfl

/-- The prefix and the name are read off a label. -/
theorem Stem.append_text_inj {s t : Stem} {x y : NodeName}
    (h : s.text ++ x.text = t.text ++ y.text) : s = t ∧ x = y := by
  have h := congrArg String.toList h
  simp only [Stem.text, String.toList_append, List.append_assoc] at h
  obtain ⟨hword, h⟩ := word_append_inj s.isDigit_of_mem_word t.isDigit_of_mem_word
    (digitAhead_toString ..) (digitAhead_toString ..) h
  obtain ⟨hnumber, h⟩ := digits_append_inj (fun _ => isDigit_of_mem_toString)
    (fun _ => isDigit_of_mem_toString) (by rintro c ⟨⟩; rfl) (by rintro c ⟨⟩; rfl) h
  have hnumber : s.number = t.number := by
    rw [← ofDigitChars_toString s.number, hnumber, ofDigitChars_toString]
  exact ⟨Stem.eq_of_word (String.toList_injective hword) hnumber,
    NodeName.text_inj (List.append_cancel_left h)⟩

end PiecewiseNet
