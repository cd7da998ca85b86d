import Mathlib.Data.List.TakeWhile
import PiecewiseNet.Proofs.Text.Numeral
import PiecewiseNet.Text.Lines

/-!
# Cutting joined texts

Cutting a text undoes joining its pieces: fields that do not contain the separator come back, and so
do lines that contain no line feed and no carriage return.

## Main statements

- `Text.fields_append_cons`: cutting at the first separator.
- `Text.fields_intercalate`: joined fields are cut into these fields.
- `Text.lines_flatMap`: lines that are ended one after the other are the lines of the text.
- `Text.flatMap_linesOfPieces`: what is collected from the lines of a text.
- `Text.trim_of_forall`: trimming leaves a text without blanks as it is.
- `Text.exists_eq_append_trim`: trimming takes off blanks and nothing else.
- `Text.map_trim_fields_trim`: trimming a line first changes none of its trimmed fields.
-/

namespace PiecewiseNet.Text

variable {sep : Char} {s : List Char}

/-! ## Fields -/

theorem fields_of_not_mem (h : sep ∉ s) : fields sep s = [s] := by
  induction s with
  | nil => rfl
  | cons c s ih =>
    rw [List.mem_cons, not_or] at h
    have hc : ¬(c == sep) = true := by
      rw [beq_iff_eq]
      exact Ne.symm h.1
    rw [fields_cons, ih h.2, cutBefore, if_neg hc]

theorem fields_ne_nil : fields sep s ≠ [] := by
  cases s with
  | nil => exact List.cons_ne_nil _ _
  | cons c s =>
    rw [fields_cons]
    unfold cutBefore
    split
    · exact List.cons_ne_nil _ _
    · split <;> exact List.cons_ne_nil _ _

theorem fields_append_cons (h : sep ∉ s) (rest : List Char) :
    fields sep (s ++ sep :: rest) = s :: fields sep rest := by
  induction s with
  | nil =>
    simp [cutBefore]
  | cons c s ih =>
    rw [List.mem_cons, not_or] at h
    have hc : ¬(c == sep) = true := by
      rw [beq_iff_eq]
      exact Ne.symm h.1
    rw [List.cons_append, fields_cons, ih h.2, cutBefore, if_neg hc]

/-- Joined fields are cut into these fields. -/
theorem fields_intercalate {fs : List (List Char)} (hne : fs ≠ []) (h : ∀ f ∈ fs, sep ∉ f) :
    fields sep ([sep].intercalate fs) = fs := by
  induction fs with
  | nil => exact absurd rfl hne
  | cons f fs ih =>
    rw [List.forall_mem_cons] at h
    cases fs with
    | nil =>
      rw [List.intercalate_singleton]
      exact fields_of_not_mem h.1
    | cons g gs =>
      rw [List.intercalate_cons_cons, List.append_assoc, List.singleton_append,
        fields_append_cons h.1, ih (List.cons_ne_nil g gs) h.2]

/-! ## Lines -/

theorem dropReturn_of_not_mem (h : '\r' ∉ s) : dropReturn s = s := by
  unfold dropReturn
  split
  · rename_i r heq
    have hmem : '\r' ∈ s.reverse := by
      rw [heq]
      exact List.mem_cons_self ..
    exact absurd (List.mem_reverse.1 hmem) h
  · rfl

/-- The first line of a text is what stands before its first line feed. -/
theorem lines_append_cons (h : '\n' ∉ s) (rest : List Char) :
    lines (s ++ '\n' :: rest) = dropReturn s :: lines rest := by
  rw [lines, fields_append_cons h]
  cases hrest : fields '\n' rest with
  | nil => exact absurd hrest fields_ne_nil
  | cons p ps => rw [linesOfPieces, lines, hrest]

/-- Lines that are ended one after the other are the lines of the text. -/
theorem lines_flatMap {ls : List (List Char)} (h : ∀ l ∈ ls, '\n' ∉ l ∧ '\r' ∉ l) :
    lines (ls.flatMap (· ++ ['\n'])) = ls := by
  have hpieces : fields '\n' (ls.flatMap (· ++ ['\n'])) = ls ++ [[]] := by
    induction ls with
    | nil => rfl
    | cons l ls ih =>
      rw [List.forall_mem_cons] at h
      rw [List.flatMap_cons, List.append_assoc, List.singleton_append, fields_append_cons h.1.1,
        ih h.2, List.cons_append]
  rw [lines, hpieces]
  clear hpieces
  induction ls with
  | nil => rfl
  | cons l ls ih =>
    rw [List.forall_mem_cons] at h
    obtain ⟨p, ps, hrest⟩ := List.exists_cons_of_ne_nil (List.append_ne_nil_of_right_ne_nil ls
      (List.cons_ne_nil ([] : List Char) []))
    rw [List.cons_append, hrest, linesOfPieces, ← hrest, ih h.2, dropReturn_of_not_mem h.1.2]

/-- What a function collects from the lines of a text can be collected from the pieces between line
feeds, if it takes nothing from an empty piece and does not see a carriage return at the end. -/
theorem flatMap_linesOfPieces {β : Type} {g : List Char → List β} (hnil : g [] = [])
    (hreturn : ∀ p, g (dropReturn p) = g p) (ps : List (List Char)) :
    (linesOfPieces ps).flatMap g = ps.flatMap g := by
  induction ps with
  | nil => rfl
  | cons p ps ih =>
    cases ps with
    | nil =>
      rw [linesOfPieces]
      split
      · rename_i hp
        rw [List.isEmpty_iff.1 hp, List.flatMap_singleton, hnil]
        rfl
      · rfl
    | cons q qs => rw [linesOfPieces, List.flatMap_cons, List.flatMap_cons, hreturn, ih]

/-! ## Blanks -/

theorem trimFront_of_forall (h : ∀ c ∈ s, isBlank c = false) : trimFront s = s := by
  cases s with
  | nil => rfl
  | cons c s =>
    rw [List.forall_mem_cons] at h
    rw [trimFront, List.dropWhile_cons_of_neg (by rw [h.1]; exact Bool.false_ne_true)]

/-- Trimming leaves a text without blanks as it is. -/
theorem trim_of_forall (h : ∀ c ∈ s, isBlank c = false) : trim s = s := by
  have hreverse : ∀ c ∈ s.reverse, isBlank c = false := fun c hc => h c (List.mem_reverse.1 hc)
  rw [trim, trimFront_of_forall h, trimBack, trimFront_of_forall hreverse, List.reverse_reverse]

section

variable {b : List Char}

theorem trimFront_blanks_append (hb : ∀ c ∈ b, isBlank c = true) :
    trimFront (b ++ s) = trimFront s :=
  List.dropWhile_append_of_pos hb

theorem trimFront_of_blanks (hb : ∀ c ∈ b, isBlank c = true) : trimFront b = [] :=
  List.dropWhile_eq_nil_iff.2 hb

theorem trimBack_append_blanks (hb : ∀ c ∈ b, isBlank c = true) :
    trimBack (s ++ b) = trimBack s := by
  have hreverse : ∀ c ∈ b.reverse, isBlank c = true := fun c hc => hb c (List.mem_reverse.1 hc)
  rw [trimBack, List.reverse_append, trimFront_blanks_append hreverse, trimBack]

/-- Blanks in front of a text are trimmed. -/
theorem trim_blanks_append (hb : ∀ c ∈ b, isBlank c = true) : trim (b ++ s) = trim s := by
  rw [trim, trimFront_blanks_append hb, trim]

/-- Blanks behind a text are trimmed. -/
theorem trim_append_blanks (hb : ∀ c ∈ b, isBlank c = true) : trim (s ++ b) = trim s := by
  have hfront : trimFront (s ++ b) = if (trimFront s).isEmpty then trimFront b
      else trimFront s ++ b := List.dropWhile_append
  rw [trim, hfront, trim]
  split
  · rename_i hs
    rw [trimFront_of_blanks hb, List.isEmpty_iff.1 hs]
  · exact trimBack_append_blanks hb

theorem trim_of_blanks (hb : ∀ c ∈ b, isBlank c = true) : trim b = [] := by
  rw [trim, trimFront_of_blanks hb]
  rfl

end

/-- A text is what trimming leaves of it, with blanks on both sides. -/
theorem exists_eq_append_trim (s : List Char) : ∃ b a, s = b ++ (trim s ++ a) ∧
    (∀ c ∈ b, isBlank c = true) ∧ ∀ c ∈ a, isBlank c = true := by
  have hback : ∀ t : List Char, t = trimBack t ++ (t.reverse.takeWhile isBlank).reverse := by
    intro t
    rw [trimBack, trimFront, ← List.reverse_append, List.takeWhile_append_dropWhile,
      List.reverse_reverse]
  refine ⟨s.takeWhile isBlank, ((trimFront s).reverse.takeWhile isBlank).reverse, ?_, ?_, ?_⟩
  · rw [trim, ← hback, trimFront, List.takeWhile_append_dropWhile]
  · exact fun c hc => List.mem_takeWhile_imp hc
  · exact fun c hc => List.mem_takeWhile_imp (List.mem_reverse.1 hc)

theorem length_trimBack_le (s : List Char) : (trimBack s).length ≤ s.length := by
  rw [trimBack, List.length_reverse]
  exact (List.dropWhile_suffix isBlank).length_le.trans_eq List.length_reverse

/-- A text that trimming leaves as it is has no blanks in front. -/
theorem trimFront_eq_of_trim_eq (h : trim s = s) : trimFront s = s := by
  have hsuffix : trimFront s <:+ s := List.dropWhile_suffix isBlank
  refine hsuffix.eq_of_length (Nat.le_antisymm hsuffix.length_le ?_)
  calc s.length = (trimBack (trimFront s)).length := congrArg List.length h.symm
    _ ≤ (trimFront s).length := length_trimBack_le _

/-- Trimming keeps what a text starts with, if trimming leaves that as it is. -/
theorem exists_trim_append {w : List Char} (h : trim w = w) (s : List Char) :
    ∃ t, trim (w ++ s) = w ++ t := by
  have hfront := trimFront_eq_of_trim_eq h
  have hback : trimBack w = w := by rwa [trim, hfront] at h
  by_cases hw : w = []
  · exact ⟨trim s, by rw [hw, List.nil_append, List.nil_append]⟩
  have happend : trimFront (w ++ s) = w ++ s := by
    rw [trimFront, List.dropWhile_append, ← trimFront, hfront, if_neg (by simpa using hw)]
  have hreverse : trimFront (s.reverse ++ w.reverse) = if (trimFront s.reverse).isEmpty then
      trimFront w.reverse else trimFront s.reverse ++ w.reverse := List.dropWhile_append
  rw [trim, happend, trimBack, List.reverse_append, hreverse]
  split
  · exact ⟨[], by rw [← trimBack, hback, List.append_nil]⟩
  · exact ⟨trimBack s, by rw [List.reverse_append, List.reverse_reverse, trimBack]⟩

theorem trim_dropReturn (s : List Char) : trim (dropReturn s) = trim s := by
  unfold dropReturn
  split
  · rename_i r hr
    have hs : s = r.reverse ++ ['\r'] := by
      rw [← List.reverse_reverse s, hr, List.reverse_cons]
    rw [hs, trim_append_blanks (List.forall_mem_singleton.2 (by decide))]
  · rfl

/-! ## Trimmed fields -/

/-- What stands in front of the first separator goes to the first field. -/
theorem exists_fields_prepend {b : List Char} (hb : sep ∉ b) (s : List Char) :
    ∃ p ps, fields sep s = p :: ps ∧ fields sep (b ++ s) = (b ++ p) :: ps := by
  induction b with
  | nil =>
    have hne : fields sep s ≠ [] := fields_ne_nil
    obtain ⟨p, ps, hs⟩ := List.exists_cons_of_ne_nil hne
    exact ⟨p, ps, hs, hs⟩
  | cons c b ih =>
    rw [List.mem_cons, not_or] at hb
    have hc : ¬(c == sep) = true := by
      rw [beq_iff_eq]
      exact Ne.symm hb.1
    obtain ⟨p, ps, hs, hbs⟩ := ih hb.2
    exact ⟨p, ps, hs, by rw [List.cons_append, fields_cons, hbs, cutBefore, if_neg hc]; rfl⟩

/-- What stands behind the last separator goes to the last field. -/
theorem exists_fields_append {a : List Char} (ha : sep ∉ a) (s : List Char) :
    ∃ ps p, fields sep s = ps ++ [p] ∧ fields sep (s ++ a) = ps ++ [p ++ a] := by
  induction s with
  | nil => exact ⟨[], [], rfl, fields_of_not_mem ha⟩
  | cons c s ih =>
    obtain ⟨ps, p, hs, hsa⟩ := ih
    rw [List.cons_append, fields_cons, fields_cons, hs, hsa]
    unfold cutBefore
    split
    · exact ⟨[] :: ps, p, rfl, rfl⟩
    · cases ps with
      | nil => exact ⟨[], c :: p, rfl, rfl⟩
      | cons q ps => exact ⟨(c :: q) :: ps, p, rfl, rfl⟩

/-- Trimming a line first changes none of its trimmed fields. -/
theorem map_trim_fields_trim (hsep : isBlank sep = false) (s : List Char) :
    (fields sep (trim s)).map trim = (fields sep s).map trim := by
  have hnot : ∀ {b : List Char}, (∀ c ∈ b, isBlank c = true) → sep ∉ b := by
    intro b hb hmem
    rw [hb sep hmem] at hsep
    cases hsep
  obtain ⟨b, a, hs, hb, ha⟩ := exists_eq_append_trim s
  obtain ⟨p, ps, hfront, hfront'⟩ := exists_fields_prepend (hnot hb) (trim s ++ a)
  obtain ⟨qs, q, hback, hback'⟩ := exists_fields_append (hnot ha) (trim s)
  calc (fields sep (trim s)).map trim
      = (fields sep (trim s ++ a)).map trim := by
        rw [hback, hback', List.map_append, List.map_append, List.map_singleton,
          List.map_singleton, trim_append_blanks ha]
    _ = (fields sep (b ++ (trim s ++ a))).map trim := by
        rw [hfront, hfront', List.map_cons, List.map_cons, trim_blanks_append hb]
    _ = (fields sep s).map trim := by rw [← hs]

end PiecewiseNet.Text
