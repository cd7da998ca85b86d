import PiecewiseNet.Nnet.Reader
import PiecewiseNet.Proofs.Text.Spelling

/-!
# Rows on lines

The same rows can be written in many ways: with blanks around the fields, with a comma behind the
last field or without it, and with blank lines and remarks between the rows. All of these are cut
into the same rows.

## Main definitions

- `NnetFile.RowLine`, `NnetFile.RemarkLine`: the lines that stand for a row and for no row.
- `NnetFile.ListsRows`: lines that list rows in their order.
- `NnetFile.lineRows`: the rows that a line is cut into, one or none.

## Main statements

- `NnetFile.lineRows_of_rowLine`, `NnetFile.lineRows_of_remarkLine`: one line.
- `NnetFile.map_snd_ahead_of_listsRows`: a text that lists rows is cut into these rows.
-/

namespace PiecewiseNet.NnetFile

open Text

variable {b : List Char} {s : String} {r : List String} {line : List Char}

/-- Blanks that do not end the line. -/
def Blanks (b : List Char) : Prop :=
  ∀ c ∈ b, isBlank c = true ∧ c ≠ '\n'

/-- The line stands for the row of these fields. -/
inductive RowLine : List String → List Char → Prop where
  /-- The last field, without a comma behind it. -/
  | last {field : String} {before after : List Char} (before_blanks : Blanks before)
      (after_blanks : Blanks after) : RowLine [field] (before ++ (field.toList ++ after))
  /-- The last field, with a comma behind it. -/
  | comma {field : String} {before after behind : List Char} (before_blanks : Blanks before)
      (after_blanks : Blanks after) (behind_blanks : Blanks behind) :
      RowLine [field] (before ++ (field.toList ++ after) ++ ',' :: behind)
  /-- A field, and those behind it. -/
  | cons {field : String} {before after : List Char} {r : List String} {line : List Char}
      (before_blanks : Blanks before) (after_blanks : Blanks after) (rest : RowLine r line) :
      RowLine (field :: r) (before ++ (field.toList ++ after) ++ ',' :: line)

/-- The line stands for no row: it is blank, or a remark behind two slashes. -/
inductive RemarkLine : List Char → Prop where
  | blank {b : List Char} (blanks : Blanks b) : RemarkLine b
  | remark {b text : List Char} (blanks : Blanks b) (text_line : '\n' ∉ text) :
      RemarkLine (b ++ '/' :: '/' :: text)

/-- The lines list the rows in their order, with other lines anywhere between them. -/
inductive ListsRows : List (List String) → List (List Char) → Prop where
  | nil : ListsRows [] []
  | remark {rows : List (List String)} {line : List Char} {ls : List (List Char)}
      (remark_line : RemarkLine line) (rest : ListsRows rows ls) : ListsRows rows (line :: ls)
  | row {r : List String} {rows : List (List String)} {line : List Char} {ls : List (List Char)}
      (row_line : RowLine r line) (rest : ListsRows rows ls) : ListsRows (r :: rows) (line :: ls)

/-- The rows that a line is cut into, one or none. -/
def lineRows (line : List Char) : List (List (List Char)) :=
  if isRemark (trim line) then [] else [rowFields (trim line)]

/-! ## Fields with blanks around them -/

theorem Blanks.isBlank (h : Blanks b) : ∀ c ∈ b, isBlank c = true :=
  fun c hc => (h c hc).1

theorem Blanks.feed (h : Blanks b) : '\n' ∉ b :=
  fun hc => (h '\n' hc).2 rfl

theorem Blanks.comma (h : Blanks b) : ',' ∉ b :=
  fun hc => absurd (h ',' hc).1 (by decide)

section

variable {before after : List Char}

theorem trim_padded (hs : IsField s.toList) (hbefore : Blanks before) (hafter : Blanks after) :
    trim (before ++ (s.toList ++ after)) = s.toList := by
  rw [trim_blanks_append hbefore.isBlank, trim_append_blanks hafter.isBlank, hs.trim_eq]

theorem comma_not_mem_padded (hs : IsField s.toList) (hbefore : Blanks before)
    (hafter : Blanks after) : ',' ∉ before ++ (s.toList ++ after) := by
  simp only [List.mem_append, not_or]
  exact ⟨hbefore.comma, hs.comma, hafter.comma⟩

theorem feed_not_mem_padded (hs : IsField s.toList) (hbefore : Blanks before)
    (hafter : Blanks after) : '\n' ∉ before ++ (s.toList ++ after) := by
  simp only [List.mem_append, not_or]
  exact ⟨hbefore.feed, hs.feed, hafter.feed⟩

end

/-! ## Lines -/

/-- The fields of the line of a row; a comma at its end adds an empty one. -/
theorem RowLine.map_trim_fields (h : RowLine r line) (hr : ∀ s ∈ r, IsField s.toList) :
    (fields ',' line).map trim = r.map String.toList ∨
      (fields ',' line).map trim = r.map String.toList ++ [[]] := by
  induction h with
  | last hbefore hafter =>
    have hs := List.forall_mem_singleton.1 hr
    left
    rw [fields_of_not_mem (comma_not_mem_padded hs hbefore hafter), List.map_singleton,
      trim_padded hs hbefore hafter, List.map_singleton]
  | comma hbefore hafter hbehind =>
    have hs := List.forall_mem_singleton.1 hr
    right
    rw [fields_append_cons (comma_not_mem_padded hs hbefore hafter),
      fields_of_not_mem hbehind.comma, List.map_cons, List.map_singleton,
      trim_padded hs hbefore hafter, trim_of_blanks hbehind.isBlank]
    rfl
  | cons hbefore hafter _ ih =>
    obtain ⟨hs, hrest⟩ := List.forall_mem_cons.1 hr
    rw [fields_append_cons (comma_not_mem_padded hs hbefore hafter), List.map_cons,
      trim_padded hs hbefore hafter, List.map_cons]
    rcases ih hrest with h | h
    · exact .inl (by rw [h])
    · exact .inr (by rw [h, List.cons_append])

theorem RowLine.feed (h : RowLine r line) (hr : ∀ s ∈ r, IsField s.toList) : '\n' ∉ line := by
  induction h with
  | last hbefore hafter =>
    have hs := List.forall_mem_singleton.1 hr
    exact feed_not_mem_padded hs hbefore hafter
  | comma hbefore hafter hbehind =>
    have hs := List.forall_mem_singleton.1 hr
    rw [List.mem_append, not_or, List.mem_cons, not_or]
    exact ⟨feed_not_mem_padded hs hbefore hafter, by decide, hbehind.feed⟩
  | cons hbefore hafter _ ih =>
    obtain ⟨hs, hrest⟩ := List.forall_mem_cons.1 hr
    rw [List.mem_append, not_or, List.mem_cons, not_or]
    exact ⟨feed_not_mem_padded hs hbefore hafter, by decide, ih hrest⟩

/-- The line of a row starts with its first field, behind blanks. -/
theorem RowLine.exists_eq_append (h : RowLine r line) : ∃ field ∈ r, ∃ before rest,
    line = before ++ (field.toList ++ rest) ∧ Blanks before := by
  cases h with
  | @last field before after hbefore =>
    exact ⟨field, List.mem_cons_self .., before, after, rfl, hbefore⟩
  | @comma field before after behind hbefore =>
    exact ⟨field, List.mem_cons_self .., before, after ++ ',' :: behind,
      by simp only [List.append_assoc], hbefore⟩
  | @cons field before after r line hbefore =>
    exact ⟨field, List.mem_cons_self .., before, after ++ ',' :: line,
      by simp only [List.append_assoc], hbefore⟩

/-- The line of a row is no remark. -/
theorem RowLine.isRemark_trim (h : RowLine r line) (hr : ∀ s ∈ r, IsField s.toList) :
    isRemark (trim line) = false := by
  obtain ⟨field, hfield, before, rest, rfl, hbefore⟩ := h.exists_eq_append
  obtain ⟨c, t, hchars, hslash⟩ := (hr field hfield).start
  obtain ⟨u, hu⟩ := exists_trim_append (hr field hfield).trim_eq rest
  rw [trim_blanks_append hbefore.isBlank, hu, hchars]
  unfold isRemark
  split
  · rename_i heq
    cases heq
  · rename_i heq
    exact absurd (List.cons.inj heq).1 hslash
  · rfl

/-- An empty field at the end is dropped, and no other one. -/
theorem rowFields_eq {fs : List (List Char)} (hfs : ∀ f ∈ fs, f ≠ [])
    (h : (fields ',' line).map trim = fs ∨ (fields ',' line).map trim = fs ++ [[]]) :
    rowFields line = fs := by
  rw [rowFields]
  rcases h with h | h
  · have hlast : ¬fs.getLast?.any List.isEmpty = true := by
      rw [Option.any_eq_true]
      rintro ⟨f, hf, hempty⟩
      exact hfs f (List.mem_of_getLast? hf) (List.isEmpty_iff.1 hempty)
    rw [h, if_neg hlast]
  · simp only [h, List.getLast?_concat, List.dropLast_concat]
    rfl

/-- The line of a row is cut into that row. -/
theorem lineRows_of_rowLine (h : RowLine r line) (hr : ∀ s ∈ r, IsField s.toList) :
    lineRows line = [r.map String.toList] := by
  have hne : ∀ f ∈ r.map String.toList, f ≠ [] := by
    intro f hf
    obtain ⟨s, hs, rfl⟩ := List.mem_map.1 hf
    obtain ⟨c, t, hchars, -⟩ := (hr s hs).start
    rw [hchars]
    exact List.cons_ne_nil c t
  have hfields := h.map_trim_fields hr
  rw [← map_trim_fields_trim (by decide)] at hfields
  rw [lineRows, h.isRemark_trim hr, rowFields_eq hne hfields]
  rfl

theorem RemarkLine.feed (h : RemarkLine line) : '\n' ∉ line := by
  cases h with
  | blank hb => exact hb.feed
  | remark hb htext =>
    simp only [List.mem_append, List.mem_cons, not_or]
    exact ⟨hb.feed, by decide, by decide, htext⟩

/-- A line that is blank or a remark is cut into no row. -/
theorem lineRows_of_remarkLine (h : RemarkLine line) : lineRows line = [] := by
  cases h with
  | blank hb =>
    rw [lineRows, trim_of_blanks hb.isBlank]
    rfl
  | @remark b text hb htext =>
    obtain ⟨t, ht⟩ := exists_trim_append (w := ['/', '/']) (by decide) text
    have htrim : trim ('/' :: '/' :: text) = '/' :: '/' :: t := ht
    rw [lineRows, trim_blanks_append hb.isBlank, htrim]
    rfl

/-! ## Texts -/

theorem map_snd_rowsFrom (n : Nat) (ls : List (List Char)) :
    (rowsFrom n ls).map Prod.snd = ls.flatMap lineRows := by
  induction ls generalizing n with
  | nil => rfl
  | cons line ls ih =>
    rw [rowsFrom, List.flatMap_cons, lineRows]
    split
    · rw [ih, List.nil_append]
    · rw [List.map_cons, ih, List.singleton_append]

theorem ListsRows.feed {rows : List (List String)} {ls : List (List Char)} (h : ListsRows rows ls)
    (hrows : ∀ r ∈ rows, ∀ s ∈ r, IsField s.toList) : ∀ line ∈ ls, '\n' ∉ line := by
  induction h with
  | nil => simp
  | remark hremark _ ih => exact List.forall_mem_cons.2 ⟨hremark.feed, ih hrows⟩
  | row hrow _ ih =>
    obtain ⟨hr, hrest⟩ := List.forall_mem_cons.1 hrows
    exact List.forall_mem_cons.2 ⟨hrow.feed hr, ih hrest⟩

theorem ListsRows.flatMap_lineRows {rows : List (List String)} {ls : List (List Char)}
    (h : ListsRows rows ls) (hrows : ∀ r ∈ rows, ∀ s ∈ r, IsField s.toList) :
    ls.flatMap lineRows = rows.map fun r => r.map String.toList := by
  induction h with
  | nil => rfl
  | remark hremark _ ih =>
    rw [List.flatMap_cons, lineRows_of_remarkLine hremark, List.nil_append, ih hrows]
  | row hrow _ ih =>
    obtain ⟨hr, hrest⟩ := List.forall_mem_cons.1 hrows
    rw [List.flatMap_cons, lineRows_of_rowLine hrow hr, List.singleton_append, ih hrest,
      List.map_cons]

/-- A text that lists rows is cut into these rows. -/
theorem map_snd_ahead_of_listsRows {rows : List (List String)} {ls : List (List Char)}
    (h : ListsRows rows ls) (hne : rows ≠ []) (hrows : ∀ r ∈ rows, ∀ s ∈ r, IsField s.toList) :
    (Rows.ofText (['\n'].intercalate ls)).ahead.map Prod.snd =
      rows.map fun r => r.map String.toList := by
  have hls : ls ≠ [] := by
    rintro rfl
    cases h
    exact hne rfl
  have hreturn : ∀ p, lineRows (dropReturn p) = lineRows p := fun p => by
    rw [lineRows, trim_dropReturn, lineRows]
  rw [Rows.ofText, map_snd_rowsFrom, lines, fields_intercalate hls (h.feed hrows),
    flatMap_linesOfPieces rfl hreturn, h.flatMap_lineRows hrows]

end PiecewiseNet.NnetFile
