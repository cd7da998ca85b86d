import PiecewiseNet.Proofs.Ipq.RoundTrip

/-!
# What the number of variables limits

A query file starts with the number of its variables. The reader compares this number with the
inputs and with the outputs, and with nothing else: a file that was read is also read with another
number in its first line, and with the same records, exactly when its inputs and outputs are below
that number. So the variables of bounds, equations and constraints are indices, and may be any.

## Main definitions

- `IpqFile.recounted`: a text with another number in its first line.
- `IpqFile.strays`: a file in which every bound, equation and constraint is about variables beyond
  the number of variables.

## Main statements

- `IpqFile.reads_readVariables_of_lt`: numbered variables are read under every limit above them.
- `IpqFile.reads_readFile_recounted`: the records behind another first line.
- `IpqFile.parse_recounted_iff`: the texts that are read with another number of variables.
- `IpqFile.parse_strays`: variables beyond the number of variables are read.
-/

namespace PiecewiseNet

open Text

namespace IpqFile

variable {α : Type} {s s' : Records} {item : IpqItem}

/-- The text with the number `k` in place of its first line. -/
def recounted (k : Nat) (text : String) : String :=
  toString k ++ String.ofList (text.toList.dropWhile (· != '\n'))

/-! ## The sections that the number limits -/

theorem reads_readCount {n : Nat} :
    Reads (readCount item : Reading α Nat) s n s' ↔
      ∃ line rest, s.ahead = line :: rest ∧ s' = ⟨s.line + 1, rest⟩ ∧
        readNat indexLimit ((recordFields line).headD []) = .ok n := by
  constructor
  · intro h
    obtain ⟨record, t, hrecord, h⟩ := reads_bind.1 h
    obtain ⟨line, rest, hahead, rfl, rfl⟩ := reads_nextRecord.1 hrecord
    obtain ⟨hread, rfl⟩ := reads_readField.1 h
    exact ⟨line, rest, hahead, rfl, hread⟩
  · rintro ⟨line, rest, hahead, rfl, hread⟩
    have hrecord : Reads (nextRecord item : Reading α _) s (recordFields line) ⟨s.line + 1, rest⟩ :=
      reads_nextRecord.2 ⟨line, rest, hahead, rfl, rfl⟩
    exact reads_bind.2 ⟨recordFields line, _, hrecord, reads_readField.2 ⟨hread, rfl⟩⟩

/-- Variables that were read under one limit are read under every limit above them. -/
theorem reads_readVariables_of_lt {n k count i : Nat} {vs : List Nat}
    (h : Reads (readVariables item n count i : Reading α _) s vs s') (hlt : ∀ v ∈ vs, v < k) :
    Reads (readVariables item k count i : Reading α _) s vs s' := by
  induction count generalizing i s vs s' with
  | zero => exact h
  | succ count ih =>
    obtain ⟨record, t, hrecord, h⟩ := reads_bind.1 h
    refine reads_bind.2 ⟨record, t, hrecord, ?_⟩
    split at h
    · obtain ⟨index, t, hindex, h⟩ := reads_bind.1 h
      refine reads_bind.2 ⟨index, t, hindex, ?_⟩
      split at h
      · exact absurd h not_reads_fault
      · rename_i hi
        rw [if_neg hi]
        obtain ⟨v, t, hv, h⟩ := reads_bind.1 h
        refine reads_bind.2 ⟨v, t, hv, ?_⟩
        split at h
        · exact absurd h not_reads_fault
        · obtain ⟨rest, t, hrest, h⟩ := reads_bind.1 h
          obtain ⟨rfl, rfl⟩ := reads_pure.1 h
          rw [List.forall_mem_cons] at hlt
          rw [if_neg (Nat.not_le.2 hlt.1)]
          exact reads_bind.2 ⟨rest, _, ih hrest hlt.2, reads_pure.2 ⟨rfl, rfl⟩⟩
    · exact absurd h not_reads_fault

/-! ## Files -/

variable [Numeral α]

/-- The records behind the number of variables do not depend on it, apart from the limit that it
sets to the inputs and the outputs. -/
theorem reads_readFile_recounted {n k : Nat} {first line : List Char} {ls : List (List Char)}
    {f : IpqFile α} (h : Reads readFile ⟨n, first :: ls⟩ f s')
    (hk : readNat indexLimit ((recordFields line).headD []) = .ok k)
    (hlt : ∀ v ∈ f.inputs ++ f.outputs, v < k) :
    Reads readFile ⟨n, line :: ls⟩ { f with variableCount := k } s' := by
  obtain ⟨variableCount, _, hvariables, h⟩ := reads_bind.1 h
  obtain ⟨_, _, hahead, rfl, -⟩ := reads_readCount.1 hvariables
  cases hahead
  obtain ⟨lowerCount, _, hlowers, h⟩ := reads_bind.1 h
  obtain ⟨upperCount, _, huppers, h⟩ := reads_bind.1 h
  obtain ⟨equationCount, _, hequations, h⟩ := reads_bind.1 h
  obtain ⟨constraintCount, _, hconstraints, h⟩ := reads_bind.1 h
  obtain ⟨inputCount, _, hinputCount, h⟩ := reads_bind.1 h
  obtain ⟨inputs, _, hinputs, h⟩ := reads_bind.1 h
  obtain ⟨outputCount, _, houtputCount, h⟩ := reads_bind.1 h
  obtain ⟨outputs, _, houtputs, h⟩ := reads_bind.1 h
  split at h
  · exact absurd h not_reads_fault
  rename_i hdisjoint
  obtain ⟨lowerBounds, _, hlower, h⟩ := reads_bind.1 h
  obtain ⟨upperBounds, _, hupper, h⟩ := reads_bind.1 h
  obtain ⟨equations, _, heqs, h⟩ := reads_bind.1 h
  obtain ⟨constraints, _, hcons, h⟩ := reads_bind.1 h
  obtain ⟨rfl, rfl⟩ := reads_pure.1 h
  rw [List.forall_mem_append] at hlt
  -- The same readings from here on, with the new number as the limit of two of them.
  refine reads_bind.2 ⟨k, _, reads_readCount.2 ⟨line, ls, rfl, rfl, hk⟩, ?_⟩
  refine reads_bind.2 ⟨lowerCount, _, hlowers, ?_⟩
  refine reads_bind.2 ⟨upperCount, _, huppers, ?_⟩
  refine reads_bind.2 ⟨equationCount, _, hequations, ?_⟩
  refine reads_bind.2 ⟨constraintCount, _, hconstraints, ?_⟩
  refine reads_bind.2 ⟨inputCount, _, hinputCount, ?_⟩
  refine reads_bind.2 ⟨inputs, _, reads_readVariables_of_lt hinputs hlt.1, ?_⟩
  refine reads_bind.2 ⟨outputCount, _, houtputCount, ?_⟩
  refine reads_bind.2 ⟨outputs, _, reads_readVariables_of_lt houtputs hlt.2, ?_⟩
  rw [hdisjoint]
  refine reads_bind.2 ⟨lowerBounds, _, hlower, ?_⟩
  refine reads_bind.2 ⟨upperBounds, _, hupper, ?_⟩
  refine reads_bind.2 ⟨equations, _, heqs, ?_⟩
  exact reads_bind.2 ⟨constraints, _, hcons, reads_pure.2 ⟨rfl, rfl⟩⟩

/-- A file that is read has a second line, which counts its lower bounds. -/
theorem exists_cons_cons_of_reads_readFile {f : IpqFile α} (h : Reads readFile s f s') :
    ∃ first second rest, s.ahead = first :: second :: rest := by
  obtain ⟨variableCount, _, hvariables, h⟩ := reads_bind.1 h
  obtain ⟨first, ahead, hfirst, rfl, -⟩ := reads_readCount.1 hvariables
  obtain ⟨lowerCount, _, hlowers, -⟩ := reads_bind.1 h
  obtain ⟨second, rest, hsecond, -, -⟩ := reads_readCount.1 hlowers
  have hahead : ahead = second :: rest := hsecond
  exact ⟨first, second, rest, by rw [hfirst, hahead]⟩

/-- The first line of a text that is read was ended. -/
theorem exists_eq_append_of_parse {text : String} {f : IpqFile α} (h : parse text = .ok f) :
    ∃ first rest, text.toList = first ++ '\n' :: rest ∧ '\n' ∉ first := by
  obtain ⟨s', h⟩ := parse_eq_ok_iff.1 h
  obtain ⟨first, second, rest, hlines⟩ := exists_cons_cons_of_reads_readFile h
  refine List.eq_append_cons_of_mem (Classical.not_not.1 ?_)
  intro hmem
  have hlines : lines text.toList = first :: second :: rest := hlines
  rw [lines, fields_of_not_mem hmem, linesOfPieces] at hlines
  split at hlines <;> simp at hlines

/-- What stands behind the first line of a text. -/
theorem toList_recounted {k : Nat} {text : String} {first rest : List Char}
    (htext : text.toList = first ++ '\n' :: rest) (hfirst : '\n' ∉ first) :
    (recounted k text).toList = (toString k).toList ++ '\n' :: rest := by
  have hdrop : text.toList.dropWhile (· != '\n') = '\n' :: rest := by
    have hne : ∀ c ∈ first, (c != '\n') = true :=
      fun c hc => bne_iff_ne.2 (ne_of_mem_of_not_mem hc hfirst)
    rw [htext, List.dropWhile_append_of_pos hne, List.dropWhile_cons_of_neg (by simp)]
  rw [recounted, String.toList_append, String.toList_ofList, hdrop]

/-- The first record of a text with a new number is that number. -/
theorem recordFields_toString (k : Nat) :
    recordFields (toString k).toList = [(toString k).toList] := by
  calc recordFields (toString k).toList
      = recordFields (lineOf [toString k]) := by
        rw [lineOf, List.map_singleton, List.intercalate_singleton]
    _ = [(toString k).toList] := (clean_cons_toString (by simp)).recordFields_lineOf

/-- What the number of variables says about the file that is read: the inputs and the outputs are
below it. All other variables are just indices, since the same text with another number in its first
line is read as the same file with that number, if and only if its inputs and outputs are below it
too. -/
theorem parse_recounted_iff {text : String} {f : IpqFile α} (h : parse text = .ok f) :
    (∀ v ∈ f.inputs ++ f.outputs, v < f.variableCount) ∧ (∀ v ∈ f.mentioned, v ≤ indexLimit) ∧
      ∀ k ≤ indexLimit, parse (recounted k text) = .ok { f with variableCount := k } ↔
        ∀ v ∈ f.inputs ++ f.outputs, v < k := by
  obtain ⟨hindexed, hwf⟩ := wellFormed_of_parse h
  refine ⟨List.forall_mem_append.2 ⟨hwf.inputs, hwf.outputs⟩, hindexed.mentioned, ?_⟩
  intro k hk
  constructor
  · intro hnew
    obtain ⟨-, hwf⟩ := wellFormed_of_parse hnew
    exact List.forall_mem_append.2 ⟨hwf.inputs, hwf.outputs⟩
  · intro hlt
    obtain ⟨first, rest, htext, hfirst⟩ := exists_eq_append_of_parse h
    obtain ⟨s', hreads⟩ := parse_eq_ok_iff.1 h
    have hdigits : ∀ c ∈ (toString k).toList, isBlank c = false :=
      fun c hc => (isPlain_of_mem_toString hc).2
    have hfeed : '\n' ∉ (toString k).toList := fun hc => absurd (hdigits _ hc) (by decide)
    have hreturn : '\r' ∉ (toString k).toList := fun hc => absurd (hdigits _ hc) (by decide)
    refine parse_eq_ok_iff.2 ⟨s', ?_⟩
    rw [Records.ofText, htext, lines_append_cons hfirst] at hreads
    rw [Records.ofText, toList_recounted htext hfirst, lines_append_cons hfeed,
      dropReturn_of_not_mem hreturn]
    refine reads_readFile_recounted hreads ?_ hlt
    rw [recordFields_toString]
    exact readNat_toString hk

/-- A file with one variable, whose bounds, equations and constraints are about others. -/
def strays : IpqFile Int where
  variableCount := 1
  inputs := [0]
  outputs := []
  lowerBounds := OrderedMap.ofList [(5, 0)]
  upperBounds := OrderedMap.ofList [(6, 0)]
  equations := [⟨.eq, 0, [(7, 1)]⟩]
  constraints := [.relu 8 9, .abs 8 9, .max 8 [9, 10]]

/-- The text of that file. -/
def straysText : String :=
  "1\n1\n1\n1\n3\n1\n0,0\n0\n5,0\n6,0\n0,0,0,7,1\n" ++
    "0,relu,8,9\n1,absoluteValue,8,9\n2,max,8,9,10\n"

theorem parse_text_strays : parse strays.text = .ok strays := by
  refine parse_text_of_wellFormed ⟨by decide, by decide⟩ ⟨by decide, by decide, by decide, ?_⟩ ?_
  · intro g inputs hmem
    simp only [strays, List.mem_cons, reduceCtorEq, IpqConstraint.max.injEq, false_or,
      List.not_mem_nil, or_false] at hmem
    rw [hmem.2]
    exact List.cons_ne_nil _ _
  · exact fun _ _ => beq_self_eq_true _

/-- The text is also read with eleven variables, but not with none. -/
theorem parse_recounted_iff_strays :
    parse strays.text = .ok strays ∧
      parse (recounted 11 strays.text) = .ok { strays with variableCount := 11 } ∧
      parse (recounted 0 strays.text) ≠ .ok { strays with variableCount := 0 } := by
  obtain ⟨-, -, hiff⟩ := parse_recounted_iff parse_text_strays
  refine ⟨parse_text_strays, (hiff 11 (by decide)).2 (by decide), ?_⟩
  intro h
  exact absurd ((hiff 0 (by decide)).1 h) (by decide)

/-- Variables beyond the number of variables are read in the bounds, in the equations and in
constraints of each kind. -/
theorem parse_strays :
    parse straysText = .ok strays ∧
    (∀ v ∈ strays.lowerBounds.entries.map Prod.fst, strays.variableCount ≤ v) ∧
    (∀ v ∈ strays.upperBounds.entries.map Prod.fst, strays.variableCount ≤ v) ∧
    (∀ e ∈ strays.equations, ∀ a ∈ e.addends, strays.variableCount ≤ a.1) ∧
    (∀ c ∈ strays.constraints, ∀ v ∈ c.variables, strays.variableCount ≤ v) ∧
    ¬∀ v ∈ strays.mentioned, v < strays.variableCount := by
  have htext : strays.text = straysText := by decide +kernel
  rw [← htext]
  exact ⟨parse_text_strays, by decide⟩

end IpqFile

end PiecewiseNet
