import Mathlib.Data.List.Forall2
import PiecewiseNet.Nnet.Reader
import PiecewiseNet.Proofs.Text.Readings

/-!
# What weight files say

The reader takes one row after the other and counts what it reads. A file that it returns has the
values of the rows in their order: for every layer after the input as many weight rows and biases as
the layer has neurons, and in every weight row a value for each neuron of the layer before. Values
behind these in a row, and rows behind the last bias, are not read.

## Main definitions

- `NnetFile.LayersFit`: weight rows and biases fit the layer sizes.
- `NnetFile.Shaped`: the parts of a file fit together.
- `NnetFile.LayersSpelled`, `NnetFile.Spelled`: rows of fields that say what a file says.

## Main statements

- `NnetFile.of_parse`: files that were read are shaped, and say what the rows of the text say.
-/

namespace PiecewiseNet.NnetFile

open Text

variable {α : Type}

/-- For each layer after the first one, in order: there are as many weight rows and biases as the
layer has neurons, and every row has a weight for each neuron of the layer before. -/
inductive LayersFit : List Nat → List (List (List α) × List α) → Prop where
  | nil {size : Nat} : LayersFit [size] []
  | cons {columns size : Nat} {sizes : List Nat} {rows : List (List α)} {biases : List α}
      {layers : List (List (List α) × List α)} (rows_length : rows.length = size)
      (row_length : ∀ row ∈ rows, row.length = columns) (biases_length : biases.length = size)
      (rest : LayersFit (size :: sizes) layers) :
      LayersFit (columns :: size :: sizes) ((rows, biases) :: layers)

/-- There are weights and biases for every layer but the first one. -/
theorem LayersFit.length_layers {sizes : List Nat} {layers : List (List (List α) × List α)}
    (h : LayersFit sizes layers) : layers.length + 1 = sizes.length := by
  induction h with
  | nil => rfl
  | cons _ _ _ _ ih => rw [List.length_cons, List.length_cons, ih]

/-- The parts of a file fit together. -/
structure Shaped (f : NnetFile α) : Prop where
  /-- There is an input layer, and every input has the four values of its range. -/
  inputs : ∃ n, f.inputSize? = some n ∧ n ≤ f.minimums.length ∧ n ≤ f.maximums.length ∧
    n ≤ f.means.length ∧ n ≤ f.ranges.length
  /-- There are biases for every layer with weights. -/
  weights_length : f.weights.length = f.biases.length
  layers : LayersFit f.layerSizes (f.weights.zip f.biases)

/-- The fields are these values in their written form. -/
abbrev Values {β : Type} (read : List Char → Except NumeralError β) (fields : List (List Char))
    (vs : List β) : Prop :=
  List.Forall₂ (fun field v => read field = .ok v) fields vs

/-- A row of fields, as it is ahead of the reader. -/
abbrev Row := Nat × List (List Char)

variable [Numeral α]

/-- The row starts with these values. -/
def Row.StartsWith (r : Row) (vs : List α) : Prop :=
  Values Numeral.read (r.2.take vs.length) vs

/-- For each layer in order, the rows are its weight rows and then its biases. -/
inductive LayersSpelled : List (List (List α) × List α) → List Row → Prop where
  | nil : LayersSpelled [] []
  | cons {weights : List (List α)} {biases : List α} {layers : List (List (List α) × List α)}
      {weightRows biasRows rows : List Row}
      (hweights : List.Forall₂ Row.StartsWith weightRows weights)
      (hbiases : List.Forall₂ (fun r bias => r.StartsWith [bias]) biasRows biases)
      (rest : LayersSpelled layers rows) :
      LayersSpelled ((weights, biases) :: layers) (weightRows ++ (biasRows ++ rows))

/-- The rows of a text say what the file says: a header, the layer sizes, a flag, the ranges and the
scaling of the inputs, and the layers. -/
def Spelled (f : NnetFile α) (rows : List Row) : Prop :=
  ∃ header sizes flag minimums maximums means ranges layers rest,
    rows = header :: sizes :: flag :: minimums :: maximums :: means :: ranges :: (layers ++ rest) ∧
    (∃ layerCount inputSize more,
      Values (readNat indexLimit) header.2 (layerCount :: inputSize :: more) ∧
      f.layerSizes.length = layerCount + 1 ∧ f.inputSize? = some inputSize) ∧
    Values (readNat indexLimit) sizes.2 f.layerSizes ∧
    Values Numeral.read minimums.2 f.minimums ∧ Values Numeral.read maximums.2 f.maximums ∧
    Values Numeral.read means.2 f.means ∧ Values Numeral.read ranges.2 f.ranges ∧
    LayersSpelled (f.weights.zip f.biases) layers

variable {s s' : Rows} {item : NnetItem} {least : Nat}

/-! ## Rows -/

omit [Numeral α] in
theorem not_reads_fault {β : Type} {x : β} {e : NnetFault} :
    ¬Reads (fault e : Reading α β) s x s' := by
  intro h
  cases h

omit [Numeral α] in
theorem of_reads_nextRow {fs : List (List Char)}
    (h : Reads (nextRow item : Reading α _) s fs s') : ∃ n, s.ahead = (n, fs) :: s'.ahead := by
  obtain ⟨rows, t, hget, h⟩ := reads_bind.1 h
  cases hget
  split at h
  · cases h
  · rename_i n fs' rest hahead
    cases h
    exact ⟨n, hahead⟩

omit [Numeral α] in
theorem of_reads_readFields {β : Type} {read : List Char → Except NumeralError β}
    {bad : List Char → NumeralError → NnetFault} {fs : List (List Char)} {vs : List β}
    (h : Reads (readFields read bad fs : Reading α (List β)) s vs s') :
    s' = s ∧ Values read fs vs := by
  induction fs generalizing s vs s' with
  | nil =>
    obtain ⟨rfl, rfl⟩ := reads_pure.1 h
    exact ⟨rfl, .nil⟩
  | cons f fs ih =>
    unfold readFields at h
    split at h
    · exact absurd h not_reads_fault
    · rename_i v hv
      obtain ⟨rest, t, hrest, h⟩ := reads_bind.1 h
      obtain ⟨rfl, rfl⟩ := reads_pure.1 h
      obtain ⟨rfl, hvalues⟩ := ih hrest
      exact ⟨rfl, .cons hv hvalues⟩

omit [Numeral α] in
/-- A row is taken whole, and has at least as many values as were asked for. -/
theorem of_reads_valueRow {β : Type} {read : List Char → Except NumeralError β}
    {bad : List Char → NumeralError → NnetFault} {vs : List β}
    (h : Reads (valueRow item least read bad : Reading α (List β)) s vs s') :
    ∃ r : Row, s.ahead = r :: s'.ahead ∧ Values read r.2 vs ∧ least ≤ vs.length := by
  obtain ⟨fs, t, hrow, h⟩ := reads_bind.1 h
  obtain ⟨n, hahead⟩ := of_reads_nextRow hrow
  split at h
  · exact absurd h not_reads_fault
  · rename_i hlen
    obtain ⟨rfl, hvalues⟩ := of_reads_readFields h
    exact ⟨(n, fs), hahead, hvalues, hvalues.length_eq ▸ Nat.le_of_not_lt hlen⟩

/-- The first values of a row are what the row starts with. -/
theorem startsWith_take {r : Row} {vs : List α} {n : Nat} (h : Values Numeral.read r.2 vs)
    (hn : n ≤ vs.length) : r.StartsWith (vs.take n) := by
  rw [Row.StartsWith, List.length_take, Nat.min_eq_left hn]
  exact List.forall₂_take n h

/-- As many weight rows are read as were asked for, each cut to the number of columns. -/
theorem of_reads_weightRows {columns count : Nat} {weights : List (List α)}
    (h : Reads (weightRows columns count : Reading α _) s weights s') :
    ∃ rows, s.ahead = rows ++ s'.ahead ∧ List.Forall₂ Row.StartsWith rows weights ∧
      weights.length = count ∧ ∀ row ∈ weights, row.length = columns := by
  induction count generalizing s weights s' with
  | zero =>
    obtain ⟨rfl, rfl⟩ := reads_pure.1 h
    exact ⟨[], rfl, .nil, rfl, by simp⟩
  | succ count ih =>
    obtain ⟨row, t, hrow, h⟩ := reads_bind.1 h
    obtain ⟨rest, t', hrest, h⟩ := reads_bind.1 h
    obtain ⟨rfl, rfl⟩ := reads_pure.1 h
    obtain ⟨r, hahead, hvalues, hcolumns⟩ := of_reads_valueRow hrow
    obtain ⟨rows, hahead', hrows, hlen, hlengths⟩ := ih hrest
    refine ⟨r :: rows, by rw [hahead, hahead', List.cons_append],
      .cons (startsWith_take hvalues hcolumns) hrows, by rw [List.length_cons, hlen],
      List.forall_mem_cons.2 ⟨?_, hlengths⟩⟩
    rw [List.length_take, Nat.min_eq_left hcolumns]

/-- As many biases are read as were asked for. -/
theorem of_reads_biasRows {count : Nat} {biases : List α}
    (h : Reads (biasRows count : Reading α _) s biases s') :
    ∃ rows, s.ahead = rows ++ s'.ahead ∧
      List.Forall₂ (fun r bias => Row.StartsWith r [bias]) rows biases ∧
      biases.length = count := by
  induction count generalizing s biases s' with
  | zero =>
    obtain ⟨rfl, rfl⟩ := reads_pure.1 h
    exact ⟨[], rfl, .nil, rfl⟩
  | succ count ih =>
    obtain ⟨row, t, hrow, h⟩ := reads_bind.1 h
    obtain ⟨rest, t', hrest, h⟩ := reads_bind.1 h
    obtain ⟨rfl, rfl⟩ := reads_pure.1 h
    obtain ⟨r, hahead, hvalues, hone⟩ := of_reads_valueRow hrow
    obtain ⟨rows, hahead', hrows, hlen⟩ := ih hrest
    cases row with
    | nil => simp at hone
    | cons bias row =>
      have hstart : r.StartsWith [bias] := startsWith_take hvalues hone
      exact ⟨r :: rows, by rw [hahead, hahead', List.cons_append], .cons hstart hrows,
        congrArg Nat.succ hlen⟩

/-- The rows that are read for the layers fit their sizes. -/
theorem of_reads_layerRows {size : Nat} {sizes : List Nat}
    {layers : List (List (List α) × List α)}
    (h : Reads (layerRows (size :: sizes) : Reading α _) s layers s') :
    LayersFit (size :: sizes) layers ∧
      ∃ rows, s.ahead = rows ++ s'.ahead ∧ LayersSpelled layers rows := by
  induction sizes generalizing size s layers s' with
  | nil =>
    obtain ⟨rfl, rfl⟩ := reads_pure.1 h
    exact ⟨.nil, [], rfl, .nil⟩
  | cons next sizes ih =>
    obtain ⟨weights, t, hweights, h⟩ := reads_bind.1 h
    obtain ⟨biases, t', hbiases, h⟩ := reads_bind.1 h
    obtain ⟨rest, t'', hrest, h⟩ := reads_bind.1 h
    obtain ⟨rfl, rfl⟩ := reads_pure.1 h
    obtain ⟨rows₁, hahead₁, hspelled₁, hlen₁, hlengths⟩ := of_reads_weightRows hweights
    obtain ⟨rows₂, hahead₂, hspelled₂, hlen₂⟩ := of_reads_biasRows hbiases
    obtain ⟨hfit, rows₃, hahead₃, hspelled₃⟩ := ih hrest
    refine ⟨.cons hlen₁ hlengths hlen₂ hfit, _, ?_, .cons hspelled₁ hspelled₂ hspelled₃⟩
    rw [hahead₁, hahead₂, hahead₃, List.append_assoc, List.append_assoc]

/-! ## Files -/

theorem of_reads_readFile {f : NnetFile α} (h : Reads (readFile : Reading α _) s f s') :
    f.Shaped ∧ f.Spelled s.ahead := by
  obtain ⟨header, t, hheader, h⟩ := reads_bind.1 h
  split at h
  · rename_i layerCount inputSize more
    split at h
    · exact absurd h not_reads_fault
    · obtain ⟨sizes, t₁, hsizes, h⟩ := reads_bind.1 h
      split at h
      · exact absurd h not_reads_fault
      · split at h
        · exact absurd h not_reads_fault
        · rename_i hcount hinput
          obtain ⟨flag, t₂, hflag, h⟩ := reads_bind.1 h
          obtain ⟨minimums, t₃, hminimums, h⟩ := reads_bind.1 h
          obtain ⟨maximums, t₄, hmaximums, h⟩ := reads_bind.1 h
          obtain ⟨means, t₅, hmeans, h⟩ := reads_bind.1 h
          obtain ⟨ranges, t₆, hranges, h⟩ := reads_bind.1 h
          obtain ⟨layers, t₇, hlayers, h⟩ := reads_bind.1 h
          obtain ⟨rfl, rfl⟩ := reads_pure.1 h
          have hhead : sizes.head? = some inputSize := by simpa using hinput
          obtain ⟨rest, rfl⟩ := List.head?_eq_some_iff.1 hhead
          obtain ⟨r₀, h₀, hvalues₀, -⟩ := of_reads_valueRow hheader
          obtain ⟨r₁, h₁, hvalues₁, -⟩ := of_reads_valueRow hsizes
          obtain ⟨n₂, h₂⟩ := of_reads_nextRow hflag
          obtain ⟨r₃, h₃, hvalues₃, hlen₃⟩ := of_reads_valueRow hminimums
          obtain ⟨r₄, h₄, hvalues₄, hlen₄⟩ := of_reads_valueRow hmaximums
          obtain ⟨r₅, h₅, hvalues₅, hlen₅⟩ := of_reads_valueRow hmeans
          obtain ⟨r₆, h₆, hvalues₆, hlen₆⟩ := of_reads_valueRow hranges
          obtain ⟨hfit, rows, hrows, hspelled⟩ := of_reads_layerRows hlayers
          have hzip : (layers.map (·.1)).zip (layers.map (·.2)) = layers := by
            rw [← List.unzip_fst, ← List.unzip_snd, List.zip_unzip]
          refine ⟨⟨⟨inputSize, rfl, hlen₃, hlen₄, hlen₅, hlen₆⟩, ?_, ?_⟩, ?_⟩
          · rw [List.length_map, List.length_map]
          · rw [hzip]
            exact hfit
          · refine ⟨r₀, r₁, (n₂, flag), r₃, r₄, r₅, r₆, rows, s'.ahead, ?_, ?_, hvalues₁, hvalues₃,
              hvalues₄, hvalues₅, hvalues₆, ?_⟩
            · rw [h₀, h₁, h₂, h₃, h₄, h₅, h₆, hrows]
            · exact ⟨layerCount, inputSize, more, hvalues₀, by simpa using hcount, rfl⟩
            · rw [hzip]
              exact hspelled
  · exact absurd h not_reads_fault

/-- A text is read as a file when the readings of its parts succeed. -/
theorem parse_eq_ok_iff {text : String} {f : NnetFile α} :
    parse text = .ok f ↔ ∃ s', Reads readFile (Rows.ofText text.toList) f s' :=
  map_fst_run_eq_ok_iff

/-- A text that is read as a weight file gives a shaped file, which says what the rows of the text
say. -/
theorem of_parse {text : String} {f : NnetFile α} (h : parse text = .ok f) :
    f.Shaped ∧ f.Spelled (rowsFrom 1 (lines text.toList)) := by
  obtain ⟨s', h⟩ := parse_eq_ok_iff.1 h
  exact of_reads_readFile h

end PiecewiseNet.NnetFile
