import PiecewiseNet.Proofs.Nnet.Reading
import PiecewiseNet.Proofs.Nnet.Rows

/-!
# Reading the layout back

A weight file lists its contents in a fixed order of rows. Every text that lists a file in this
order, however its rows are spread over lines, is read as that file: each part of the reader takes
the rows that the layout has for it, whatever stands behind them.

## Main definitions

- `NnetFile.layout`: the rows of a file.
- `NnetFile.Lists`: the text lists the rows of the file.
- `NnetFile.Takes`: the reading takes the given rows, whatever stands behind them.

## Main statements

- `NnetFile.takes_layerRows`: the rows of the layers, by induction on the layers.
- `NnetFile.takes_readFile`: the rows of a file are read as that file.
- `NnetFile.parse_of_lists`: reading undoes every way of writing a file.
-/

namespace PiecewiseNet.NnetFile

open Text

variable {α : Type}

/-- All scalars of a file. -/
def numbers (f : NnetFile α) : List α :=
  f.minimums ++ f.maximums ++ f.means ++ f.ranges ++
    (f.weights.zip f.biases).flatMap fun l => l.1.flatten ++ l.2

/-- Every scalar of the file equals itself. -/
def Definite [BEq α] (f : NnetFile α) : Prop :=
  ∀ x ∈ f.numbers, (x == x) = true

variable [Numeral α]

/-- The fields of a row of scalars. -/
def scalarFields (xs : List α) : List String :=
  xs.map Numeral.write

/-- The rows of a layer: its weight rows, and a row for each bias. -/
def layerFields (l : List (List α) × List α) : List (List String) :=
  l.1.map scalarFields ++ l.2.map fun bias => [Numeral.write bias]

/-- The rows of a file: a header with the number of layers after the input, the input size and two
numbers that are not read; the layer sizes; a row that is not read; the ranges and the scaling of
the inputs; and the rows of the layers. -/
def layout (f : NnetFile α) (largest unused : Nat) (flag : List String) : List (List String) :=
  [toString (f.layerSizes.length - 1), toString (f.layerSizes.headD 0), toString largest,
    toString unused] ::
  f.layerSizes.map toString :: flag :: scalarFields f.minimums :: scalarFields f.maximums ::
  scalarFields f.means :: scalarFields f.ranges :: (f.weights.zip f.biases).flatMap layerFields

/-- The text lists the rows of the file, on lines with other lines between them. -/
def Lists (f : NnetFile α) (text : String) : Prop :=
  ∃ (largest unused : Nat) (flag : List String) (ls : List (List Char)),
    largest ≤ indexLimit ∧ unused ≤ indexLimit ∧ (∀ s ∈ flag, IsField s.toList) ∧
    ListsRows (f.layout largest unused flag) ls ∧ text.toList = ['\n'].intercalate ls

/-! ## Readings of given rows -/

/-- The reading takes the given rows, whatever the numbers of their lines and whatever stands behind
them, and yields `x`. -/
def Takes {β : Type} (m : Reading α β) (rows : List (List String)) (x : β) : Prop :=
  ∀ n ahead rest, ahead.map Prod.snd = rows.map (fun r => r.map String.toList) →
    ∃ n', Reads m ⟨n, ahead ++ rest⟩ x ⟨n', rest⟩

section

variable {β γ : Type} {x : β} {rows : List (List String)} {r : List String} {item : NnetItem}

omit [Numeral α]

theorem takes_pure : Takes (pure x : Reading α β) [] x := by
  intro n ahead rest hahead
  rw [List.map_nil, List.map_eq_nil_iff] at hahead
  exact ⟨n, by rw [hahead]; exact reads_pure.2 ⟨rfl, rfl⟩⟩

/-- One reading takes rows, the next one those behind them. -/
theorem Takes.bind {m : Reading α β} {g : β → Reading α γ} {rows' : List (List String)} {y : γ}
    (hm : Takes m rows x) (hg : Takes (g x) rows' y) : Takes (m >>= g) (rows ++ rows') y := by
  intro n ahead rest hahead
  rw [List.map_append, List.map_eq_append_iff] at hahead
  obtain ⟨ahead₁, ahead₂, rfl, h₁, h₂⟩ := hahead
  obtain ⟨n₁, hreads₁⟩ := hm n ahead₁ (ahead₂ ++ rest) h₁
  obtain ⟨n₂, hreads₂⟩ := hg n₁ ahead₂ rest h₂
  refine ⟨n₂, reads_bind.2 ⟨x, _, ?_, hreads₂⟩⟩
  rw [List.append_assoc]
  exact hreads₁

/-- What is computed from what was read takes no further row. -/
theorem Takes.bind_pure {m : Reading α β} {g : β → γ} (hm : Takes m rows x) :
    Takes (m >>= fun y => pure (g y)) rows (g x) := by
  have h : Takes (m >>= fun y => pure (g y)) (rows ++ []) (g x) := hm.bind takes_pure
  rwa [List.append_nil] at h

theorem takes_nextRow : Takes (nextRow item : Reading α _) [r] (r.map String.toList) := by
  intro n ahead rest hahead
  rw [List.map_singleton, List.map_eq_singleton_iff] at hahead
  obtain ⟨⟨k, fs⟩, rfl, rfl⟩ := hahead
  exact ⟨k, rfl⟩

variable {read : List Char → Except NumeralError β} {bad : List Char → NumeralError → NnetFault}
  {vs : List β}

theorem takes_readFields {fs : List (List Char)} (h : Values read fs vs) :
    Takes (readFields read bad fs : Reading α (List β)) [] vs := by
  induction h with
  | nil => exact takes_pure
  | cons hv _ ih =>
    rw [readFields, hv]
    exact ih.bind_pure

/-- A row with enough values is taken as these values. -/
theorem takes_valueRow {least : Nat} (h : Values read (r.map String.toList) vs)
    (hleast : least ≤ vs.length) :
    Takes (valueRow item least read bad : Reading α (List β)) [r] vs := by
  refine takes_nextRow.bind ?_
  rw [if_neg (by rw [h.length_eq]; exact Nat.not_lt.2 hleast)]
  exact takes_readFields h

theorem takes_indexRow {least : Nat} {ns : List Nat} (h : ∀ n ∈ ns, n ≤ indexLimit)
    (hleast : least ≤ ns.length) :
    Takes (indexRow item least : Reading α _) [ns.map toString] ns := by
  refine takes_valueRow ?_ hleast
  rw [List.map_map, Values, List.forall₂_map_left_iff, List.forall₂_same]
  exact fun n hn => readNat_toString (h n hn)

end

/-! ## Scalars and layers -/

/-- The scalars are read back from their written form. -/
def Written (xs : List α) : Prop :=
  ∀ x ∈ xs, Numeral.read (Numeral.write x).toList = .ok x

variable {item : NnetItem}

theorem takes_scalarRow {least : Nat} {xs : List α} (h : Written xs) (hleast : least ≤ xs.length) :
    Takes (scalarRow item least : Reading α _) [scalarFields xs] xs := by
  refine takes_valueRow ?_ hleast
  rw [scalarFields, List.map_map, Values, List.forall₂_map_left_iff, List.forall₂_same]
  exact h

/-- Weight rows without further values are read back. -/
theorem takes_weightRows {columns : Nat} {rows : List (List α)} (h : Written rows.flatten)
    (hlengths : ∀ row ∈ rows, row.length = columns) :
    Takes (weightRows columns rows.length : Reading α _) (rows.map scalarFields) rows := by
  induction rows with
  | nil => exact takes_pure
  | cons row rows ih =>
    rw [List.forall_mem_cons] at hlengths
    rw [Written, List.flatten_cons, List.forall_mem_append] at h
    refine (takes_scalarRow h.1 (Nat.le_of_eq hlengths.1.symm)).bind ?_
    rw [List.take_of_length_le (Nat.le_of_eq hlengths.1)]
    exact (ih h.2 hlengths.2).bind_pure

theorem takes_biasRows {biases : List α} (h : Written biases) :
    Takes (biasRows biases.length : Reading α _) (biases.map fun bias => [Numeral.write bias])
      biases := by
  induction biases with
  | nil => exact takes_pure
  | cons bias biases ih =>
    obtain ⟨hbias, hrest⟩ := List.forall_mem_cons.1 h
    have hrow : Takes (scalarRow .bias 1 : Reading α _) [scalarFields [bias]] [bias] :=
      takes_scalarRow (List.forall_mem_singleton.2 hbias) (Nat.le_refl 1)
    exact hrow.bind (ih hrest).bind_pure

/-- The rows of layers that fit their sizes are read back, layer by layer. -/
theorem takes_layerRows {sizes : List Nat} {layers : List (List (List α) × List α)}
    (hfit : LayersFit sizes layers) (h : ∀ l ∈ layers, Written (l.1.flatten ++ l.2)) :
    Takes (layerRows sizes : Reading α _) (layers.flatMap layerFields) layers := by
  induction hfit with
  | nil => exact takes_pure
  | @cons columns size sizes rows biases layers hrows hlengths hbiases _ ih =>
    obtain ⟨hlayer, hlayers⟩ := List.forall_mem_cons.1 h
    rw [Written, List.forall_mem_append] at hlayer
    rw [List.flatMap_cons, layerFields, List.append_assoc]
    have hweightRows := takes_weightRows hlayer.1 hlengths
    have hbiasRows := takes_biasRows hlayer.2
    rw [hrows] at hweightRows
    rw [hbiases] at hbiasRows
    exact hweightRows.bind (hbiasRows.bind (ih hlayers).bind_pure)

/-! ## Files -/

variable {f : NnetFile α}

omit [Numeral α] in
/-- A file is put together again from the pairs of weights and biases of its layers. -/
theorem eq_of_zip (h : f.weights.length = f.biases.length) :
    f = { f with weights := (f.weights.zip f.biases).map (·.1),
                 biases := (f.weights.zip f.biases).map (·.2) } := by
  have hfst : (f.weights.zip f.biases).map (·.1) = f.weights :=
    List.map_fst_zip (Nat.le_of_eq h)
  have hsnd : (f.weights.zip f.biases).map (·.2) = f.biases :=
    List.map_snd_zip (Nat.le_of_eq h.symm)
  rw [hfst, hsnd]

/-- The rows of a file are read as that file. -/
theorem takes_readFile {largest unused : Nat} {flag : List String} (hshaped : f.Shaped)
    (hwritten : Written f.numbers) (hlength : f.layerSizes.length ≤ indexLimit)
    (hsizes : ∀ n ∈ f.layerSizes, n ≤ indexLimit) (hlargest : largest ≤ indexLimit)
    (hunused : unused ≤ indexLimit) :
    Takes (readFile : Reading α _) (f.layout largest unused flag) f := by
  obtain ⟨⟨inputSize, hinput, hmin, hmax, hmeans, hranges⟩, hzip, hfit⟩ := hshaped
  simp only [Written, numbers, List.forall_mem_append, List.mem_flatMap] at hwritten
  obtain ⟨⟨⟨⟨hminimums, hmaximums⟩, hmeans'⟩, hranges'⟩, hlayers⟩ := hwritten
  have hinput : f.layerSizes.head? = some inputSize := hinput
  obtain ⟨sizes, hcons⟩ := List.head?_eq_some_iff.1 hinput
  have hhead : f.layerSizes.headD 0 = inputSize := by rw [hcons]; rfl
  have hcount : f.layerSizes.length = f.layerSizes.length - 1 + 1 := by
    rw [hcons]
    rfl
  have hheader : ∀ n ∈ [f.layerSizes.length - 1, inputSize, largest, unused], n ≤ indexLimit := by
    have hinputSize : inputSize ≤ indexLimit := hsizes inputSize (hcons ▸ List.mem_cons_self ..)
    simp only [List.forall_mem_cons, List.not_mem_nil, false_imp_iff, implies_true, and_true]
    exact ⟨by omega, hinputSize, hlargest, hunused⟩
  have hlayers : ∀ l ∈ f.weights.zip f.biases, Written (l.1.flatten ++ l.2) :=
    fun l hl x hx => hlayers x ⟨l, hl, hx⟩
  rw [layout, hhead]
  refine (takes_indexRow hheader (by simp)).bind ?_
  show Takes (if _ then _ else _) _ f
  rw [if_neg (by omega)]
  refine (takes_indexRow hsizes (Nat.le_of_eq hcount.symm)).bind ?_
  rw [if_neg (not_not.2 hcount), if_neg (not_not.2 hinput)]
  refine takes_nextRow.bind ?_
  refine (takes_scalarRow hminimums hmin).bind ?_
  refine (takes_scalarRow hmaximums hmax).bind ?_
  refine (takes_scalarRow hmeans' hmeans).bind ?_
  refine (takes_scalarRow hranges' hranges).bind ?_
  -- The layers are read in pairs of weights and biases, and taken apart again.
  have hread := (takes_layerRows hfit hlayers).bind_pure
    (g := fun layers : List (List (List α) × List α) =>
      ({ f with weights := layers.map (·.1), biases := layers.map (·.2) } : NnetFile α))
  rwa [← eq_of_zip hzip] at hread

/-- What holds of all rows of a file, row by row. -/
theorem forall_mem_layout {p : List String → Prop} {largest unused : Nat} {flag : List String} :
    (∀ r ∈ f.layout largest unused flag, p r) ↔
      p [toString (f.layerSizes.length - 1), toString (f.layerSizes.headD 0), toString largest,
        toString unused] ∧
      p (f.layerSizes.map toString) ∧ p flag ∧ p (scalarFields f.minimums) ∧
      p (scalarFields f.maximums) ∧ p (scalarFields f.means) ∧ p (scalarFields f.ranges) ∧
      ∀ r ∈ (f.weights.zip f.biases).flatMap layerFields, p r := by
  simp only [layout, List.forall_mem_cons]

/-- The rows of a file are made of fields. -/
theorem isField_of_mem_layout [CleanNumeral α] {largest unused : Nat} {flag : List String}
    (hwritten : Written f.numbers) (hflag : ∀ s ∈ flag, IsField s.toList) :
    ∀ r ∈ f.layout largest unused flag, ∀ s ∈ r, IsField s.toList := by
  have hscalar : ∀ {x : α}, Numeral.read (Numeral.write x).toList = .ok x →
      IsField (Numeral.write x).toList := CleanNumeral.isField_of_read
  have hscalars : ∀ {xs : List α}, Written xs → ∀ s ∈ scalarFields xs, IsField s.toList := by
    intro xs hxs s hs
    obtain ⟨x, hx, rfl⟩ := List.mem_map.1 hs
    exact hscalar (hxs x hx)
  have hnats : ∀ ns : List Nat, ∀ s ∈ ns.map toString, IsField s.toList := by
    intro ns s hs
    obtain ⟨n, -, rfl⟩ := List.mem_map.1 hs
    exact isField_toString n
  simp only [Written, numbers, List.forall_mem_append, List.mem_flatMap] at hwritten
  obtain ⟨⟨⟨⟨hminimums, hmaximums⟩, hmeans⟩, hranges⟩, hlayers⟩ := hwritten
  have hlayer : ∀ r ∈ (f.weights.zip f.biases).flatMap layerFields, ∀ s ∈ r,
      IsField s.toList := by
    intro r hr
    obtain ⟨l, hl, hr⟩ := List.mem_flatMap.1 hr
    rcases List.mem_append.1 hr with hr | hr
    · obtain ⟨row, hrow, rfl⟩ := List.mem_map.1 hr
      refine hscalars fun x hx => hlayers x ⟨l, hl, List.mem_append_left _ ?_⟩
      exact List.mem_flatten.2 ⟨row, hrow, hx⟩
    · obtain ⟨bias, hbias, rfl⟩ := List.mem_map.1 hr
      refine List.forall_mem_singleton.2 (hscalar ?_)
      exact hlayers bias ⟨l, hl, List.mem_append_right _ hbias⟩
  exact forall_mem_layout.2 ⟨hnats [_, _, _, _], hnats _, hflag, hscalars hminimums,
    hscalars hmaximums, hscalars hmeans, hscalars hranges, hlayer⟩

/-! ## Writing a file -/

omit [Numeral α] in
/-- A row can be written on a line. -/
theorem exists_rowLine {r : List String} (h : r ≠ []) : ∃ line, RowLine r line := by
  have hblanks : Blanks [] := fun _ hc => absurd hc List.not_mem_nil
  induction r with
  | nil => exact absurd rfl h
  | cons field r ih =>
    cases r with
    | nil => exact ⟨_, .last hblanks hblanks⟩
    | cons next r =>
      obtain ⟨line, hline⟩ := ih (List.cons_ne_nil next r)
      exact ⟨_, .cons hblanks hblanks hline⟩

omit [Numeral α] in
/-- Rows can be written on lines. -/
theorem exists_listsRows {rows : List (List String)} (h : ∀ r ∈ rows, r ≠ []) :
    ∃ ls, ListsRows rows ls := by
  induction rows with
  | nil => exact ⟨[], .nil⟩
  | cons r rows ih =>
    obtain ⟨hr, hrows⟩ := List.forall_mem_cons.1 h
    obtain ⟨line, hline⟩ := exists_rowLine hr
    obtain ⟨ls, hls⟩ := ih hrows
    exact ⟨line :: ls, .row hline hls⟩

/-- The rows of layers without an empty one have fields. -/
theorem ne_nil_of_mem_layerFields {sizes : List Nat} {layers : List (List (List α) × List α)}
    (hfit : LayersFit sizes layers) (hsizes : ∀ n ∈ sizes, 1 ≤ n) :
    ∀ r ∈ layers.flatMap layerFields, r ≠ [] := by
  induction hfit with
  | nil => simp
  | cons _ hlengths _ _ ih =>
    obtain ⟨hcolumns, hrest⟩ := List.forall_mem_cons.1 hsizes
    rw [List.flatMap_cons, List.forall_mem_append]
    refine ⟨?_, ih hrest⟩
    intro r hr
    rcases List.mem_append.1 hr with hr | hr
    · obtain ⟨row, hrow, rfl⟩ := List.mem_map.1 hr
      refine List.ne_nil_of_length_pos ?_
      rw [scalarFields, List.length_map, hlengths row hrow]
      exact hcolumns
    · obtain ⟨bias, -, rfl⟩ := List.mem_map.1 hr
      exact List.cons_ne_nil _ _

/-- A file without an empty layer can be written. -/
theorem exists_lists (hshaped : f.Shaped) (hsizes : ∀ n ∈ f.layerSizes, 1 ≤ n) :
    ∃ text, f.Lists text := by
  obtain ⟨⟨inputSize, hinput, hmin, hmax, hmeans, hranges⟩, -, hfit⟩ := hshaped
  have hmem : inputSize ∈ f.layerSizes := List.mem_of_head? hinput
  have hinputSize := hsizes inputSize hmem
  have hscalars : ∀ {xs : List α}, inputSize ≤ xs.length → scalarFields xs ≠ [] := by
    intro xs hxs
    refine List.ne_nil_of_length_pos ?_
    rw [scalarFields, List.length_map]
    omega
  have hsizesRow : f.layerSizes.map toString ≠ [] :=
    List.map_eq_nil_iff.not.2 (List.ne_nil_of_mem hmem)
  have hrows : ∀ r ∈ f.layout 0 0 ["0"], r ≠ [] :=
    forall_mem_layout.2 ⟨List.cons_ne_nil _ _, hsizesRow, List.cons_ne_nil _ _, hscalars hmin,
      hscalars hmax, hscalars hmeans, hscalars hranges, ne_nil_of_mem_layerFields hfit hsizes⟩
  obtain ⟨ls, hls⟩ := exists_listsRows hrows
  have hflag : ∀ s ∈ ["0"], IsField s.toList := List.forall_mem_singleton.2 (isField_toString 0)
  exact ⟨String.ofList (['\n'].intercalate ls), 0, 0, ["0"], ls, Nat.zero_le _, Nat.zero_le _,
    hflag, hls, String.toList_ofList⟩

/-! ## Reading undoes writing -/

/-- Reading undoes every way of writing a file. If scalars are read back from their written form
(those that differ from themselves apart), then a file whose parts fit together and that has no
empty layer and no indefinite scalar can be written, and every text that lists its rows is read as
this file: with blanks around the fields, commas at the ends of the rows, blank lines and remarks or
without them, and whatever stands in the parts that are not read. -/
theorem parse_of_lists [BEq α] [CleanNumeral α]
    (hread : ∀ x : α, (x == x) = true → Numeral.read (Numeral.write x).toList = .ok x)
    (hshaped : f.Shaped) (hdef : f.Definite) (hlength : f.layerSizes.length ≤ indexLimit)
    (hsizes : ∀ n ∈ f.layerSizes, 1 ≤ n ∧ n ≤ indexLimit) :
    (∃ text, f.Lists text) ∧ ∀ text, f.Lists text → parse text = .ok f := by
  have hwritten : Written f.numbers := fun x hx => hread x (hdef x hx)
  refine ⟨exists_lists hshaped fun n hn => (hsizes n hn).1, ?_⟩
  rintro text ⟨largest, unused, flag, ls, hlargest, hunused, hflag, hls, htext⟩
  have htakes : Takes readFile (f.layout largest unused flag) f :=
    takes_readFile hshaped hwritten hlength (fun n hn => (hsizes n hn).2) hlargest hunused
  have hahead := map_snd_ahead_of_listsRows hls (List.cons_ne_nil _ _)
    (isField_of_mem_layout hwritten hflag)
  obtain ⟨n, hreads⟩ := htakes 0 _ [] hahead
  rw [List.append_nil, ← htext] at hreads
  exact parse_eq_ok_iff.2 ⟨⟨n, []⟩, hreads⟩

/-- A file of one neuron over one input. -/
def neuron : NnetFile Int where
  layerSizes := [1, 1]
  minimums := [-1]
  maximums := [1]
  means := [0, 0]
  ranges := [1, 2]
  weights := [[[3]]]
  biases := [[5]]

/-- A text of that file, with remarks, blanks, line ends of two kinds and most of the commas. -/
def neuronText : String :=
  "// one neuron\n1,1,1,0,\n1, 1\r\n\n0,\n-1,\n1,\n0,0,\n 1 ,\t2 ,\n // weights, biases\n3,\n5\n"

theorem lists_neuron : neuron.Lists neuronText := by
  have none : Blanks [] := fun _ hc => absurd hc List.not_mem_nil
  have space : Blanks [' '] := List.forall_mem_singleton.2 (by decide)
  have tab : Blanks ['\t'] := List.forall_mem_singleton.2 (by decide)
  have ret : Blanks ['\r'] := List.forall_mem_singleton.2 (by decide)
  have title : RemarkLine _ := @RemarkLine.remark [] " one neuron".toList none (by decide)
  have note : RemarkLine _ := @RemarkLine.remark [' '] " weights, biases".toList space (by decide)
  have hlayout : neuron.layout 1 0 ["0"] = [["1", "1", "1", "0"], ["1", "1"], ["0"], ["-1"], ["1"],
      ["0", "0"], ["1", "2"], ["3"], ["5"]] := by decide +kernel
  have hrows : ListsRows [["1", "1", "1", "0"], ["1", "1"], ["0"], ["-1"], ["1"], ["0", "0"],
      ["1", "2"], ["3"], ["5"]] _ :=
    .remark title <|
    .row (.cons none none <| .cons none none <| .cons none none <| .comma none none none) <|
    .row (.cons none none <| .last space ret) <|
    .remark (.blank none) <|
    .row (.comma none none none) <|
    .row (.comma none none none) <|
    .row (.comma none none none) <|
    .row (.cons none none <| .comma none none none) <|
    .row (.cons space space <| .comma tab space none) <|
    .remark note <|
    .row (.comma none none none) <|
    .row (.last none none) <|
    .remark (.blank none) .nil
  refine ⟨1, 0, ["0"], _, by decide, by decide, ?_, hlayout ▸ hrows, by decide +kernel⟩
  exact List.forall_mem_singleton.2 (isField_toString 0)

/-- The laws of numerals hold for integers, and the text of the neuron is read as the neuron. -/
theorem parse_of_lists_neuron :
    neuron.Shaped ∧ neuron.Definite ∧ neuron.Lists neuronText ∧ parse neuronText = .ok neuron := by
  have hshaped : neuron.Shaped := by
    refine ⟨⟨1, rfl, by decide, by decide, by decide, by decide⟩, rfl, ?_⟩
    exact .cons rfl (by decide) rfl .nil
  have hdef : neuron.Definite := fun _ _ => beq_self_eq_true _
  have hparse := parse_of_lists (fun x _ => read_write_int x) hshaped hdef (by decide) (by decide)
  exact ⟨hshaped, hdef, lists_neuron, hparse.2 neuronText lists_neuron⟩

end PiecewiseNet.NnetFile
