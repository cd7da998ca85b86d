import PiecewiseNet.Clip
import PiecewiseNet.Proofs.Nnet.Reading

/-!
# Counts and indices of weight files

The counts that a weight file starts with are taken from its text, and direct how many rows are read
and which entries of earlier rows are looked up. Here the file is read with a check at each of these
places: an entry that is looked up has to be there, and an index has to have one behind it. None of
the checks ever fails, and what is wrong with a text is always reported at one of its lines.

## Main definitions

- `NnetFile.entryAt`, `NnetFile.indexBehind`: the checks.
- `NnetFile.readIndexed`: reading a file with them.
- `NnetFile.Faulting`: the reading fails at lines of the text only.

## Main statements

- `NnetFile.readIndexed_eq`: the checks change nothing.
- `NnetFile.error_of_parse`: texts that are no weight file have a line with a fault.
-/

namespace PiecewiseNet.NnetFile

open Text

variable {α β γ : Type}

/-! ## Checked reading -/

/-- The entry at an index; there has to be one. -/
def entryAt (xs : List β) (i : Nat) : Reading α β :=
  match xs[i]? with
  | some x => pure x
  | none => throw (.graph (.misuse .missingData))

/-- The index behind one; it has to be in the range of indices. -/
def indexBehind (i : Nat) : Reading α Nat :=
  match nextIndex (α := α) i with
  | .ok j => pure j
  | .error cause => throw (.graph cause)

/-- The next `count` biases, each the entry of its row at index zero. -/
def biasRowsIndexed [Numeral α] : Nat → Reading α (List α)
  | 0 => pure []
  | count + 1 => do
    let row ← scalarRow .bias 1
    let bias ← entryAt row 0
    let rest ← biasRowsIndexed count
    return bias :: rest

/-- The weight rows and biases of `count` layers from the one behind `layer` on. Their sizes are
looked up. -/
def layerRowsIndexed [Numeral α] (sizes : List Nat) :
    Nat → Nat → Reading α (List (List (List α) × List α))
  | _, 0 => pure []
  | layer, count + 1 => do
    let columns ← entryAt sizes layer
    let next ← indexBehind layer
    let size ← entryAt sizes next
    let w ← weightRows columns size
    let b ← biasRowsIndexed size
    let rest ← layerRowsIndexed sizes next count
    return (w, b) :: rest

/-- The contents of a weight file, with all entries looked up and all counts checked. -/
def readIndexed [Numeral α] : Reading α (NnetFile α) := do
  let header ← indexRow .header 2
  let layerCount ← entryAt header 0
  let inputSize ← entryAt header 1
  if indexLimit ≤ layerCount then
    fault .tooManyLayers
  else
    let sizeCount ← indexBehind layerCount
    let sizes ← indexRow .layerSizes sizeCount
    if sizes.length ≠ sizeCount then
      fault (.sizeCount sizeCount sizes.length)
    else
      let first ← entryAt sizes 0
      if first ≠ inputSize then
        fault (.inputSize first inputSize)
      else
        let _ ← nextRow .symmetricFlag
        let minimums ← scalarRow .inputMinimums inputSize
        let maximums ← scalarRow .inputMaximums inputSize
        let means ← scalarRow .means inputSize
        let ranges ← scalarRow .ranges inputSize
        let layers ← layerRowsIndexed sizes 0 layerCount
        return { layerSizes := sizes, minimums, maximums, means, ranges,
                 weights := layers.map (·.1), biases := layers.map (·.2) }

theorem entryAt_eq {xs : List β} {i : Nat} {x : β} (h : xs[i]? = some x) :
    (entryAt xs i : Reading α β) = pure x := by
  rw [entryAt, h]

theorem indexBehind_eq {i : Nat} (h : i < indexLimit) :
    (indexBehind i : Reading α Nat) = pure (i + 1) := by
  rw [indexBehind, nextIndex, if_pos h]

/-- What follows a reading matters for what it can yield only. -/
theorem bind_congr_of_reads {m : Reading α β} {f g : β → Reading α γ}
    (h : ∀ s x s', Reads m s x s' → f x = g x) : m >>= f = m >>= g := by
  funext s
  have hrun : ∀ f : β → Reading α γ, (m >>= f) s = m.run s >>= fun p => f p.1 p.2 := fun _ => rfl
  rw [hrun, hrun]
  cases hm : m.run s with
  | error e => rfl
  | ok p =>
    change f p.1 p.2 = g p.1 p.2
    rw [h s p.1 p.2 hm]

section

variable [Numeral α]

theorem biasRowsIndexed_eq (count : Nat) :
    (biasRowsIndexed count : Reading α (List α)) = biasRows count := by
  induction count with
  | zero => rfl
  | succ count ih =>
    rw [biasRowsIndexed, biasRows, ih]
    refine bind_congr_of_reads fun s row s' hrow => ?_
    obtain ⟨-, -, -, hone⟩ := of_reads_valueRow hrow
    cases row with
    | nil => simp at hone
    | cons bias row =>
      rw [entryAt_eq (x := bias) rfl, pure_bind]
      rfl

/-- The layers from an index on are those whose sizes stand there. -/
theorem layerRowsIndexed_eq {sizes : List Nat} {layer count : Nat}
    (hlength : layer + count + 1 = sizes.length) (hlimit : layer + count ≤ indexLimit) :
    (layerRowsIndexed sizes layer count : Reading α _) = layerRows (sizes.drop layer) := by
  induction count generalizing layer with
  | zero =>
    obtain ⟨size, hsize⟩ := List.length_eq_one_iff.1
      (show (sizes.drop layer).length = 1 by rw [List.length_drop]; omega)
    rw [hsize]
    rfl
  | succ count ih =>
    have hcolumns : layer < sizes.length := by omega
    have hsize : layer + 1 < sizes.length := by omega
    rw [layerRowsIndexed, entryAt_eq (List.getElem?_eq_getElem hcolumns), pure_bind,
      indexBehind_eq (by omega), pure_bind, entryAt_eq (List.getElem?_eq_getElem hsize), pure_bind,
      biasRowsIndexed_eq, ih (by omega) (by omega), List.drop_eq_getElem_cons hcolumns,
      List.drop_eq_getElem_cons hsize]
    rfl

/-- No entry is looked up that is not there, and no count leaves the range of indices: with a check
at each place, files are read the same way. -/
theorem readIndexed_eq : (readIndexed : Reading α (NnetFile α)) = readFile := by
  refine bind_congr_of_reads fun s header s' hheader => ?_
  obtain ⟨-, -, -, htwo⟩ := of_reads_valueRow hheader
  obtain ⟨layerCount, inputSize, more, rfl⟩ : ∃ x y more, header = x :: y :: more := by
    match header, htwo with
    | x :: y :: more, _ => exact ⟨x, y, more, rfl⟩
  rw [entryAt_eq (x := layerCount) rfl, pure_bind, entryAt_eq (x := inputSize) rfl, pure_bind]
  dsimp only
  by_cases hlimit : indexLimit ≤ layerCount
  · rw [if_pos hlimit, if_pos hlimit]
  · rw [if_neg hlimit, if_neg hlimit, indexBehind_eq (by omega), pure_bind]
    refine bind_congr_of_reads fun _ sizes _ _ => ?_
    by_cases hcount : sizes.length = layerCount + 1
    · rw [if_neg (not_not.2 hcount), if_neg (not_not.2 hcount)]
      cases sizes with
      | nil => cases hcount
      | cons first sizes =>
        rw [entryAt_eq (x := first) rfl, pure_bind, layerRowsIndexed_eq (by omega) (by omega)]
        by_cases hfirst : first = inputSize
        · subst hfirst
          rw [if_neg (not_not.2 rfl), if_neg (not_not.2 List.head?_cons)]
          rfl
        · rw [if_pos hfirst, if_pos (by simpa using hfirst)]
          rfl
    · rw [if_pos hcount, if_pos hcount]

end

/-! ## Faults -/

/-- The line read last and those ahead are among the first `n` ones. -/
def Rows.Within (n : Nat) (s : Rows) : Prop :=
  s.line ≤ n ∧ ∀ r ∈ s.ahead, r.1 ≤ n

/-- On a text of `n` lines, the reading fails at one of them or behind the last one only. -/
def Faulting (n : Nat) (m : Reading α β) : Prop :=
  ∀ s : Rows, s.Within n →
    (∀ x s', m.run s = .ok (x, s') → s'.Within n) ∧
    ∀ e, m.run s = .error e → ∃ line cause, e = .nnetLine line cause ∧ line ≤ n + 1

section

variable {n : Nat}

theorem faulting_pure (x : β) : Faulting n (pure x : Reading α β) := by
  intro s hs
  refine ⟨?_, ?_⟩
  · intro y s' h
    cases h
    exact hs
  · intro e h
    cases h

theorem Faulting.bind {m : Reading α β} {f : β → Reading α γ} (hm : Faulting n m)
    (hf : ∀ x, Faulting n (f x)) : Faulting n (m >>= f) := by
  intro s hs
  have hrun : (m >>= f).run s = m.run s >>= fun p => (f p.1).run p.2 := rfl
  rw [hrun]
  obtain ⟨hok, herror⟩ := hm s hs
  cases h : m.run s with
  | error e =>
    refine ⟨?_, ?_⟩
    · intro x s' h'
      cases h'
    · intro e' h'
      cases h'
      exact herror e h
  | ok p => exact hf p.1 p.2 (hok p.1 p.2 h)

theorem faulting_fault (cause : NnetFault) : Faulting n (fault cause : Reading α β) := by
  intro s hs
  refine ⟨?_, ?_⟩
  · intro x s' h
    cases h
  · intro e h
    cases h
    exact ⟨s.line, cause, rfl, Nat.le_succ_of_le hs.1⟩

theorem faulting_nextRow (item : NnetItem) : Faulting n (nextRow item : Reading α _) := by
  rintro ⟨line, ahead⟩ ⟨hline, hahead⟩
  cases ahead with
  | nil =>
    refine ⟨?_, ?_⟩
    · intro x s' h
      cases h
    · intro e h
      cases h
      exact ⟨line + 1, _, rfl, Nat.succ_le_succ hline⟩
  | cons r rest =>
    obtain ⟨hr, hrest⟩ := List.forall_mem_cons.1 hahead
    refine ⟨?_, ?_⟩
    · intro x s' h
      cases h
      exact ⟨hr, hrest⟩
    · intro e h
      cases h

theorem faulting_readFields (read : List Char → Except NumeralError β)
    (bad : List Char → NumeralError → NnetFault) (fs : List (List Char)) :
    Faulting n (readFields read bad fs : Reading α (List β)) := by
  induction fs with
  | nil => exact faulting_pure _
  | cons f fs ih =>
    unfold readFields
    split
    · exact faulting_fault _
    · exact ih.bind fun _ => faulting_pure _

theorem faulting_valueRow (item : NnetItem) (least : Nat)
    (read : List Char → Except NumeralError β) (bad : List Char → NumeralError → NnetFault) :
    Faulting n (valueRow item least read bad : Reading α (List β)) := by
  refine (faulting_nextRow item).bind fun fs => ?_
  split
  · exact faulting_fault _
  · exact faulting_readFields read bad fs

variable [Numeral α]

theorem faulting_weightRows (columns count : Nat) :
    Faulting n (weightRows columns count : Reading α _) := by
  induction count with
  | zero => exact faulting_pure _
  | succ count ih =>
    exact (faulting_valueRow _ _ _ _).bind fun _ => ih.bind fun _ => faulting_pure _

theorem faulting_biasRows (count : Nat) : Faulting n (biasRows count : Reading α _) := by
  induction count with
  | zero => exact faulting_pure _
  | succ count ih =>
    exact (faulting_valueRow _ _ _ _).bind fun _ => ih.bind fun _ => faulting_pure _

theorem faulting_layerRows (sizes : List Nat) : Faulting n (layerRows sizes : Reading α _) := by
  induction sizes with
  | nil => exact faulting_pure _
  | cons columns sizes ih =>
    cases sizes with
    | nil => exact faulting_pure _
    | cons size sizes =>
      exact (faulting_weightRows columns size).bind fun _ => (faulting_biasRows size).bind fun _ =>
        ih.bind fun _ => faulting_pure _

theorem faulting_readFile : Faulting n (readFile : Reading α (NnetFile α)) := by
  refine (faulting_valueRow _ _ _ _).bind fun header => ?_
  split
  · split
    · exact faulting_fault _
    · refine (faulting_valueRow _ _ _ _).bind fun sizes => ?_
      split
      · exact faulting_fault _
      · split
        · exact faulting_fault _
        · exact (faulting_nextRow _).bind fun _ => (faulting_valueRow _ _ _ _).bind fun _ =>
            (faulting_valueRow _ _ _ _).bind fun _ => (faulting_valueRow _ _ _ _).bind fun _ =>
            (faulting_valueRow _ _ _ _).bind fun _ => (faulting_layerRows sizes).bind fun _ =>
            faulting_pure _
  · exact faulting_fault _

omit [Numeral α] in
/-- The rows of lines have the numbers of these lines. -/
theorem lt_of_mem_rowsFrom {k : Nat} {ls : List (List Char)} {r : Nat × List (List Char)}
    (h : r ∈ rowsFrom k ls) : r.1 < k + ls.length := by
  induction ls generalizing k with
  | nil => cases h
  | cons line ls ih =>
    rw [List.length_cons]
    unfold rowsFrom at h
    split at h
    · have := ih h
      omega
    · rcases List.mem_cons.1 h with rfl | h
      · dsimp only
        omega
      · have := ih h
        omega

/-- A text that is no weight file has a fault in a line, or ends too early. -/
theorem error_of_parse {text : String} {e : FileError α}
    (h : parse text = .error e) :
    ∃ line cause, e = .nnetLine line cause ∧ line ≤ (lines text.toList).length + 1 := by
  have hwithin : (Rows.ofText text.toList).Within (lines text.toList).length := by
    refine ⟨Nat.zero_le _, fun r hr => ?_⟩
    have := lt_of_mem_rowsFrom hr
    omega
  refine (faulting_readFile (α := α) _ hwithin).2 e ?_
  unfold parse at h
  cases hrun : (readFile : Reading α _).run (Rows.ofText text.toList) with
  | error e' =>
    rw [hrun] at h
    cases h
    rfl
  | ok p =>
    rw [hrun] at h
    cases h

end

end PiecewiseNet.NnetFile
