import PiecewiseNet.Ipq.Reader
import PiecewiseNet.Proofs.Numeral
import PiecewiseNet.Proofs.Text.Lines
import PiecewiseNet.Proofs.Text.Readings

/-!
# Readings of records

A reading of records succeeds in one way at most, and takes its records from the front. The lemmas
here take a successful reading apart, and put readings of written records together.

## Main definitions

- `IpqFile.Reads`: the reading succeeds with a value and leaves records behind.
- `IpqFile.Takes`: the reading takes the given written records, whatever stands behind them.
- `IpqFile.Clean`: the fields of a written record contain neither blanks nor separators.

## Main statements

- `IpqFile.reads_bind`, `IpqFile.reads_nextRecord`, `IpqFile.reads_readField`: what the parts of a
  successful reading were.
- `IpqFile.Takes.bind`, `IpqFile.Takes.of_record`: reading what was written.
- `IpqFile.ofText_join`: the lines of a written text are its records.
-/

namespace PiecewiseNet

open Text

namespace IpqFile

variable {α β γ : Type} {s s' : Records} {item : IpqItem} {x : β}

/-- From records `s` the reading yields `x`, and leaves the records `s'` behind. -/
def Reads (m : Reading α β) (s : Records) (x : β) (s' : Records) : Prop :=
  m.run s = .ok (x, s')

@[simp] theorem reads_pure {y : β} : Reads (pure x : Reading α β) s y s' ↔ y = x ∧ s' = s :=
  Text.reads_pure

/-- Readings one after the other: the second one starts from what the first one leaves behind. -/
@[simp] theorem reads_bind {m : Reading α β} {f : β → Reading α γ} {y : γ} :
    Reads (m >>= f) s y s' ↔ ∃ x t, Reads m s x t ∧ Reads (f x) t y s' :=
  Text.reads_bind

@[simp] theorem not_reads_throw {err : FileError α} : ¬Reads (throw err : Reading α β) s x s' := by
  intro h
  cases h

@[simp] theorem not_reads_fault {fault : IpqFault} :
    ¬Reads (IpqFile.fault fault : Reading α β) s x s' := by
  intro h
  cases h

theorem reads_nextRecord {r : List (List Char)} :
    Reads (nextRecord item : Reading α _) s r s' ↔
      ∃ line rest, s.ahead = line :: rest ∧ s' = ⟨s.line + 1, rest⟩ ∧ r = recordFields line := by
  obtain ⟨n, ahead⟩ := s
  cases ahead with
  | nil =>
    constructor
    · intro h
      cases h
    · rintro ⟨line, rest, h, -⟩
      cases h
  | cons line rest =>
    constructor
    · intro h
      cases h
      exact ⟨line, rest, rfl, rfl, rfl⟩
    · rintro ⟨line', rest', h, rfl, rfl⟩
      cases h
      rfl

@[simp] theorem reads_readField {read : List Char → Except NumeralError β} {field : List Char} :
    Reads (readField item read field : Reading α β) s x s' ↔ read field = .ok x ∧ s' = s := by
  unfold readField
  cases hread : read field with
  | error cause => simp
  | ok y => simp [eq_comm]

/-- A text is read as a file when the readings of its parts succeed. -/
theorem parse_eq_ok_iff [Numeral α] {text : String} {f : IpqFile α} :
    parse text = .ok f ↔ ∃ s', Reads readFile (Records.ofText text.toList) f s' :=
  map_fst_run_eq_ok_iff

/-! ## Reading what was written -/

/-- The characters of a written record, with commas between its fields. -/
def lineOf (r : List String) : List Char :=
  [','].intercalate (r.map String.toList)

/-- No field of a written record contains a blank or a separator, and there is a field. -/
def Clean (r : List String) : Prop :=
  r ≠ [] ∧ ∀ field ∈ r, ∀ c ∈ field.toList, IsPlain c

theorem mem_lineOf {r : List String} {c : Char} (h : c ∈ lineOf r) :
    c = ',' ∨ ∃ field ∈ r, c ∈ field.toList := by
  unfold lineOf at h
  induction r with
  | nil => simp at h
  | cons field r ih =>
    cases r with
    | nil =>
      rw [List.map_singleton, List.intercalate_singleton] at h
      exact .inr ⟨field, List.mem_cons_self .., h⟩
    | cons next r =>
      rw [List.map_cons, List.map_cons, List.intercalate_cons_cons, List.mem_append,
        List.mem_append, List.mem_singleton] at h
      rcases h with (h | h) | h
      · exact .inr ⟨field, List.mem_cons_self .., h⟩
      · exact .inl h
      · rcases ih h with hc | ⟨f, hf, hc⟩
        · exact .inl hc
        · exact .inr ⟨f, List.mem_cons_of_mem _ hf, hc⟩

theorem Clean.isBlank_eq_false {r : List String} (h : Clean r) {c : Char} (hc : c ∈ lineOf r) :
    isBlank c = false := by
  rcases mem_lineOf hc with rfl | ⟨field, hfield, hc⟩
  · decide
  · exact (h.2 field hfield c hc).2

/-- The fields of a clean record are read back. -/
theorem Clean.recordFields_lineOf {r : List String} (h : Clean r) :
    recordFields (lineOf r) = r.map String.toList := by
  have hcut : fields ',' (lineOf r) = r.map String.toList := by
    refine fields_intercalate ?_ ?_
    · simpa using h.1
    · intro f hf hc
      obtain ⟨field, hfield, rfl⟩ := List.mem_map.1 hf
      exact (h.2 field hfield ',' hc).1 rfl
  rw [recordFields, trim_of_forall fun c hc => h.isBlank_eq_false hc, hcut, List.map_map]
  refine List.map_congr_left ?_
  intro field hfield
  exact trim_of_forall fun c hc => (h.2 field hfield c hc).2

/-- The reading takes the given written records, whatever stands behind them, and yields `x`. -/
structure Takes (m : Reading α β) (rs : List (List String)) (x : β) : Prop where
  clean : ∀ r ∈ rs, Clean r
  reads : ∀ line rest, Reads m ⟨line, rs.map lineOf ++ rest⟩ x ⟨line + rs.length, rest⟩

theorem takes_pure : Takes (pure x : Reading α β) [] x where
  clean := by simp
  reads _ _ := reads_pure.2 ⟨rfl, rfl⟩

/-- One reading takes records, the next one those behind them. -/
theorem Takes.bind {m : Reading α β} {f : β → Reading α γ} {rs rs' : List (List String)} {y : γ}
    (hm : Takes m rs x) (hf : Takes (f x) rs' y) : Takes (m >>= f) (rs ++ rs') y where
  clean := List.forall_mem_append.2 ⟨hm.clean, hf.clean⟩
  reads line rest := by
    refine reads_bind.2 ⟨x, ⟨line + rs.length, rs'.map lineOf ++ rest⟩, ?_, ?_⟩
    · rw [List.map_append, List.append_assoc]
      exact hm.reads line _
    · rw [List.length_append, ← Nat.add_assoc]
      exact hf.reads (line + rs.length) rest

/-- What is computed from what was read takes no further record. -/
theorem Takes.bind_pure {m : Reading α β} {g : β → γ} {rs : List (List String)}
    (hm : Takes m rs x) : Takes (m >>= fun y => pure (g y)) rs (g x) := by
  have h : Takes (m >>= fun y => pure (g y)) (rs ++ []) (g x) := hm.bind takes_pure
  rwa [List.append_nil] at h

theorem Takes.of_field {m : Reading α β} {f : β → Reading α γ} {rs : List (List String)} {y : γ}
    (hm : Takes m [] x) (hf : Takes (f x) rs y) : Takes (m >>= f) rs y :=
  hm.bind hf

/-- A clean record is taken as its fields. -/
theorem takes_nextRecord {r : List String} (h : Clean r) :
    Takes (nextRecord item : Reading α _) [r] (r.map String.toList) where
  clean := List.forall_mem_singleton.2 h
  reads _ rest :=
    reads_nextRecord.2 ⟨lineOf r, rest, rfl, rfl, h.recordFields_lineOf.symm⟩

theorem Takes.of_record {f : List (List Char) → Reading α γ} {r : List String}
    {rs : List (List String)} {y : γ} (h : Clean r)
    (hf : Takes (f (r.map String.toList)) rs y) : Takes (nextRecord item >>= f) (r :: rs) y :=
  (takes_nextRecord h).bind hf

theorem takes_readField {read : List Char → Except NumeralError β} {field : List Char}
    (h : read field = .ok x) : Takes (readField item read field : Reading α β) [] x where
  clean := by simp
  reads _ _ := reads_readField.2 ⟨h, rfl⟩

theorem takes_readIndex {n : Nat} (h : n ≤ indexLimit) :
    Takes (readIndex item (toString n).toList : Reading α Nat) [] n :=
  takes_readField (readNat_toString h)

theorem takes_readScalar [BEq α] [Numeral α] [LawfulNumeral α] {y : α} (h : (y == y) = true) :
    Takes (readScalar item (Numeral.write y).toList : Reading α α) [] y :=
  takes_readField (LawfulNumeral.read_write y h)

/-- Records that are written on a line each are the lines of the text. -/
theorem ofText_join {rs : List (List String)} (h : ∀ r ∈ rs, Clean r) :
    Records.ofText (String.join (rs.map fun r => ",".intercalate r ++ "\n")).toList =
      { ahead := rs.map lineOf } := by
  have hline : ∀ r : List String,
      (",".intercalate r ++ "\n").toList = lineOf r ++ ['\n'] := by
    intro r
    rw [String.toList_append, String.toList_intercalate]
    rfl
  have htext : (String.join (rs.map fun r => ",".intercalate r ++ "\n")).toList =
      (rs.map lineOf).flatMap (· ++ ['\n']) := by
    simp only [String.toList_join, List.flatMap_map, hline]
  rw [htext, Records.ofText, lines_flatMap]
  intro l hl
  obtain ⟨r, hr, rfl⟩ := List.mem_map.1 hl
  refine ⟨?_, ?_⟩
  · intro hc
    exact absurd ((h r hr).isBlank_eq_false hc) (by decide)
  · intro hc
    exact absurd ((h r hr).isBlank_eq_false hc) (by decide)

end IpqFile

end PiecewiseNet
