import PiecewiseNet.Proofs.Ipq.WellFormed

/-!
# Reading back what was written

Each section of a query file is written as its own records, and the reader of that section takes
exactly these records, whatever stands behind them. So the reader of the whole file takes all
records of a written file and gives the file back.

## Main statements

- `IpqFile.takes_readVariables`, `IpqFile.takes_readBounds`, `IpqFile.takes_readEquations`,
  `IpqFile.takes_readConstraints`: one section each.
- `IpqFile.takes_readFile`: the records of a file are read as that file.
- `IpqFile.parse_undoes_text`: reading undoes writing, for all files that can be read.
-/

namespace PiecewiseNet

open Text

variable {α : Type}

namespace IpqFile

/-! ## Written fields -/

theorem forall_isPlain_toString (n : Nat) : ∀ c ∈ (toString n).toList, IsPlain c :=
  fun _ hc => isPlain_of_mem_toString hc

theorem forall_isPlain_of_all {s : String} (h : s.toList.all (fun c => decide (IsPlain c)) = true) :
    ∀ c ∈ s.toList, IsPlain c :=
  fun c hc => of_decide_eq_true (List.all_eq_true.1 h c hc)

/-- A record that starts with a number is clean if its other fields are. -/
theorem clean_cons_toString {n : Nat} {r : List String}
    (h : ∀ field ∈ r, ∀ c ∈ field.toList, IsPlain c) : Clean (toString n :: r) :=
  ⟨List.cons_ne_nil _ _, List.forall_mem_cons.2 ⟨forall_isPlain_toString n, h⟩⟩

/-- The numbering of the elements of a list goes on behind its first element. -/
theorem mapIdx_add_cons {β γ : Type} (g : Nat → β → γ) (i : Nat) (x : β) (xs : List β) :
    (x :: xs).mapIdx (fun k => g (i + k)) = g i x :: xs.mapIdx fun k => g (i + 1 + k) := by
  rw [List.mapIdx_cons, Nat.add_zero]
  simp only [Nat.add_assoc, Nat.add_comm 1]

/-! ## Counts and variables -/

theorem takes_readCount {item : IpqItem} {n : Nat} (h : n ≤ indexLimit) :
    Takes (readCount item : Reading α Nat) [[toString n]] n :=
  Takes.of_record (clean_cons_toString (by simp)) (takes_readIndex h)

theorem takes_readVariables {item : IpqItem} {variableCount i : Nat} {vs : List Nat}
    (hcount : variableCount ≤ indexLimit) (hlt : ∀ v ∈ vs, v < variableCount)
    (hi : i + vs.length ≤ indexLimit) :
    Takes (readVariables item variableCount vs.length i : Reading α _)
      (vs.mapIdx fun k => indexedRecord (i + k)) vs := by
  induction vs generalizing i with
  | nil => exact takes_pure
  | cons v vs ih =>
    rw [List.forall_mem_cons] at hlt
    rw [List.length_cons] at hi
    rw [mapIdx_add_cons]
    refine Takes.of_record (clean_cons_toString (by simpa using forall_isPlain_toString v)) ?_
    refine Takes.of_field (takes_readIndex (by omega)) ?_
    rw [if_neg (not_not.2 rfl)]
    refine Takes.of_field (takes_readIndex (by omega)) ?_
    rw [if_neg (Nat.not_le.2 hlt.1)]
    exact (ih hlt.2 (by omega)).bind_pure

/-! ## Bounds -/

section

variable [BEq α] [Numeral α] [LawfulNumeral α]

/-- The bounds of a section are read back: every one comes behind those read before. -/
theorem takes_readBounds {item : IpqItem} {es : List (Nat × α)} {m n : VarMap α}
    (hn : n.entries = m.entries ++ es) (hkeys : ∀ e ∈ es, e.1 ≤ indexLimit)
    (hvalues : ∀ e ∈ es, (e.2 == e.2) = true) :
    Takes (readBounds item es.length m) (es.map boundRecord) n := by
  induction es generalizing m with
  | nil =>
    rw [List.append_nil] at hn
    rw [VarMap.ext_entries hn]
    exact takes_pure
  | cons e es ih =>
    rw [List.forall_mem_cons] at hkeys hvalues
    -- The keys of the section ascend, so its next key is new and goes to the end of the map.
    have hbehind : ∀ k ∈ m.entries.map Prod.fst, k < e.1 := by
      intro k hk
      have hasc := n.ascending
      rw [hn, List.map_append, List.pairwise_append] at hasc
      simpa [Key.before] using hasc.2.2 k hk e.1 (by simp)
    have hnew : ¬m.contains e.1 = true := by
      rw [OrderedMap.contains_eq_true_iff]
      exact fun hmem => Nat.lt_irrefl _ (hbehind e.1 hmem)
    refine Takes.of_record (clean_cons_toString ?_) ?_
    · simpa using LawfulNumeral.isPlain e.2 hvalues.1
    refine Takes.of_field (takes_readIndex hkeys.1) ?_
    refine Takes.of_field (takes_readScalar hvalues.1) ?_
    rw [if_neg hnew]
    refine ih ?_ hkeys.2 hvalues.2
    rw [VarMap.entries_insert_of_forall_lt hbehind, hn, List.append_assoc]
    rfl

/-! ## Equations -/

theorem takes_readAddends {addends : List (Nat × α)} (hvars : ∀ a ∈ addends, a.1 ≤ indexLimit)
    (hvalues : ∀ a ∈ addends, (a.2 == a.2) = true) :
    Takes (readAddends
      ((addends.flatMap fun a => [toString a.1, Numeral.write a.2]).map String.toList))
      [] addends := by
  induction addends with
  | nil => exact takes_pure
  | cons a addends ih =>
    rw [List.forall_mem_cons] at hvars hvalues
    refine Takes.of_field (takes_readIndex hvars.1) ?_
    refine Takes.of_field (takes_readScalar hvalues.1) ?_
    exact (ih hvars.2 hvalues.2).bind_pure

theorem ofCode?_code (c : Comparator) : Comparator.ofCode? c.code = some c := by
  cases c <;> rfl

theorem code_le (c : Comparator) : c.code ≤ byteLimit := by
  cases c <;> decide

/-- A numbered equation is read back. -/
theorem takes_readEquation {e : IpqEquation α} {i : Nat} (hi : i ≤ indexLimit)
    (hscalar : (e.scalar == e.scalar) = true) (hvars : ∀ a ∈ e.addends, a.1 ≤ indexLimit)
    (hvalues : ∀ a ∈ e.addends, (a.2 == a.2) = true) :
    Takes (readEquation i) [e.record i] e := by
  have heven : (List.map String.toList
      (e.addends.flatMap fun a => [toString a.1, Numeral.write a.2])).length % 2 = 0 := by
    simp [List.length_flatMap]
  have hrecord : e.record i = toString i :: toString e.comparator.code :: Numeral.write e.scalar ::
      e.addends.flatMap fun a => [toString a.1, Numeral.write a.2] := rfl
  rw [hrecord]
  refine Takes.of_record (clean_cons_toString ?_) ?_
  · refine List.forall_mem_cons.2 ⟨forall_isPlain_toString _, ?_⟩
    refine List.forall_mem_cons.2 ⟨LawfulNumeral.isPlain e.scalar hscalar, ?_⟩
    intro field hfield
    obtain ⟨a, ha, hfield⟩ := List.mem_flatMap.1 hfield
    rcases List.mem_pair.1 hfield with rfl | rfl
    · exact forall_isPlain_toString a.1
    · exact LawfulNumeral.isPlain a.2 (hvalues a ha)
  show Takes (if _ then _ else _) [] e
  rw [if_neg (not_not.2 heven)]
  refine Takes.of_field (takes_readIndex hi) ?_
  rw [if_neg (not_not.2 rfl)]
  refine Takes.of_field (takes_readField (readNat_toString (code_le e.comparator))) ?_
  rw [ofCode?_code]
  refine Takes.of_field (takes_readScalar hscalar) ?_
  exact (takes_readAddends hvars hvalues).bind_pure

theorem takes_readEquations {es : List (IpqEquation α)} {i : Nat}
    (hi : i + es.length ≤ indexLimit) (hscalar : ∀ e ∈ es, (e.scalar == e.scalar) = true)
    (hvars : ∀ e ∈ es, ∀ a ∈ e.addends, a.1 ≤ indexLimit)
    (hvalues : ∀ e ∈ es, ∀ a ∈ e.addends, (a.2 == a.2) = true) :
    Takes (readEquations es.length i) (es.mapIdx fun k => IpqEquation.record (i + k)) es := by
  induction es generalizing i with
  | nil => exact takes_pure
  | cons e es ih =>
    rw [List.forall_mem_cons] at hscalar hvars hvalues
    rw [List.length_cons] at hi
    rw [mapIdx_add_cons]
    refine (takes_readEquation (by omega) hscalar.1 hvars.1 hvalues.1).bind ?_
    exact (ih (by omega) hscalar.2 hvars.2 hvalues.2).bind_pure

end

/-! ## Constraints -/

theorem takes_readIndices {vs : List Nat} (h : ∀ v ∈ vs, v ≤ indexLimit) :
    Takes (readIndices ((vs.map toString).map String.toList) : Reading α _) [] vs := by
  induction vs with
  | nil => exact takes_pure
  | cons v vs ih =>
    rw [List.forall_mem_cons] at h
    refine Takes.of_field (takes_readIndex h.1) ?_
    exact (ih h.2).bind_pure

theorem clean_pair {i f b : Nat} {kind : String} (h : ∀ c ∈ kind.toList, IsPlain c) :
    Clean [toString i, kind, toString f, toString b] := by
  refine clean_cons_toString (List.forall_mem_cons.2 ⟨h, ?_⟩)
  refine List.forall_mem_cons.2 ⟨forall_isPlain_toString f, ?_⟩
  exact List.forall_mem_singleton.2 (forall_isPlain_toString b)

/-- A numbered constraint is read back, unless it is the greatest value of nothing. -/
theorem takes_readConstraint {c : IpqConstraint} {i : Nat} (hi : i ≤ indexLimit)
    (hvars : ∀ v ∈ c.variables, v ≤ indexLimit) (hmax : ∀ g, c ≠ .max g []) :
    Takes (readConstraint i : Reading α _) [c.record i] c := by
  cases c with
  | relu f b =>
    simp only [IpqConstraint.variables, List.forall_mem_cons] at hvars
    refine Takes.of_record (clean_pair (forall_isPlain_of_all (by decide))) ?_
    refine Takes.of_field (takes_readIndex hi) ?_
    rw [if_neg (not_not.2 rfl)]
    refine Takes.of_field (takes_readIndex hvars.1) ?_
    rw [if_pos rfl]
    exact Takes.bind_pure (takes_readIndex hvars.2.1)
  | abs f b =>
    simp only [IpqConstraint.variables, List.forall_mem_cons] at hvars
    refine Takes.of_record (clean_pair (forall_isPlain_of_all (by decide))) ?_
    refine Takes.of_field (takes_readIndex hi) ?_
    rw [if_neg (not_not.2 rfl)]
    refine Takes.of_field (takes_readIndex hvars.1) ?_
    rw [if_neg (by decide), if_pos rfl]
    exact Takes.bind_pure (takes_readIndex hvars.2.1)
  | max f inputs =>
    rw [IpqConstraint.variables, List.forall_mem_cons] at hvars
    cases inputs with
    | nil => exact absurd rfl (hmax f)
    | cons v vs =>
      refine Takes.of_record (clean_cons_toString ?_) ?_
      · refine List.forall_mem_cons.2 ⟨forall_isPlain_of_all (by decide), ?_⟩
        refine List.forall_mem_cons.2 ⟨forall_isPlain_toString f, ?_⟩
        intro field hfield
        obtain ⟨w, -, rfl⟩ := List.mem_map.1 hfield
        exact forall_isPlain_toString w
      refine Takes.of_field (takes_readIndex hi) ?_
      rw [if_neg (not_not.2 rfl)]
      refine Takes.of_field (takes_readIndex hvars.1) ?_
      rw [if_neg (by decide), if_neg (by decide), if_pos rfl]
      exact Takes.bind_pure (takes_readIndices hvars.2)

theorem takes_readConstraints {cs : List IpqConstraint} {i : Nat}
    (hi : i + cs.length ≤ indexLimit) (hvars : ∀ c ∈ cs, ∀ v ∈ c.variables, v ≤ indexLimit)
    (hmax : ∀ c ∈ cs, ∀ g, c ≠ .max g []) :
    Takes (readConstraints cs.length i : Reading α _)
      (cs.mapIdx fun k => IpqConstraint.record (i + k)) cs := by
  induction cs generalizing i with
  | nil => exact takes_pure
  | cons c cs ih =>
    rw [List.forall_mem_cons] at hvars hmax
    rw [List.length_cons] at hi
    rw [mapIdx_add_cons]
    refine (takes_readConstraint (by omega) hvars.1 hmax.1).bind ?_
    exact (ih (by omega) hvars.2 hmax.2).bind_pure

/-! ## Files -/

section

variable [BEq α] [Numeral α] [LawfulNumeral α]

/-- The records of a file are read as that file. -/
theorem takes_readFile {f : IpqFile α} (hindexed : f.Indexed) (hwf : f.WellFormed)
    (hdef : f.Definite) : Takes readFile f.records f := by
  have hcounts := hindexed.counts
  have hmentioned := hindexed.mentioned
  simp only [counts, List.forall_mem_cons] at hcounts
  simp only [mentioned, List.forall_mem_append, List.forall_mem_map, List.mem_flatMap,
    forall_exists_index, and_imp] at hmentioned
  simp only [Definite, numbers, List.forall_mem_append, List.forall_mem_map, List.mem_flatMap,
    forall_exists_index, and_imp] at hdef
  obtain ⟨hvariable, hlower, hupper, hequation, hconstraint, hinput, houtput, -⟩ := hcounts
  obtain ⟨⟨⟨⟨⟨-, -⟩, hlowerVars⟩, hupperVars⟩, haddendVars⟩, hconstraintVars⟩ := hmentioned
  obtain ⟨⟨hlowerDef, hupperDef⟩, hequationDef⟩ := hdef
  have hdisjoint : f.outputs.find? f.inputs.contains = none := by
    rw [List.find?_eq_none]
    intro v hv hin
    exact hwf.disjoint v hv (List.contains_iff_mem.1 hin)
  have hrecords : f.records = [toString f.variableCount] :: [toString f.lowerBounds.size] ::
      [toString f.upperBounds.size] :: [toString f.equations.length] ::
      [toString f.constraints.length] :: [toString f.inputs.length] ::
      (f.inputs.mapIdx (fun k => indexedRecord (0 + k)) ++ ([toString f.outputs.length] ::
      (f.outputs.mapIdx (fun k => indexedRecord (0 + k)) ++
      (f.lowerBounds.entries.map boundRecord ++ (f.upperBounds.entries.map boundRecord ++
      (f.equations.mapIdx (fun k => IpqEquation.record (0 + k)) ++
      f.constraints.mapIdx fun k => IpqConstraint.record (0 + k))))))) := by
    simp [records]
  rw [hrecords]
  refine (takes_readCount hvariable).bind ((takes_readCount hlower).bind ?_)
  refine (takes_readCount hupper).bind ((takes_readCount hequation).bind ?_)
  refine (takes_readCount hconstraint).bind ((takes_readCount hinput).bind ?_)
  refine (takes_readVariables hvariable hwf.inputs (by omega)).bind ?_
  refine (takes_readCount houtput).bind ?_
  refine (takes_readVariables hvariable hwf.outputs (by omega)).bind ?_
  rw [hdisjoint]
  refine (takes_readBounds rfl hlowerVars hlowerDef).bind ?_
  refine (takes_readBounds rfl hupperVars hupperDef).bind ?_
  refine (takes_readEquations (by omega) ?_ ?_ ?_).bind ?_
  · exact fun e he => hequationDef _ e he (List.mem_cons_self ..)
  · exact fun e he a ha => haddendVars _ e he (List.mem_map_of_mem ha)
  · exact fun e he a ha =>
      hequationDef _ e he (List.mem_cons_of_mem _ (List.mem_map_of_mem ha))
  refine (takes_readConstraints (by omega) ?_ ?_).bind_pure
  · exact fun c hc v hv => hconstraintVars v c hc hv
  · rintro c hc g rfl
    exact hwf.max g [] hc rfl

/-- The text of a file is read as that file. -/
theorem parse_text_of_wellFormed {f : IpqFile α} (hindexed : f.Indexed) (hwf : f.WellFormed)
    (hdef : f.Definite) : parse f.text = .ok f := by
  have htakes := takes_readFile hindexed hwf hdef
  refine parse_eq_ok_iff.2 ⟨⟨f.records.length, []⟩, ?_⟩
  have hreads := htakes.reads 0 []
  rw [List.append_nil, Nat.zero_add] at hreads
  rw [text, ofText_join htakes.clean]
  exact hreads

omit [BEq α] [LawfulNumeral α] in
/-- A parsed file is well-formed, and its counts and variables are indices. -/
theorem wellFormed_of_parse {text : String} {f : IpqFile α} (h : parse text = .ok f) :
    f.Indexed ∧ f.WellFormed := by
  obtain ⟨s', h⟩ := parse_eq_ok_iff.1 h
  exact wellFormed_of_reads_readFile h

/-- Reading undoes writing. Every well-formed file without indefinite numbers is read back from its
text, with the lists in their order; every file that is read is well-formed; so a file that was read
from some text, without indefinite numbers, is read again from the text that is written for it. -/
theorem parse_undoes_text :
    (∀ f : IpqFile α, f.Indexed → f.WellFormed → f.Definite → parse f.text = .ok f) ∧
    (∀ (text : String) (f : IpqFile α), parse text = .ok f → f.Indexed ∧ f.WellFormed) ∧
    ∀ (text : String) (f : IpqFile α), parse text = .ok f → f.Definite → parse f.text = .ok f := by
  refine ⟨?_, ?_, ?_⟩
  · exact fun f hindexed hwf hdef => parse_text_of_wellFormed hindexed hwf hdef
  · exact fun text f h => wellFormed_of_parse h
  · intro text f h hdef
    obtain ⟨hindexed, hwf⟩ := wellFormed_of_parse h
    exact parse_text_of_wellFormed hindexed hwf hdef

end

/-- A file with a record of every kind. -/
def sampler : IpqFile Int where
  variableCount := 5
  inputs := [0, 3]
  outputs := [4, 2]
  lowerBounds := OrderedMap.ofList [(0, -1), (3, 0)]
  upperBounds := OrderedMap.ofList [(3, 2)]
  equations := [⟨.eq, 0, [(0, 2), (1, -1)]⟩, ⟨.ge, -7, [(4, 1)]⟩, ⟨.le, 3, []⟩]
  constraints := [.relu 2 1, .abs 4 3, .max 4 [2, 1]]

/-- The laws of numerals hold for integers, and the sampler is well-formed. -/
theorem parse_undoes_text_sampler :
    sampler.Indexed ∧ sampler.WellFormed ∧ sampler.Definite ∧
      parse sampler.text = .ok sampler := by
  have hindexed : sampler.Indexed := ⟨by decide, by decide⟩
  have hwf : sampler.WellFormed := by
    refine ⟨by decide, by decide, by decide, ?_⟩
    intro g inputs hmem
    simp only [sampler, List.mem_cons, reduceCtorEq, IpqConstraint.max.injEq, false_or,
      List.not_mem_nil, or_false] at hmem
    rw [hmem.2]
    exact List.cons_ne_nil _ _
  have hdef : sampler.Definite := fun _ _ => beq_self_eq_true _
  exact ⟨hindexed, hwf, hdef, parse_undoes_text.1 sampler hindexed hwf hdef⟩

end IpqFile

end PiecewiseNet
