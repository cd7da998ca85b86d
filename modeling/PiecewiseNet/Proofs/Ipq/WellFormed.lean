import PiecewiseNet.Proofs.Ipq.Reading
import PiecewiseNet.Proofs.Maps

/-!
# Well-formed query files

The reader checks what it reads: every file that it returns has inputs and outputs among its
variables, no variable on both sides, and no greatest value over nothing. Its counts and variables
are indices, since each was read as one or counts what was read.

## Main definitions

- `IpqFile.counts`, `IpqFile.mentioned`, `IpqFile.numbers`: what a file counts and names.
- `IpqFile.Indexed`, `IpqFile.WellFormed`, `IpqFile.Definite`: conditions on files.

## Main statements

- `IpqFile.wellFormed_of_reads_readFile`: what is read is well-formed.
-/

namespace PiecewiseNet

open Text

variable {α : Type}

/-- The variables that a constraint is about. -/
def IpqConstraint.variables : IpqConstraint → List Nat
  | relu f b => [f, b]
  | abs f b => [f, b]
  | max f inputs => f :: inputs

namespace IpqFile

/-- The numbers at the head of a file, and that of its outputs. -/
def counts (f : IpqFile α) : List Nat :=
  [f.variableCount, f.lowerBounds.size, f.upperBounds.size, f.equations.length,
    f.constraints.length, f.inputs.length, f.outputs.length]

/-- All variables that a file names. -/
def mentioned (f : IpqFile α) : List Nat :=
  f.inputs ++ f.outputs ++
    f.lowerBounds.entries.map Prod.fst ++ f.upperBounds.entries.map Prod.fst ++
    f.equations.flatMap (fun e => e.addends.map Prod.fst) ++
    f.constraints.flatMap IpqConstraint.variables

/-- All scalars of a file. -/
def numbers (f : IpqFile α) : List α :=
  f.lowerBounds.entries.map Prod.snd ++ f.upperBounds.entries.map Prod.snd ++
    f.equations.flatMap fun e => e.scalar :: e.addends.map Prod.snd

/-- Every count and every variable of the file is an index. -/
structure Indexed (f : IpqFile α) : Prop where
  counts : ∀ n ∈ f.counts, n ≤ indexLimit
  mentioned : ∀ v ∈ f.mentioned, v ≤ indexLimit

/-- The inputs and the outputs are distinct variables of the file, and every greatest value is that
of some variables. -/
structure WellFormed (f : IpqFile α) : Prop where
  inputs : ∀ v ∈ f.inputs, v < f.variableCount
  outputs : ∀ v ∈ f.outputs, v < f.variableCount
  disjoint : ∀ v ∈ f.outputs, v ∉ f.inputs
  max : ∀ g inputs, .max g inputs ∈ f.constraints → inputs ≠ []

/-- Every scalar of the file equals itself. -/
def Definite [BEq α] (f : IpqFile α) : Prop :=
  ∀ x ∈ f.numbers, (x == x) = true

/-! ## What is read -/

variable {s s' : Records} {item : IpqItem}

theorem le_limit_of_reads_readIndex {field : List Char} {n : Nat}
    (h : Reads (readIndex item field : Reading α Nat) s n s') : n ≤ indexLimit :=
  le_limit_of_readNat (reads_readField.1 h).1

theorem le_limit_of_reads_readCount {n : Nat}
    (h : Reads (readCount item : Reading α Nat) s n s') : n ≤ indexLimit := by
  obtain ⟨record, t, -, h⟩ := reads_bind.1 h
  exact le_limit_of_reads_readIndex h

/-- As many variables are read as were asked for, and each is below the number of variables. -/
theorem of_reads_readVariables {variableCount count i : Nat} {vs : List Nat}
    (h : Reads (readVariables item variableCount count i : Reading α _) s vs s') :
    vs.length = count ∧ ∀ v ∈ vs, v < variableCount := by
  induction count generalizing i s vs s' with
  | zero =>
    obtain ⟨rfl, -⟩ := reads_pure.1 h
    exact ⟨rfl, by simp⟩
  | succ count ih =>
    obtain ⟨record, t, -, h⟩ := reads_bind.1 h
    split at h
    · obtain ⟨index, t, -, h⟩ := reads_bind.1 h
      split at h
      · exact absurd h not_reads_fault
      · obtain ⟨var, t, -, h⟩ := reads_bind.1 h
        split at h
        · exact absurd h not_reads_fault
        · rename_i hvar
          obtain ⟨rest, t, hrest, h⟩ := reads_bind.1 h
          obtain ⟨rfl, -⟩ := reads_pure.1 h
          obtain ⟨hlen, hlt⟩ := ih hrest
          exact ⟨by rw [List.length_cons, hlen],
            List.forall_mem_cons.2 ⟨Nat.lt_of_not_le hvar, hlt⟩⟩
    · exact absurd h not_reads_fault

/-- As many bounds are added as were asked for, each for a variable without one. -/
theorem of_reads_readBounds [Numeral α] {count : Nat} {m m' : VarMap α}
    (h : Reads (readBounds item count m) s m' s') :
    m'.size = m.size + count ∧
      ((∀ k ∈ m.entries.map Prod.fst, k ≤ indexLimit) →
        ∀ k ∈ m'.entries.map Prod.fst, k ≤ indexLimit) := by
  induction count generalizing m s with
  | zero =>
    obtain ⟨rfl, -⟩ := reads_pure.1 h
    exact ⟨rfl, id⟩
  | succ count ih =>
    obtain ⟨record, t, -, h⟩ := reads_bind.1 h
    split at h
    · obtain ⟨var, t, hvar, h⟩ := reads_bind.1 h
      obtain ⟨value, t, -, h⟩ := reads_bind.1 h
      split at h
      · exact absurd h not_reads_fault
      · rename_i hnew
        obtain ⟨hsize, hkeys⟩ := ih h
        refine ⟨?_, ?_⟩
        · rw [hsize, OrderedMap.size_insert_of_not_contains (by simpa using hnew)]
          omega
        · intro hm
          refine hkeys ?_
          intro k hk
          rcases OrderedMap.mem_keys_place.1 hk with rfl | hk
          · exact le_limit_of_reads_readIndex hvar
          · exact hm k hk
    · exact absurd h not_reads_fault

theorem of_reads_readAddends [Numeral α] {fields : List (List Char)} {addends : List (Nat × α)}
    (h : Reads (readAddends fields) s addends s') : ∀ a ∈ addends, a.1 ≤ indexLimit := by
  induction fields using readAddends.induct generalizing s addends s' with
  | case1 var coefficient rest ih =>
    obtain ⟨v, t, hv, h⟩ := reads_bind.1 h
    obtain ⟨c, t, -, h⟩ := reads_bind.1 h
    obtain ⟨more, t, hmore, h⟩ := reads_bind.1 h
    obtain ⟨rfl, -⟩ := reads_pure.1 h
    exact List.forall_mem_cons.2 ⟨le_limit_of_reads_readIndex hv, ih hmore⟩
  | case2 fields hfields =>
    rw [readAddends.eq_2 fields hfields] at h
    obtain ⟨rfl, -⟩ := reads_pure.1 h
    simp

theorem of_reads_readEquation [Numeral α] {i : Nat} {e : IpqEquation α}
    (h : Reads (readEquation i) s e s') : ∀ a ∈ e.addends, a.1 ≤ indexLimit := by
  obtain ⟨record, t, -, h⟩ := reads_bind.1 h
  split at h
  · split at h
    · exact absurd h not_reads_fault
    · obtain ⟨id, t, -, h⟩ := reads_bind.1 h
      split at h
      · exact absurd h not_reads_fault
      · obtain ⟨code, t, -, h⟩ := reads_bind.1 h
        split at h
        · exact absurd h not_reads_fault
        · obtain ⟨scalar, t, -, h⟩ := reads_bind.1 h
          obtain ⟨addends, t, haddends, h⟩ := reads_bind.1 h
          obtain ⟨rfl, -⟩ := reads_pure.1 h
          exact of_reads_readAddends haddends
  · exact absurd h not_reads_fault

/-- As many equations are read as were asked for, over indices. -/
theorem of_reads_readEquations [Numeral α] {count i : Nat} {es : List (IpqEquation α)}
    (h : Reads (readEquations count i) s es s') :
    es.length = count ∧ ∀ e ∈ es, ∀ a ∈ e.addends, a.1 ≤ indexLimit := by
  induction count generalizing i s es s' with
  | zero =>
    obtain ⟨rfl, -⟩ := reads_pure.1 h
    exact ⟨rfl, by simp⟩
  | succ count ih =>
    obtain ⟨e, t, he, h⟩ := reads_bind.1 h
    obtain ⟨rest, t, hrest, h⟩ := reads_bind.1 h
    obtain ⟨rfl, -⟩ := reads_pure.1 h
    obtain ⟨hlen, hlt⟩ := ih hrest
    exact ⟨by rw [List.length_cons, hlen],
      List.forall_mem_cons.2 ⟨of_reads_readEquation he, hlt⟩⟩

theorem of_reads_readIndices {fields : List (List Char)} {vs : List Nat}
    (h : Reads (readIndices fields : Reading α _) s vs s') :
    vs.length = fields.length ∧ ∀ v ∈ vs, v ≤ indexLimit := by
  induction fields generalizing s vs s' with
  | nil =>
    obtain ⟨rfl, -⟩ := reads_pure.1 h
    exact ⟨rfl, by simp⟩
  | cons field fields ih =>
    obtain ⟨v, t, hv, h⟩ := reads_bind.1 h
    obtain ⟨rest, t, hrest, h⟩ := reads_bind.1 h
    obtain ⟨rfl, -⟩ := reads_pure.1 h
    obtain ⟨hlen, hlt⟩ := ih hrest
    exact ⟨by rw [List.length_cons, List.length_cons, hlen],
      List.forall_mem_cons.2 ⟨le_limit_of_reads_readIndex hv, hlt⟩⟩

theorem of_reads_readPartner {fields : List (List Char)} {b : Nat}
    (h : Reads (readPartner fields : Reading α _) s b s') : b ≤ indexLimit := by
  unfold readPartner at h
  split at h
  · exact le_limit_of_reads_readIndex h
  · exact absurd h not_reads_fault

/-- A constraint that is read is over indices, and a greatest value over at least one. -/
theorem of_reads_readConstraint {i : Nat} {c : IpqConstraint}
    (h : Reads (readConstraint i : Reading α _) s c s') :
    (∀ v ∈ c.variables, v ≤ indexLimit) ∧ ∀ g inputs, c = .max g inputs → inputs ≠ [] := by
  obtain ⟨record, t, -, h⟩ := reads_bind.1 h
  split at h
  · obtain ⟨id, t, -, h⟩ := reads_bind.1 h
    split at h
    · exact absurd h not_reads_fault
    · obtain ⟨f, t, hf, h⟩ := reads_bind.1 h
      have hf := le_limit_of_reads_readIndex hf
      split at h
      · obtain ⟨b, t, hb, h⟩ := reads_bind.1 h
        obtain ⟨rfl, -⟩ := reads_pure.1 h
        exact ⟨by simp [IpqConstraint.variables, hf, of_reads_readPartner hb], by simp⟩
      · split at h
        · obtain ⟨b, t, hb, h⟩ := reads_bind.1 h
          obtain ⟨rfl, -⟩ := reads_pure.1 h
          exact ⟨by simp [IpqConstraint.variables, hf, of_reads_readPartner hb], by simp⟩
        · split at h
          · obtain ⟨inputs, t, hinputs, h⟩ := reads_bind.1 h
            obtain ⟨rfl, -⟩ := reads_pure.1 h
            obtain ⟨hlen, hlt⟩ := of_reads_readIndices hinputs
            refine ⟨List.forall_mem_cons.2 ⟨hf, hlt⟩, ?_⟩
            rintro g inputs' heq rfl
            cases heq
            simp at hlen
          · exact absurd h not_reads_throw
  · exact absurd h not_reads_fault

theorem of_reads_readConstraints {count i : Nat} {cs : List IpqConstraint}
    (h : Reads (readConstraints count i : Reading α _) s cs s') :
    cs.length = count ∧ (∀ c ∈ cs, ∀ v ∈ c.variables, v ≤ indexLimit) ∧
      ∀ g inputs, .max g inputs ∈ cs → inputs ≠ [] := by
  induction count generalizing i s cs s' with
  | zero =>
    obtain ⟨rfl, -⟩ := reads_pure.1 h
    exact ⟨rfl, by simp, by simp⟩
  | succ count ih =>
    obtain ⟨c, t, hc, h⟩ := reads_bind.1 h
    obtain ⟨rest, t, hrest, h⟩ := reads_bind.1 h
    obtain ⟨rfl, -⟩ := reads_pure.1 h
    obtain ⟨hvars, hmax⟩ := of_reads_readConstraint hc
    obtain ⟨hlen, hrestVars, hrestMax⟩ := ih hrest
    refine ⟨by rw [List.length_cons, hlen], List.forall_mem_cons.2 ⟨hvars, hrestVars⟩, ?_⟩
    intro g inputs hmem
    rcases List.mem_cons.1 hmem with heq | hmem
    · exact hmax g inputs heq.symm
    · exact hrestMax g inputs hmem

/-- What is read is well-formed, and its counts and variables are indices. -/
theorem wellFormed_of_reads_readFile [Numeral α] {f : IpqFile α} (h : Reads readFile s f s') :
    f.Indexed ∧ f.WellFormed := by
  obtain ⟨variableCount, _, hvariables, h⟩ := reads_bind.1 h
  obtain ⟨lowerCount, _, hlowers, h⟩ := reads_bind.1 h
  obtain ⟨upperCount, _, huppers, h⟩ := reads_bind.1 h
  obtain ⟨equationCount, _, hequations, h⟩ := reads_bind.1 h
  obtain ⟨constraintCount, _, hconstraints, h⟩ := reads_bind.1 h
  obtain ⟨inputCount, _, hinputCount, h⟩ := reads_bind.1 h
  obtain ⟨inputs, _, hinputs, h⟩ := reads_bind.1 h
  obtain ⟨outputCount, _, houtputCount, h⟩ := reads_bind.1 h
  obtain ⟨outputs, _, houtputs, h⟩ := reads_bind.1 h
  split at h
  · exact absurd h not_reads_fault
  · rename_i hdisjoint
    obtain ⟨lowerBounds, _, hlower, h⟩ := reads_bind.1 h
    obtain ⟨upperBounds, _, hupper, h⟩ := reads_bind.1 h
    obtain ⟨equations, _, heqs, h⟩ := reads_bind.1 h
    obtain ⟨constraints, _, hcons, h⟩ := reads_bind.1 h
    obtain ⟨rfl, -⟩ := reads_pure.1 h
    have hlimit := le_limit_of_reads_readCount hvariables
    obtain ⟨hinputsLen, hinputsLt⟩ := of_reads_readVariables hinputs
    obtain ⟨houtputsLen, houtputsLt⟩ := of_reads_readVariables houtputs
    obtain ⟨hlowerSize, hlowerKeys⟩ := of_reads_readBounds hlower
    obtain ⟨hupperSize, hupperKeys⟩ := of_reads_readBounds hupper
    obtain ⟨heqsLen, heqsVars⟩ := of_reads_readEquations heqs
    obtain ⟨hconsLen, hconsVars, hmax⟩ := of_reads_readConstraints hcons
    have hzero : (OrderedMap.empty : VarMap α).size = 0 := rfl
    rw [hzero, Nat.zero_add] at hlowerSize hupperSize
    refine ⟨⟨?_, ?_⟩, hinputsLt, houtputsLt, ?_, hmax⟩
    · simp only [counts, List.forall_mem_cons, hlowerSize, hupperSize, heqsLen, hconsLen,
        hinputsLen, houtputsLen]
      exact ⟨hlimit, le_limit_of_reads_readCount hlowers, le_limit_of_reads_readCount huppers,
        le_limit_of_reads_readCount hequations, le_limit_of_reads_readCount hconstraints,
        le_limit_of_reads_readCount hinputCount, le_limit_of_reads_readCount houtputCount, by simp⟩
    · simp only [mentioned, List.forall_mem_append, List.mem_flatMap, forall_exists_index, and_imp,
        List.mem_map]
      refine ⟨⟨⟨⟨⟨?_, ?_⟩, ?_⟩, ?_⟩, ?_⟩, ?_⟩
      · exact fun v hv => Nat.le_of_lt (Nat.lt_of_lt_of_le (hinputsLt v hv) hlimit)
      · exact fun v hv => Nat.le_of_lt (Nat.lt_of_lt_of_le (houtputsLt v hv) hlimit)
      · rintro v e he rfl
        exact hlowerKeys (by simp [OrderedMap.empty]) e.1 (List.mem_map_of_mem he)
      · rintro v e he rfl
        exact hupperKeys (by simp [OrderedMap.empty]) e.1 (List.mem_map_of_mem he)
      · rintro v e he a ha rfl
        exact heqsVars e he a ha
      · exact fun v c hc hv => hconsVars c hc v hv
    · intro v hv hin
      have := List.find?_eq_none.1 hdisjoint v hv
      simp [hin] at this

end IpqFile

end PiecewiseNet
