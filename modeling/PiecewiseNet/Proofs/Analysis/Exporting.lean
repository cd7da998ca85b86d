import PiecewiseNet.Proofs.Analysis.Independence
import PiecewiseNet.Proofs.Ipq.Exporting

/-!
# Exporting the queries of a test

Every query that a redundancy test returns can be exported. Its scalars are those of the network,
the margin and constants, and its inputs and outputs are the two ends of networks of at least two
layers. So the file is read back from its text, unless an output that depends on no input has
coinciding bounds: the export lists such an output among the inputs, and the reader refuses the
file.

## Main definitions

- `Query.Exportable`: definite scalars, and no output among the inputs.

## Main statements

- `RedundancyTest.exportable_of_run`: every query that a test returns is exportable.
- `RedundancyTest.parse_export_iff`: which files are read back.
- `RedundancyTest.export_not_read_back`: a file that is not.
-/

namespace PiecewiseNet

open Text

variable {α : Type}

/-! ## Queries with definite scalars -/

/-- The scalars of the query equal themselves, and no output is an input. -/
structure Query.Exportable [BEq α] (q : Query α) (a : Arena α) : Prop where
  definite : q.Definite a
  disjoint : ∀ id ∈ q.outputs, id ∉ q.inputs

section

variable [Scalar α] [DefiniteSigns α] {margin : α}

theorem definite_exceeds (hmargin : (margin == margin) = true) (i j : NodeId) :
    (exceeds i j margin).Definite := by
  have hone : ((1 : α) == 1) = true := DefiniteSigns.one_beq
  simpa [Equation.Definite, Equation.numbers, exceeds, hmargin, hone] using
    DefiniteSigns.neg_beq _ hone

theorem definite_differs (hmargin : (margin == margin) = true) (d : Direction) (i j : NodeId) :
    (differs d i j margin).Definite := by
  have hone : ((1 : α) == 1) = true := DefiniteSigns.one_beq
  have hneg : ((-1 : α) == -1) = true := DefiniteSigns.neg_beq _ hone
  cases d with
  | gt => simp [Equation.Definite, Equation.numbers, differs, hmargin, hone, hneg]
  | lt =>
    simpa [Equation.Definite, Equation.numbers, differs, hmargin, hneg] using
      DefiniteSigns.neg_beq _ hneg

theorem definite_stateEquation (hmargin : (margin == margin) = true) (phase : Phase)
    (strict : Bool) (id : NodeId) : (stateEquation phase strict margin id).Definite := by
  have hone : ((1 : α) == 1) = true := DefiniteSigns.one_beq
  have hneg : (-margin == -margin) = true := DefiniteSigns.neg_beq _ hmargin
  cases phase <;> cases strict <;>
    simp [Equation.Definite, Equation.numbers, stateEquation, hmargin, hone, hneg]

end

namespace Network

variable {base altered net : Network} {a b : Arena α} {ov : Overrides} {q : Query α}

/-- A query over two exportable networks with the same inputs, which asks about outputs of both. -/
theorem exportable_of_parts [BEq α] (hbase : base.Exportable a) (haltered : altered.Exportable a)
    (hsame : altered.inputs = base.inputs) {boundary : Nat}
    (hnodes : q.nodes = (base.nodes ++ JoinedNetworks.tailNodes altered boundary).eraseDups)
    (hinputs : q.inputs = base.inputs)
    (houtputs : ∀ id ∈ q.outputs, id ∈ base.outputs ∨ id ∈ altered.outputs)
    (hequations : ∀ e ∈ q.equations, e.Definite) : q.Exportable a := by
  refine ⟨⟨?_, hequations⟩, ?_⟩
  · intro id hid
    rw [hnodes, List.mem_eraseDups, List.mem_append] at hid
    rcases hid with hid | hid
    · exact hbase.definite id hid
    · exact haltered.definite id (Replay.tailNodes_subset altered boundary hid)
  · intro id hid
    rw [hinputs]
    rcases houtputs id hid with hid | hid
    · exact hbase.not_mem_inputs hid
    · exact hsame ▸ haltered.not_mem_inputs hid

section

variable [Scalar α] [DefiniteSigns α] {margin : α} (hmargin : (margin == margin) = true)
  (hbase : base.Exportable a) (haltered : altered.Exportable a)

include hbase haltered

omit [DefiniteSigns α] in
theorem exportable_of_joinedQuery (h : (joinedQuery base altered ov).Yields a q b) :
    q.Exportable b := by
  obtain ⟨j, c, hj, h₁⟩ := Edit.yields_bind.1 h
  obtain ⟨q', d, hbuilt, h₂⟩ := Edit.yields_bind.1 h₁
  obtain ⟨hnew, rfl⟩ := Edit.yields_ofExcept.1 hbuilt
  obtain ⟨rfl, rfl, -⟩ := finished_yields.1 h₂
  obtain ⟨hnodes, hinputs, houtputs, hequations⟩ := Query.new_eq_ok hnew
  obtain ⟨hjbase, hjaltered, hsame⟩ := hbase.join haltered hj
  refine exportable_of_parts hjbase hjaltered hsame hnodes hinputs ?_ ?_
  · intro id hid
    exact List.mem_append.1 (houtputs ▸ hid)
  · rw [hequations]
    exact List.forall_mem_nil _

include hmargin

theorem exportable_of_compareExact {d : Direction} {i : Nat}
    (h : (compareExact base altered ov d i margin).Yields a q b) : q.Exportable b := by
  obtain ⟨j, part, kept, o, m, hj, hpart, hkept, ho, hm, hnodes, hinputs, houtputs, hequations⟩ :=
    compareExact_steps h
  obtain ⟨hjbase, hjaltered, hsame⟩ := hbase.join haltered hj
  obtain ⟨hpart, hpartInputs⟩ := hjbase.keepOutputs hpart
  obtain ⟨hkept, hkeptInputs⟩ := hjaltered.keepOutputs hkept
  refine exportable_of_parts hpart hkept ?_ hnodes hinputs ?_ ?_
  · rw [hkeptInputs, hpartInputs, hsame]
  · rw [houtputs, List.forall_mem_cons, List.forall_mem_singleton]
    exact ⟨.inl (mem_outputs_of_output hpart.layers_ne_nil ho),
      .inr (mem_outputs_of_output hkept.layers_ne_nil hm)⟩
  · rw [hequations, List.forall_mem_singleton]
    exact definite_differs hmargin d o m

theorem exportable_of_compareMinimum {i counter : Nat}
    (h : (compareMinimum base altered ov i counter margin).Yields a q b) : q.Exportable b := by
  obtain ⟨j, kept, winner, loser, rival, hj, hkept, -, hloser, hrival, hnodes, hinputs, houtputs,
    hequations⟩ := compareMinimum_steps h
  obtain ⟨hjbase, hjaltered, hsame⟩ := hbase.join haltered hj
  obtain ⟨hkept, hkeptInputs⟩ := hjaltered.keepOutputs hkept
  refine exportable_of_parts hjbase hkept ?_ hnodes hinputs ?_ ?_
  · rw [hkeptInputs, hsame]
  · rw [houtputs, List.forall_mem_append, List.forall_mem_cons, List.forall_mem_singleton]
    exact ⟨fun id hid => .inl hid, .inr (mem_outputs_of_output hkept.layers_ne_nil hloser),
      .inr (mem_outputs_of_output hkept.layers_ne_nil hrival)⟩
  · rw [hequations, List.forall_mem_append, List.forall_mem_singleton]
    refine ⟨?_, definite_exceeds hmargin rival loser⟩
    exact List.forall_mem_map.2 fun p _ => definite_exceeds hmargin winner p.1

omit haltered in
theorem exportable_of_stateCheck {i : Nat} {phase : Phase} {strict : Bool}
    (h : PiecewiseNet.stateCheck base i phase strict margin a = .ok q) : q.Exportable a := by
  obtain ⟨kept, id, hkept, hchain, hnodes, hinputs, houtputs, hequations⟩ := stateCheck_eq_ok h
  obtain ⟨hkept, -⟩ := hbase.keepOutputs hkept
  refine ⟨⟨?_, ?_⟩, ?_⟩
  · intro id hid
    exact hkept.definite id (List.mem_eraseDups.1 (hnodes ▸ hid))
  · rw [hequations, List.forall_mem_singleton]
    exact definite_stateEquation hmargin phase strict id
  · rw [hinputs, houtputs, List.forall_mem_singleton]
    exact hkept.not_mem_inputs (mem_outputs_of_output hkept.layers_ne_nil
      ((output_eq_ok_iff (α := α) hkept.layers_ne_nil).2 ⟨[id], hchain, rfl⟩))

end

end Network

namespace RedundancyTest

/-! ## The queries of a test -/

section

variable [Scalar α] {t : RedundancyTest α} {a b : Arena α}

section

variable [DefiniteSigns α]

/-- What a test prepares is exportable. -/
theorem exportable_of_prepare (hnet : t.network.WellFormed a) (hdef : t.network.Definite a)
    {overrides : List NeuronOverride} {range : Option ClipRange} {base altered : Network}
    {ov : Overrides} (h : (t.prepare overrides range).Yields a (base, altered, ov) b) :
    base.Exportable b ∧ altered.Exportable b := by
  obtain ⟨-, twin, b₁, b₂, hbase, htwin, hover⟩ := prepare_yields.1 h
  obtain ⟨-, -, -, hgrows, -, hwell, -⟩ := Network.duplicateAndClip_yields hbase hnet
  have hnet₁ := hgrows.wellFormed hnet
  have hdef₁ := hdef.of_growsTo hnet.held hgrows
  obtain ⟨-, -, -, -, -, hwell₂, -⟩ := Network.duplicateAndClip_yields htwin hnet₁
  have hbase₁ := Network.exportable_of_duplicateAndClip hnet hdef hbase
  have htwin₂ := Network.exportable_of_duplicateAndClip hnet₁ hdef₁ htwin
  have hgrows₁ := growsTo_of_override hnet₁ htwin hover
  exact ⟨⟨hbase₁.nodup, hbase₁.deep, hbase₁.definite.of_growsTo hwell.held hgrows₁⟩,
    htwin₂.override hwell₂.held hover⟩

/-- Every query that a test returns is exportable. -/
theorem exportable_of_run (hnet : t.network.WellFormed a) (hdef : t.network.Definite a)
    (hmargin : (t.settings.margin == t.settings.margin) = true) {c : Call} {q : Query α}
    (h : (c.run t).Yields a (.query q) b) : q.Exportable b := by
  have hquery : ∀ e : Edit (AnalysisError α) α (Query α),
      (∀ q b, e.Yields a q b → q.Exportable b) →
      Edit.Yields (do return Outcome.query (← e)) a (.query q) b → q.Exportable b := by
    intro e he h
    obtain ⟨q', b', hq, hpure⟩ := Edit.yields_bind.1 h
    obtain ⟨heq, rfl⟩ := Edit.yields_pure.1 hpure
    cases heq
    exact he q b hq
  cases c with
  | modified overrides range =>
    obtain ⟨net, b₁, -, hpure⟩ := Edit.yields_bind.1 h
    cases (Edit.yields_pure.1 hpure).1
  | modifiedPair overrides range =>
    obtain ⟨pair, b₁, -, hpure⟩ := Edit.yields_bind.1 h
    cases (Edit.yields_pure.1 hpure).1
  | comparedExact overrides d index range =>
    refine hquery _ ?_ h
    intro q b hq
    obtain ⟨⟨base, altered, ov⟩, b₁, hprepare, hcompare⟩ := Edit.yields_bind.1 hq
    obtain ⟨hbase, haltered⟩ := exportable_of_prepare hnet hdef hprepare
    exact Network.exportable_of_compareExact hmargin hbase haltered (Edit.yields_adapt.1 hcompare)
  | comparedMinimum overrides index counter range =>
    refine hquery _ ?_ h
    intro q b hq
    obtain ⟨_, a', hrange, hrest⟩ := Edit.yields_bind.1 hq
    obtain ⟨-, rfl⟩ := Edit.yields_ofExcept.1 hrange
    obtain ⟨⟨base, altered, ov⟩, b₁, hprepare, hcompare⟩ := Edit.yields_bind.1 hrest
    obtain ⟨hbase, haltered⟩ := exportable_of_prepare hnet hdef hprepare
    exact Network.exportable_of_compareMinimum hmargin hbase haltered
      (Edit.yields_adapt.1 hcompare)
  | joined overrides range =>
    refine hquery _ ?_ h
    intro q b hq
    obtain ⟨⟨base, altered, ov⟩, b₁, hprepare, hjoined⟩ := Edit.yields_bind.1 hq
    obtain ⟨hbase, haltered⟩ := exportable_of_prepare hnet hdef hprepare
    exact Network.exportable_of_joinedQuery hbase haltered (Edit.yields_adapt.1 hjoined)
  | stateCheck layer neuron phase range =>
    refine hquery _ ?_ h
    intro q b hq
    obtain ⟨_, a', hrange, hrest⟩ := Edit.yields_bind.1 hq
    obtain ⟨-, rfl⟩ := Edit.yields_ofExcept.1 hrange
    obtain ⟨clipped, b₁, hclipped, hread⟩ := Edit.yields_bind.1 hrest
    have hexportable :=
      Network.exportable_of_duplicateAndClip hnet hdef (Edit.yields_adapt.1 hclipped)
    obtain ⟨hcheck, rfl⟩ := Edit.yields_reading.1 (Edit.yields_adapt.1 hread)
    exact Network.exportable_of_stateCheck hmargin hexportable hcheck

end

theorem run_comparedExact {overrides : List NeuronOverride} {d : Direction} {index : Nat}
    {range : Option ClipRange} {q : Query α}
    (h : (t.comparedExact overrides d index range).Yields a q b) :
    ((Call.comparedExact overrides d index range).run t).Yields a (.query q) b :=
  Edit.yields_bind.2 ⟨q, b, h, Edit.yields_pure.2 ⟨rfl, rfl⟩⟩

/-- Every query that a test returns about a network whose scalars equal themselves can be exported,
whatever the overrides and the range. As long as its counts are indices, the file is read back from
its text exactly when every output with coinciding bounds depends on an input. -/
theorem parse_export_iff [DefiniteSigns α] [Numeral α] [LawfulNumeral α]
    (hnet : t.network.Accepted a) (hdef : t.network.Definite a)
    (hmargin : (t.settings.margin == t.settings.margin) = true) {c : Call} {q : Query α}
    (h : (c.run t).Yields a (.query q) b) :
    ∃ e, SolverQuery.ofQuery b q = .ok e ∧
      ((∀ n ∈ e.toIpq.counts, n ≤ indexLimit) →
        (IpqFile.parse e.toIpq.text = .ok e.toIpq ↔
          ∀ id ∈ q.outputs, ∀ n, b.get? id = some n → n.bounds.fixedValue?.isSome = true →
            ∃ i ∈ q.inputs, b.DependsOn id i)) := by
  have hwell := Network.accepted_iff.1 hnet
  have hcheck : q.checkIntegrity b = .ok () := sound_of_run hwell h
  obtain ⟨hq, hdisjoint⟩ := exportable_of_run hwell hdef hmargin h
  obtain ⟨e, he, htab⟩ := SolverQuery.exists_ofQuery hcheck
  refine ⟨e, he, fun hcounts => ?_⟩
  rw [SolverQuery.parse_text_iff htab hcheck hq hdisjoint hcounts]
  refine forall₂_congr fun id hid => ?_
  rw [mem_syntheticInputs_iff hcheck]
  constructor
  · intro hnot n hn hfixed
    by_contra hunreached
    push Not at hunreached
    exact hnot ⟨q.outputs_subset hid, hunreached, n, hn, hfixed⟩
  · rintro hreached ⟨-, hunreached, n, hn, hfixed⟩
    obtain ⟨i, hi, hdep⟩ := hreached n hn hfixed
    exact hunreached i hi hdep

end

/-- Asking whether the sample without one rectifier puts out less: no output has coinciding bounds,
so the file is read back. -/
theorem parse_export_iff_sample :
    ∃ q b e, ((Call.comparedExact [⟨1, 0, .active⟩] .gt 0 none).run sample).Yields Arena.sample
        (.query q) b ∧
      SolverQuery.ofQuery b q = .ok e ∧ IpqFile.parse e.toIpq.text = .ok e.toIpq := by
  obtain ⟨q, b, h, hfixed, hcounts⟩ :
      ∃ q b, (sample.comparedExact [⟨1, 0, .active⟩] .gt 0 none).Yields Arena.sample q b ∧
        (∀ id ∈ q.outputs, (b.get? id).any (·.bounds.fixedValue?.isSome) = false) ∧
        ((SolverQuery.ofQuery b q).toOption.any fun e =>
          e.toIpq.counts.all (· ≤ indexLimit)) = true := by
    rw [Edit.exists_yields_and_iff]
    decide +kernel
  have haccepted : Network.sample.Accepted Arena.sample := by rfl
  have hdef : Network.sample.Definite Arena.sample := fun _ _ _ _ x _ => beq_self_eq_true x
  have hrun := run_comparedExact h
  obtain ⟨e, he, hiff⟩ := parse_export_iff haccepted hdef (beq_self_eq_true _) hrun
  refine ⟨q, b, e, hrun, he, (hiff ?_).2 ?_⟩
  · rw [he] at hcounts
    simpa [Except.toOption] using hcounts
  · intro id hid n hn hsome
    have hnone := hfixed id hid
    rw [hn, Option.any_some, hsome] at hnone
    cases hnone

/-- Without the rectifier its neuron puts out the constant zero. Cut behind it, the sample has this
constant as an output. The file names it among the inputs too, and is not read. -/
theorem export_not_read_back :
    Network.sample.Accepted Arena.sample ∧ Network.sample.FreeAtInputs Arena.sample ∧
      ∃ q b e, (sample.comparedExact [⟨1, 0, .inactive⟩] .gt 0
          (some { lastLayer := some 1, lastCut := 1 })).Yields Arena.sample q b ∧
        SolverQuery.ofQuery b q = .ok e ∧
        IpqFile.parse (α := Rat) e.toIpq.text = .error (.ipqLine 11 (.inputAndOutput 3)) := by
  obtain ⟨q, b, h, hparse⟩ :
      ∃ q b, (sample.comparedExact [⟨1, 0, .inactive⟩] .gt 0
          (some { lastLayer := some 1, lastCut := 1 })).Yields Arena.sample q b ∧
        ((SolverQuery.ofQuery b q).toOption.map fun e => IpqFile.parse (α := Rat) e.toIpq.text) =
          some (.error (.ipqLine 11 (.inputAndOutput 3))) := by
    rw [Edit.exists_yields_and_iff]
    decide +kernel
  have haccepted : Network.sample.Accepted Arena.sample := by rfl
  have hcheck : q.checkIntegrity b = .ok () :=
    sound_of_run (t := sample) (Network.accepted_iff.1 haccepted) (run_comparedExact h)
  obtain ⟨e, he, -⟩ := SolverQuery.exists_ofQuery hcheck
  simp only [he, Except.toOption, Option.map_some, Option.some.injEq] at hparse
  exact ⟨haccepted, by decide, q, b, e, h, he, hparse⟩

end RedundancyTest

end PiecewiseNet
