import PiecewiseNet.Proofs.Ipq.Reimporting
import PiecewiseNet.Proofs.Nnet.Evaluation

/-!
# Weight files through query files

The network of a weight file alternates, so its record set is rebuilt as a copy of it: with the same
layers of the same neurons, and with the same tables when it is evaluated.

## Main statements

- `NnetFile.alternates_of_layersBuilt`: the networks of weight files alternate.
- `NnetFile.rebuild_of_build`: a weight file that is exported to a query file and back.
-/

namespace PiecewiseNet.NnetFile

open Network

variable {α : Type} [Scalar α] {f : NnetFile α} {a : Arena α} {net : Network}

/-! ## Alternating layers -/

theorem InputsBuilt.eq_singletons {i : Nat} {l : Layer} (h : InputsBuilt f a i l) :
    l = l.flatten.map ([·]) := by
  induction h with
  | nil => rfl
  | cons _ _ _ _ _ _ ih => exact congrArg _ ih

omit [Scalar α] in
/-- A node with a weight for every node before it is a sum of these. -/
theorem sums_of_kind {previous : List NodeId} {row : List α} {bias : α} {b : NodeId} {n : Node α}
    (hb : a.get? b = some n) (hkind : n.kind = .affine (row.zip previous) bias)
    (hlength : row.length = previous.length) (hprevious : previous ≠ []) : Sums a previous b := by
  have hat : a.kindAt b = .affine (row.zip previous) bias := by
    rw [Arena.kindAt, hb, Option.map_some, Option.getD_some, hkind]
  have hreads : ∀ r, a.Reads b r ↔ r ∈ previous := by
    intro r
    rw [Arena.reads_iff_kindAt, hat, NodeKind.references, Terms.nodes, List.map_snd_zip hlength.ge]
  obtain ⟨r, hr⟩ := List.exists_mem_of_ne_nil previous hprevious
  exact ⟨⟨_, _, hat⟩, fun r => (hreads r).1, r, (hreads r).2 hr⟩

/-- The neurons of the last layer are sums over the layer before it. -/
theorem LayerBuilt.exists_sums {previous : List NodeId} {rows : List (List α)} {biases : List α}
    {l : Layer} (h : LayerBuilt a previous true rows biases l) (hprevious : previous ≠ []) :
    ∃ sums : List NodeId, l = sums.map ([·]) ∧ ∀ id ∈ sums, Sums a previous id := by
  induction h with
  | nil => exact ⟨[], rfl, List.forall_mem_nil _⟩
  | cons hlength hneuron _ ih =>
    obtain ⟨sums, rfl, hsums⟩ := ih
    cases hneuron with
    | @last b n hb hkind hbounds =>
      exact ⟨b :: sums, rfl,
        List.forall_mem_cons.2 ⟨sums_of_kind hb hkind hlength hprevious, hsums⟩⟩

/-- The neurons of a hidden layer are rectifiers of sums over the layer before it. -/
theorem LayerBuilt.exists_relus {previous : List NodeId} {rows : List (List α)} {biases : List α}
    {l : Layer} (h : LayerBuilt a previous false rows biases l) (hprevious : previous ≠ []) :
    ∃ relus : List NodeId,
      l = relus.map (hiddenChain a) ∧ ∀ id ∈ relus, Rectifies a previous id := by
  induction h with
  | nil => exact ⟨[], rfl, List.forall_mem_nil _⟩
  | cons hlength hneuron _ ih =>
    obtain ⟨relus, rfl, hrelus⟩ := ih
    cases hneuron with
    | @hidden b r n m hb hkind hbounds hr hrectifies hpositive =>
      have hat : a.kindAt r = .relu b false := by
        rw [Arena.kindAt, hr, Option.map_some, Option.getD_some, hrectifies]
      have hargument : a.argumentAt r = b := by rw [Arena.argumentAt, hat]
      refine ⟨r :: relus, by rw [List.map_cons, hiddenChain, hargument],
        List.forall_mem_cons.2 ⟨⟨hargument ▸ hat, ?_⟩, hrelus⟩⟩
      rw [hargument]
      exact sums_of_kind hb hkind hlength hprevious

/-- The layers of a weight file alternate, if none of them is empty. -/
theorem alternates_of_layersBuilt {previous : Layer} {weights : List (List (List α))}
    {biases : List (List α)} {ls : List Layer} (h : LayersBuilt a previous weights biases ls)
    (hprevious : previous.filterMap List.getLast? ≠ []) (hne : ls ≠ []) (hls : ∀ l ∈ ls, l ≠ []) :
    Alternates a (previous.filterMap List.getLast?) ls := by
  induction h with
  | nil => exact absurd rfl hne
  | @cons previous l rows bs weights biases ls hlayer rest ih =>
    obtain ⟨hl, hbehind⟩ := List.forall_mem_cons.1 hls
    cases rest with
    | nil =>
      obtain ⟨sums, rfl, hsums⟩ := hlayer.exists_sums hprevious
      exact .last (by simpa using hl) hsums
    | cons hlayer' rest' =>
      obtain ⟨relus, rfl, hrelus⟩ := hlayer.exists_relus hprevious
      have htails : (relus.map (hiddenChain a)).filterMap List.getLast? = relus := by
        simp [Function.comp_def, hiddenChain]
      have hrelus' : relus ≠ [] := by simpa using hl
      rw [htails] at ih
      exact .hidden hrelus' hrelus (ih hrelus' (List.cons_ne_nil _ _) hbehind)

/-- A network of a weight file is rebuilt from its record set, as a copy. -/
theorem exists_rebuild_of_describes [LawfulSigns α] (h : f.Describes net a)
    (hnet : net.WellFormed a) (hcount : 2 ≤ f.layerSizes.length)
    (hsizes : ∀ size ∈ f.layerSizes, 1 ≤ size) (s : Session α) :
    ∃ q e n s' g, net.toQuery = .ok q ∧ SolverQuery.ofQuery a q = .ok e ∧
      e.toIpq.rebuild true s = (.ok n, s') ∧ f.inputSize? = some n.declaredInputs ∧
      net.Copy a g n.network s'.arena := by
  have hforward := feedforward_of_describes h hnet
  obtain ⟨inputs, ls, hlayers, hlengths, hinputs, hbuilt⟩ := h
  obtain ⟨hheads, htails⟩ := hinputs.heads
  have hin : net.inputs = inputs.flatten := by
    rw [Network.inputs, hlayers]
    exact hheads
  have hnodes : net.nodes = net.inputs ++ ls.flatten.flatten := by
    rw [Network.nodes, hlayers, List.flatten_cons, List.flatten_append, hin]
  rw [← hlengths, hlayers, List.map_cons, List.forall_mem_cons, List.forall_mem_map] at hsizes
  rw [← hlengths, hlayers] at hcount
  have halternates : Alternates a net.inputs ls := by
    rw [hin, ← htails]
    refine alternates_of_layersBuilt hbuilt ?_ ?_ ?_
    · rw [← List.length_pos_iff, hinputs.length_tails]
      exact hsizes.1
    · rintro rfl
      simp at hcount
    · exact fun l hl => List.length_pos_iff.1 (hsizes.2 l hl)
  have hmeets : ∀ id ∈ net.nodes, ∀ n, a.get? id = some n → n.bounds.isEmpty = false := by
    intro id hid n hn
    rw [hnodes, hin, List.mem_append] at hid
    rcases hid with hid | hid
    · obtain ⟨m, hm, hmeets⟩ := hinputs.meets id hid
      cases hn.symm.trans hm
      exact hmeets
    · obtain ⟨m, hm, -, -, -, hmeets⟩ := hbuilt.isComputed id hid
      cases hn.symm.trans hm
      exact hmeets
  obtain ⟨q, e, hq, he, hexport⟩ := IpqFile.exists_exportOf hforward ⟨_, hnodes.symm⟩
  obtain ⟨n, s', g, hrebuild, hdeclared, hcopy⟩ := IpqFile.exists_rebuild hexport hnet
    (by rw [hlayers, hin, ← hinputs.eq_singletons])
    (by
      intro id hid
      obtain ⟨m, hm, hkind⟩ := hinputs.isFree id (hin ▸ hid)
      rw [Arena.kindAt, hm, Option.map_some, Option.getD_some, hkind])
    halternates hmeets s
  refine ⟨q, e, n, s', g, hq, he, hrebuild, ?_, hcopy⟩
  rw [inputSize?, ← hlengths, hlayers, hdeclared, hin, ← htails, hinputs.length_tails]
  rfl

/-- The network of a weight file that has a layer behind the inputs, and no empty layer, is exported
as a query file, and read back strictly. The rebuilt network declares the inputs of the file, its
layers have neurons of the same shapes in the same order, and evaluation uses the same tables for
both networks: inputs, outputs, bounds, equations and rectifiers. -/
theorem rebuild_of_build [LawfulSigns α] [Numeral α] {text : String} {s s' : Session α}
    (hparse : parse text = .ok f) (hcount : 2 ≤ f.layerSizes.length)
    (hsizes : ∀ size ∈ f.layerSizes, 1 ≤ size) (hbuild : f.build s = (.ok net, s'))
    (s₁ : Session α) :
    ∃ q e n s₂, net.toQuery = .ok q ∧ SolverQuery.ofQuery s'.arena q = .ok e ∧
      e.toIpq.rebuild true s₁ = (.ok n, s₂) ∧ f.inputSize? = some n.declaredInputs ∧
      n.network.layers.map (List.map (shape s₂.arena)) =
        net.layers.map (List.map (shape s'.arena)) ∧
      ∃ q' sys sys', n.network.toQuery = .ok q' ∧ ConstraintSystem.ofQuery s'.arena q = .ok sys ∧
        ConstraintSystem.ofQuery s₂.arena q' = .ok sys' ∧ sys.SameTables sys' := by
  obtain ⟨hshaped, -⟩ := of_parse hparse
  obtain ⟨-, hdescribes, hnet⟩ := describes_of_build hbuild hshaped
  obtain ⟨q, e, n, s₂, g, hq, he, hrebuild, hdeclared, hcopy⟩ :=
    exists_rebuild_of_describes hdescribes hnet hcount hsizes s₁
  obtain ⟨p, q', hp, hq', hqueries⟩ := hcopy.exists_toQuery hnet
  obtain rfl : q = p := Except.ok.inj (hq.symm.trans hp)
  obtain ⟨p, hp, -, -, -, hforward, -⟩ :=
    (feedforward_of_describes hdescribes hnet).exists_toQuery
  obtain rfl : q = p := Except.ok.inj (hq.symm.trans hp)
  obtain ⟨sys, hsys⟩ := ConstraintSystem.ofQuery_ok hforward.integrity hforward.noAbs
  obtain ⟨sys', hsys', hsame⟩ := hqueries.ofQuery_ok hsys
  exact ⟨q, e, n, s₂, hq, he, hrebuild, hdeclared, hcopy.shapes_eq, q', sys, sys', hq', hsys, hsys',
    hsame⟩

/-- The network of the sample is exported and read back in the session where it was built. -/
theorem rebuild_of_build_sample :
    ∃ f net s', parse sampleText = .ok f ∧ 2 ≤ f.layerSizes.length ∧
      (∀ size ∈ f.layerSizes, 1 ≤ size) ∧ f.build ({} : Session Rat) = (.ok net, s') ∧
      ∃ q e n s₂, net.toQuery = .ok q ∧ SolverQuery.ofQuery s'.arena q = .ok e ∧
        e.toIpq.rebuild true s' = (.ok n, s₂) ∧ f.inputSize? = some n.declaredInputs ∧
        n.network.layers.map (List.map (shape s₂.arena)) =
          net.layers.map (List.map (shape s'.arena)) ∧
        ∃ q' sys sys', n.network.toQuery = .ok q' ∧ ConstraintSystem.ofQuery s'.arena q = .ok sys ∧
          ConstraintSystem.ofQuery s₂.arena q' = .ok sys' ∧ sys.SameTables sys' := by
  have hok : (parse (α := Rat) sampleText).toOption.any (fun f =>
      decide (f.layerSizes = [2, 1, 1]) && (f.build {}).1.isOk) = true := by decide +kernel
  cases hparse : parse (α := Rat) sampleText with
  | error e =>
    rw [hparse] at hok
    cases hok
  | ok f =>
    rw [hparse, Except.toOption, Option.any_some, Bool.and_eq_true, decide_eq_true_eq] at hok
    obtain ⟨hsizes, hok⟩ := hok
    have hcount : 2 ≤ f.layerSizes.length := by
      rw [hsizes]
      decide
    have hnonempty : ∀ size ∈ f.layerSizes, 1 ≤ size := by
      rw [hsizes]
      decide
    cases hbuild : f.build ({} : Session Rat) with
    | mk r s' =>
      rw [hbuild] at hok
      cases r with
      | error e => cases hok
      | ok net =>
        exact ⟨f, net, s', rfl, hcount, hnonempty, hbuild,
          rebuild_of_build hparse hcount hnonempty hbuild s'⟩

end PiecewiseNet.NnetFile
