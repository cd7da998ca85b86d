import PiecewiseNet.Proofs.Network.Gluing
import PiecewiseNet.Proofs.Network.Reduction
import PiecewiseNet.Proofs.Network.Twins
import PiecewiseNet.Proofs.QueryMembers
import Mathlib.Algebra.Order.Field.Rat
import Mathlib.Tactic.Linarith
import Mathlib.Tactic.Ring

/-!
# Comparisons

A comparison of a base with an altered network is solved exactly by a run of the base and a run of
the altered network on the same inputs whose outputs differ as asked.

## Main statements

- `differs_holds_iff`, `winnerEquations_hold_iff`: when the equations about the outputs hold.
- `Network.Parts.exists_solution_iff`: what solves a query over what is kept of two joined networks.
- `Network.AgreesBefore.compareExact_yields`: what solves a comparison of one output.
- `Network.AgreesBefore.compareMinimum_yields`: what solves a comparison of two outputs.
-/

namespace PiecewiseNet

/-- The equation says that the outputs differ by the margin in the direction. -/
theorem differs_holds_iff {d : Direction} {o m : NodeId} {margin : Rat} {v : Valuation Rat} :
    (differs d o m margin).Holds v ↔ margin ≤ d.gap (v o) (v m) := by
  cases d with
  | gt =>
    have hvalue : Terms.value v [(1, o), (-1, m)] = v o - v m := by
      simp only [Terms.value, List.foldl_cons, List.foldl_nil]
      ring
    show margin ≤ Terms.value v [(1, o), (-1, m)] ↔ _
    rw [hvalue]
    rfl
  | lt =>
    have hvalue : Terms.value v [(-1, o), (-(-1), m)] = v m - v o := by
      simp only [Terms.value, List.foldl_cons, List.foldl_nil]
      ring
    show margin ≤ Terms.value v [(-1, o), (-(-1), m)] ↔ _
    rw [hvalue]
    rfl

theorem exceeds_holds_iff {greater smaller : NodeId} {margin : Rat} {v : Valuation Rat} :
    (exceeds greater smaller margin).Holds v ↔ margin ≤ v greater - v smaller :=
  differs_holds_iff (d := .gt)

/-- The equations say that the winner exceeds every other output by the margin. -/
theorem winnerEquations_hold_iff {winner : NodeId} {index : Nat} {margin : Rat}
    {outputs : List NodeId} {v : Valuation Rat} :
    (∀ e ∈ winnerEquations winner index margin outputs, e.Holds v) ↔
      ∀ n id, n ≠ index → outputs[n]? = some id → margin ≤ v winner - v id := by
  simp only [winnerEquations, List.forall_mem_map, List.mem_filter, Prod.forall, bne_iff_ne,
    List.mem_zipIdx_iff_getElem?, exceeds_holds_iff]
  constructor
  · intro h n id hn hid
    exact h id n ⟨hid, hn⟩
  · rintro h id n ⟨hid, hn⟩
    exact h n id hn hid

variable {α : Type}

/-- A finished query passed its check. -/
theorem finished_yields {q q' : Query α} {a b : Arena α} :
    (finished q).Yields a q' b ↔ q' = q ∧ b = a ∧ q.checkIntegrity a = .ok () := by
  unfold finished
  simp only [Edit.yields_bind, Edit.yields_reading, Edit.yields_pure]
  constructor
  · rintro ⟨_, _, ⟨hcheck, rfl⟩, rfl, rfl⟩
    exact ⟨rfl, rfl, hcheck⟩
  · rintro ⟨rfl, rfl, hcheck⟩
    exact ⟨(), b, ⟨hcheck, rfl⟩, rfl, rfl⟩

namespace Network

variable {base altered net part : Network} {ov : Overrides} {boundary k : Nat}
  {g : NodeId → NodeId} {a b : Arena α} {c d : Chain} {i : Nat}

/-- A property holds of a part and of the nodes of a network from a layer on exactly when it holds
of both, if the earlier layers belong to the part. -/
theorem forall_mem_append_tailNodes {p : NodeId → Prop}
    (h : ∀ l n c, l < k → chainAt net.layers l n = some c → c ⊆ part.nodes) :
    (∀ id ∈ part.nodes ++ JoinedNetworks.tailNodes net k, p id) ↔
      (∀ id ∈ part.nodes, p id) ∧ ∀ id ∈ net.nodes, p id := by
  rw [List.forall_mem_append]
  refine and_congr_right fun hpart => ?_
  constructor
  · intro htail id hid
    obtain ⟨l, n, c, hc, hid⟩ := mem_nodes_iff.1 hid
    rcases Nat.lt_or_ge l k with hlt | hge
    · exact hpart id (h l n c hlt hc hid)
    · exact htail id (mem_tailNodes_iff.2 ⟨l, n, c, hge, hc, hid⟩)
  · intro hnet id hid
    obtain ⟨l, n, c, -, hc, hid⟩ := mem_tailNodes_iff.1 hid
    exact hnet id (mem_nodes hc hid)

namespace AgreesBefore

variable (h : base.AgreesBefore altered ov boundary g a)

include h

/-- Reduced to the same output neuron, a base and an altered network are parts that keep the
counterparts of what is shared. -/
theorem parts_reduced (hd : chainAt base.layers (base.layerCount - 1) i = some d)
    (hc : chainAt altered.layers (altered.layerCount - 1) i = some c)
    (hbase : (base.reduced d).WellFormed a) (haltered : (altered.reduced c).WellFormed a) :
    base.Parts altered ov boundary g a (base.reduced d) (altered.reduced c) := by
  have hne := h.base_wellFormed.layers_ne_nil
  have hne' := h.altered_wellFormed.layers_ne_nil
  refine ⟨h, hbase, haltered, nodes_reduced_subset hne hd, nodes_reduced_subset hne' hc, ?_⟩
  intro id hid hshared
  obtain ⟨l, n, e, he, hide⟩ := mem_nodes_iff.1 hid
  obtain ⟨n', he', hplace⟩ := exists_chainAt_of_reduced hne' hc he
  obtain ⟨f, hf, hmem⟩ := h.exists_chainAt_base he' hide hshared
  rw [layerCount, h.length] at hc hplace
  rcases hplace with hlt | rfl
  · refine mem_nodes (l := l) (n := n') (c := f) ?_ hmem
    rw [chainAt_reduced hne, layerCount, if_pos hlt, hf]
  · -- A shared output lies in the neuron that is kept of the base.
    obtain ⟨rfl, rfl, -⟩ := place_unique h.altered_wellFormed.nodup he' hc hide hide
    obtain rfl : d = f := Option.some.inj (hd.symm.trans hf)
    exact mem_nodes_reduced hmem

variable {joined : Network} (hcopy : altered.Copy a (altered.sharing ov boundary g) joined b)

include hcopy

/-- Before the boundary a join has the neurons of the base, whichever outputs it keeps. -/
theorem chainAt_withLast_before (hlt : boundary < base.layers.length) {cs : Layer} {l n : Nat}
    {e : Chain} (hl : l < boundary) (he : chainAt (joined.withLast cs).layers l n = some e) :
    chainAt base.layers l n = some e := by
  rwa [chainAt_withLast (hcopy.layers_ne_nil h.altered_wellFormed.layers_ne_nil),
    hcopy.layerCount_eq, layerCount, h.length, if_pos (by omega), hcopy.chainAt_eq,
    h.map_sharing_before hl] at he

theorem subset_reduced (hlt : boundary < base.layers.length) (d : Chain) {l n : Nat} {e : Chain}
    (hl : l < boundary) (he : chainAt (joined.reduced c).layers l n = some e) :
    e ⊆ (base.reduced d).nodes := by
  intro id hid
  refine mem_nodes (l := l) (n := n) (c := e) ?_ hid
  rw [chainAt_reduced h.base_wellFormed.layers_ne_nil, layerCount, if_pos (by omega),
    h.chainAt_withLast_before hcopy hlt hl he]

/-- What is kept of the altered network is well-formed if what is kept of the join is. -/
theorem wellFormed_withLast {cs : Layer}
    (hcs : ∀ c ∈ cs, ∃ i, chainAt altered.layers (altered.layerCount - 1) i = some c)
    (hjoined : (joined.withLast (cs.map (List.map (altered.sharing ov boundary g)))).WellFormed b) :
    (altered.withLast cs).WellFormed a := by
  have hne := h.altered_wellFormed.layers_ne_nil
  have hsub := nodes_withLast_subset hne hcs
  refine (hcopy.withLast hne hcs).wellFormed_of_copy hjoined ?_
  intro id hid r hr s hs
  exact h.sharing_injOn r (h.altered_wellFormed.closed id (hsub hid) r hr) s (hsub hs)

omit hcopy in
/-- Whatever is kept of the base is left alone by the join. -/
theorem get?_base (hsame : ∀ id, id ∉ altered.nodes → b.get? id = a.get? id) :
    ∀ id ∈ base.nodes, b.get? id = a.get? id :=
  fun id hid => hsame id fun hmem => h.disjoint id hmem hid

/-- What is kept of a join and its base are, before the join, parts of the altered network and of
the base. -/
theorem exists_parts (hsame : ∀ id, id ∉ altered.nodes → b.get? id = a.get? id)
    (hd : chainAt base.layers (base.layerCount - 1) i = some d)
    (hbase : (base.reduced d).WellFormed b) {c' : Chain}
    (hc' : chainAt joined.layers (joined.layerCount - 1) i = some c')
    (hjoined : (joined.reduced c').WellFormed b) :
    ∃ c, chainAt altered.layers (altered.layerCount - 1) i = some c ∧
      c' = c.map (altered.sharing ov boundary g) ∧
      (∀ id ∈ (base.reduced d).nodes, b.get? id = a.get? id) ∧
      base.Parts altered ov boundary g a (base.reduced d) (altered.reduced c) := by
  obtain ⟨c, hc, rfl⟩ := hcopy.exists_chainAt_last hc'
  have hunchanged : ∀ id ∈ (base.reduced d).nodes, b.get? id = a.get? id := fun id hid =>
    h.get?_base hsame id (nodes_reduced_subset h.base_wellFormed.layers_ne_nil hd hid)
  have hcs : ∀ e ∈ [c], ∃ i, chainAt altered.layers (altered.layerCount - 1) i = some e := by
    simpa using ⟨i, hc⟩
  exact ⟨c, hc, rfl, hunchanged, h.parts_reduced hd hc
    (hbase.of_get?_eq fun id hid => (hunchanged id hid).symm)
    (h.wellFormed_withLast hcopy hcs hjoined)⟩

omit hcopy in
/-- The whole base and a part of the altered network are parts. -/
theorem parts_base (hpart : part.WellFormed a) (hsub : part.nodes ⊆ altered.nodes) :
    base.Parts altered ov boundary g a base part :=
  ⟨h, h.base_wellFormed, hpart, List.Subset.refl _, hsub, fun _ _ hshared => h.mem_base hshared⟩

end AgreesBefore

/-- A query over a part of the base and a copy of a part of the altered network, in which shared
nodes are those of the base, is solved exactly by runs of the two parts on the same inputs that
satisfy what the equations say. -/
theorem Parts.exists_solution_iff [Scalar α] {altpart joined : Network}
    (h : base.Parts altered ov boundary g a part altpart)
    (hcopy : altpart.Copy a (altered.sharing ov boundary g) joined b)
    (hunchanged : ∀ id ∈ part.nodes, b.get? id = a.get? id)
    (hfree : ∀ id ∈ base.nodes, IsFree a id → id ∈ base.inputs)
    (hpartInputs : part.inputs = base.inputs) (haltInputs : altpart.inputs = altered.inputs)
    {q : Query α} (hqinputs : q.inputs = part.inputs)
    (hmembers : ∀ p : NodeId → Prop,
      (∀ id ∈ q.nodes, p id) ↔ (∀ id ∈ part.nodes, p id) ∧ ∀ id ∈ joined.nodes, p id)
    {p : Valuation α → Valuation α → Prop}
    (hequations : ∀ u v w, (∀ id ∈ part.nodes, u id = v id) →
      (∀ id ∈ altpart.nodes, u (altered.sharing ov boundary g id) = w id) →
        ((∀ e ∈ q.equations, e.Holds u) ↔ p v w)) (x : List α) :
    (∃ v, q.Solves b v ∧ q.inputs.map v = x) ↔
      ∃ v w, part.Runs a v ∧ altpart.Runs a w ∧ part.inputs.map v = x ∧ altpart.inputs.map w = x ∧
        p v w := by
  constructor
  · -- A solution is a run of both parts, where the altered nodes have the values of shared ones.
    rintro ⟨u, hu, hx⟩
    obtain ⟨hpart, hjoined⟩ := (hmembers _).1 hu.nodes
    refine ⟨u, fun id => u (altered.sharing ov boundary g id),
      (runs_iff_of_get?_eq hunchanged).1 hpart, hcopy.runs_iff.1 hjoined, hqinputs ▸ hx, ?_,
      (hequations u _ _ (fun _ _ => rfl) fun _ _ => rfl).1 hu.equations⟩
    rw [← hx, hqinputs, hpartInputs, haltInputs, h.agrees.inputs_eq, List.map_map]
    rfl
  · -- Runs on the same inputs agree at the shared nodes.
    rintro ⟨v, w, hv, hw, hxv, hxw, hp⟩
    have hsameInputs : base.inputs.map v = altered.inputs.map w := by
      rw [← hpartInputs, ← haltInputs, hxv, hxw]
    obtain ⟨u, hpart, hjoined, huv, huw⟩ := h.exists_joined_run hcopy hunchanged hv hw
      fun id _ hshared hid => h.agrees.eq_of_inputs hfree hsameInputs hshared hid
    refine ⟨u, ⟨(hmembers _).2 ⟨hpart, hjoined⟩, (hequations u v w huv huw).2 hp⟩, ?_⟩
    rw [hqinputs, ← hxv]
    exact List.map_congr_left fun id hid => huv id (inputs_subset_nodes hid)

/-- A comparison of one output is a query over what is kept of two joined networks. -/
theorem compareExact_steps [Scalar α] {dir : Direction} {margin : α} {q : Query α}
    (hq : (compareExact base altered ov dir i margin).Yields a q b) :
    ∃ j part joined o m, (join base altered ov).Yields a j b ∧
      j.base.keepOutputs [i] b = .ok part ∧ j.altered.keepOutputs [i] b = .ok joined ∧
      part.output (α := α) 0 = .ok o ∧ joined.output (α := α) 0 = .ok m ∧
      q.nodes = (part.nodes ++ JoinedNetworks.tailNodes joined j.boundary).eraseDups ∧
      q.inputs = part.inputs ∧ q.outputs = [o, m] ∧ q.equations = [differs dir o m margin] := by
  obtain ⟨j, b₁, hj, h₁⟩ := Edit.yields_bind.1 hq
  obtain ⟨part, b₂, hread, h₂⟩ := Edit.yields_bind.1 h₁
  obtain ⟨hpart, rfl⟩ := Edit.yields_reading.1 hread
  obtain ⟨joined, b₃, hread', h₃⟩ := Edit.yields_bind.1 h₂
  obtain ⟨hjoined, rfl⟩ := Edit.yields_reading.1 hread'
  obtain ⟨o, b₄, hofExcept, h₄⟩ := Edit.yields_bind.1 h₃
  obtain ⟨ho, rfl⟩ := Edit.yields_ofExcept.1 hofExcept
  obtain ⟨m, b₅, hofExcept', h₅⟩ := Edit.yields_bind.1 h₄
  obtain ⟨hm, rfl⟩ := Edit.yields_ofExcept.1 hofExcept'
  obtain ⟨q', b₆, hbuilt, h₆⟩ := Edit.yields_bind.1 h₅
  obtain ⟨hnew, rfl⟩ := Edit.yields_ofExcept.1 hbuilt
  obtain ⟨rfl, rfl, -⟩ := finished_yields.1 h₆
  exact ⟨j, part, joined, o, m, hj, hpart, hjoined, ho, hm, Query.new_eq_ok hnew⟩

/-- A comparison of one output is solved exactly by runs of the reduced networks on the same inputs
whose outputs differ by the margin in the direction. -/
theorem AgreesBefore.compareExact_yields {a b : Arena Rat}
    (h : base.AgreesBefore altered ov boundary g a) {n : Nat} {kind : OverrideKind}
    (hfirst : ov.entries.head? = some ((boundary, n), kind))
    (hlt : boundary < base.layers.length) (hcount : 2 ≤ base.layerCount)
    (hfree : ∀ id ∈ base.nodes, IsFree a id → id ∈ base.inputs) {dir : Direction} {margin : Rat}
    {q : Query Rat} (hq : (compareExact base altered ov dir i margin).Yields a q b) :
    ∃ d c o m, chainAt base.layers (base.layerCount - 1) i = some d ∧
      chainAt altered.layers (altered.layerCount - 1) i = some c ∧
      base.keepOutputs [i] a = .ok (base.reduced d) ∧
      altered.keepOutputs [i] a = .ok (altered.reduced c) ∧
      d.getLast? = some o ∧ c.getLast? = some m ∧
      ∀ x, (∃ v, q.Solves b v ∧ q.inputs.map v = x) ↔
        ∃ v w, (base.reduced d).Runs a v ∧ (altered.reduced c).Runs a w ∧
          (base.reduced d).inputs.map v = x ∧ (altered.reduced c).inputs.map w = x ∧
          margin ≤ dir.gap (v o) (w m) := by
  obtain ⟨j, part, joined, o, m', hj, hpart, hjoined, ho, hm', hnodes, hqinputs, -, hequations⟩ :=
    compareExact_steps hq
  obtain ⟨rfl, rfl, hcopy, hsame, -⟩ := h.join_yields hfirst hj
  obtain ⟨hne, d, hd, rfl, hbase⟩ := keepOutputs_singleton_eq_ok_iff.1 hpart
  obtain ⟨-, c', hc', rfl, hjoinedWell⟩ := keepOutputs_singleton_eq_ok_iff.1 hjoined
  obtain ⟨c, hc, rfl, hunchanged, hparts⟩ :=
    h.exists_parts hcopy hsame hd hbase hc' hjoinedWell
  have hne' := h.altered_wellFormed.layers_ne_nil
  have hjoinedNe := hcopy.layers_ne_nil hne'
  rw [output_reduced hne] at ho
  rw [output_reduced hjoinedNe, List.getLast?_map, Option.map_eq_some_iff] at hm'
  obtain ⟨m, hm, rfl⟩ := hm'
  refine ⟨d, c, o, m, hd, hc,
    keepOutputs_singleton_eq_ok_iff.2 ⟨hne, d, hd, rfl, hparts.part_wellFormed⟩,
    keepOutputs_singleton_eq_ok_iff.2 ⟨hne', c, hc, rfl, hparts.altpart_wellFormed⟩, ho, hm, ?_⟩
  refine hparts.exists_solution_iff (hcopy.reduced hne' hc) hunchanged hfree (inputs_reduced hcount)
    (inputs_reduced (by rwa [layerCount, h.length])) hqinputs ?_ ?_
  · intro p
    rw [hnodes]
    simp only [List.mem_eraseDups]
    exact forall_mem_append_tailNodes fun l n e => h.subset_reduced hcopy hlt d
  · intro u v w huv huw
    simp only [hequations, List.mem_singleton, forall_eq, differs_holds_iff]
    rw [huv o (mem_nodes_reduced (List.mem_of_getLast? ho)),
      huw m (mem_nodes_reduced (List.mem_of_getLast? hm))]

/-- A comparison of two outputs is a query over the base and what is kept of its join. -/
theorem compareMinimum_steps [Scalar α] {counter : Nat} {margin : α} {q : Query α}
    (hq : (compareMinimum base altered ov i counter margin).Yields a q b) :
    ∃ j joined winner loser rival, (join base altered ov).Yields a j b ∧
      j.altered.keepOutputs [i, counter] b = .ok joined ∧
      j.base.output (α := α) i = .ok winner ∧ joined.output (α := α) 0 = .ok loser ∧
      joined.output (α := α) 1 = .ok rival ∧
      q.nodes = (j.base.nodes ++ JoinedNetworks.tailNodes joined j.boundary).eraseDups ∧
      q.inputs = j.base.inputs ∧ q.outputs = j.base.outputs ++ [loser, rival] ∧
      q.equations =
        winnerEquations winner i margin j.base.outputs ++ [exceeds rival loser margin] := by
  unfold compareMinimum at hq
  split at hq
  · exact absurd hq Edit.not_yields_throw
  · obtain ⟨j, b₁, hj, h₁⟩ := Edit.yields_bind.1 hq
    obtain ⟨winner, b₂, hofExcept, h₂⟩ := Edit.yields_bind.1 h₁
    obtain ⟨hwinner, rfl⟩ := Edit.yields_ofExcept.1 hofExcept
    obtain ⟨joined, b₃, hread, h₃⟩ := Edit.yields_bind.1 h₂
    obtain ⟨hjoined, rfl⟩ := Edit.yields_reading.1 hread
    obtain ⟨loser, b₄, hofExcept', h₄⟩ := Edit.yields_bind.1 h₃
    obtain ⟨hloser, rfl⟩ := Edit.yields_ofExcept.1 hofExcept'
    obtain ⟨rival, b₅, hofExcept'', h₅⟩ := Edit.yields_bind.1 h₄
    obtain ⟨hrival, rfl⟩ := Edit.yields_ofExcept.1 hofExcept''
    obtain ⟨q', b₆, hbuilt, h₆⟩ := Edit.yields_bind.1 h₅
    obtain ⟨hnew, rfl⟩ := Edit.yields_ofExcept.1 hbuilt
    obtain ⟨rfl, rfl, -⟩ := finished_yields.1 h₆
    exact ⟨j, joined, winner, loser, rival, hj, hjoined, hwinner, hloser, hrival,
      Query.new_eq_ok hnew⟩

/-- A comparison of two outputs is solved exactly by a run of the base in which the first one
exceeds every other output by the margin, and a run of the altered network on the same inputs in
which it falls short of the second one by the margin. -/
theorem AgreesBefore.compareMinimum_yields {a b : Arena Rat}
    (h : base.AgreesBefore altered ov boundary g a) {n : Nat} {kind : OverrideKind}
    (hfirst : ov.entries.head? = some ((boundary, n), kind))
    (hlt : boundary < base.layers.length) (hcount : 2 ≤ base.layerCount)
    (hfree : ∀ id ∈ base.nodes, IsFree a id → id ∈ base.inputs) {counter : Nat} {margin : Rat}
    {q : Query Rat} (hq : (compareMinimum base altered ov i counter margin).Yields a q b) :
    ∃ c d winner loser rival, chainAt altered.layers (altered.layerCount - 1) i = some c ∧
      chainAt altered.layers (altered.layerCount - 1) counter = some d ∧
      altered.keepOutputs [i, counter] a = .ok (altered.withLast [c, d]) ∧
      base.output (α := Rat) i = .ok winner ∧ c.getLast? = some loser ∧ d.getLast? = some rival ∧
      ∀ x, (∃ v, q.Solves b v ∧ q.inputs.map v = x) ↔
        ∃ v w, base.Runs a v ∧ (altered.withLast [c, d]).Runs a w ∧ base.inputs.map v = x ∧
          (altered.withLast [c, d]).inputs.map w = x ∧
          (∀ n id, n ≠ i → base.output (α := Rat) n = .ok id → margin ≤ v winner - v id) ∧
          margin ≤ w rival - w loser := by
  obtain ⟨j, joined, winner, loser', rival', hj, hjoined, hwinner, hloser', hrival', hnodes,
    hqinputs, -, hequations⟩ := compareMinimum_steps hq
  obtain ⟨rfl, rfl, hcopy, hsame, -⟩ := h.join_yields hfirst hj
  have hne' := h.altered_wellFormed.layers_ne_nil
  have hjoinedNe := hcopy.layers_ne_nil hne'
  obtain ⟨-, c', d', hc', hd', rfl, hjoinedWell⟩ := keepOutputs_pair_eq_ok_iff.1 hjoined
  obtain ⟨c, hc, rfl⟩ := hcopy.exists_chainAt_last hc'
  obtain ⟨d, hd, rfl⟩ := hcopy.exists_chainAt_last hd'
  have hcs : ∀ e ∈ [c, d], ∃ i, chainAt altered.layers (altered.layerCount - 1) i = some e := by
    simpa using ⟨⟨i, hc⟩, counter, hd⟩
  have hwell := h.wellFormed_withLast hcopy hcs hjoinedWell
  have hparts := h.parts_base hwell (nodes_withLast_subset hne' hcs)
  have hunchanged := h.get?_base hsame
  simp only [output_withLast hjoinedNe, List.getElem?_cons_zero, List.getElem?_cons_succ,
    Option.some.injEq, exists_eq_left', List.getLast?_map, Option.map_eq_some_iff]
    at hloser' hrival'
  obtain ⟨loser, hloser, rfl⟩ := hloser'
  obtain ⟨rival, hrival, rfl⟩ := hrival'
  refine ⟨c, d, winner, loser, rival, hc, hd,
    keepOutputs_pair_eq_ok_iff.2 ⟨hne', c, d, hc, hd, rfl, hwell⟩, hwinner, hloser, hrival, ?_⟩
  refine hparts.exists_solution_iff (hcopy.withLast hne' hcs) hunchanged hfree rfl
    (inputs_withLast (by rwa [layerCount, h.length])) hqinputs ?_ ?_
  · intro p
    rw [hnodes]
    simp only [List.mem_eraseDups]
    exact forall_mem_append_tailNodes fun l n e hl he =>
      fun _ hid => mem_nodes (h.chainAt_withLast_before hcopy hlt hl he) hid
  · intro u v w huv huw
    have houtput : ∀ n id, j.base.output (α := Rat) n = .ok id → u id = v id := by
      intro n id hid
      obtain ⟨e, he, hlast⟩ := (output_eq_ok_iff h.base_wellFormed.layers_ne_nil).1 hid
      exact huv id (mem_nodes he (List.mem_of_getLast? hlast))
    rw [hequations, List.forall_mem_append, winnerEquations_hold_iff]
    simp only [List.mem_singleton, forall_eq, exceeds_holds_iff,
      getElem?_outputs h.base_wellFormed]
    rw [huw loser (mem_nodes_withLast (by simp) (List.mem_of_getLast? hloser)),
      huw rival (mem_nodes_withLast (by simp) (List.mem_of_getLast? hrival)),
      houtput i winner hwinner]
    refine and_congr_left' (forall₄_congr fun n id _ hid => ?_)
    rw [houtput n id hid]

end Network

end PiecewiseNet
