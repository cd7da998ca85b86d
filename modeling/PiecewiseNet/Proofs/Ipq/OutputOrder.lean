import PiecewiseNet.Proofs.Ipq.Layering
import PiecewiseNet.Proofs.Ipq.Progress

/-!
# Order of the inputs and outputs of a rebuilt network

A rebuilt network has its inputs in the order in which the file declares them. Its outputs are added
by a pass over the equations, so they stand in the order of the equations that define them; in
strict mode these are the declared outputs in some order. Where the equations are in another order
than the declaration, an index into the outputs of the network means another output than the same
index into those of the file.

## Main definitions

- `IpqFile.definedOutputs`: the outputs in the order of their equations.

## Main statements

- `IpqFile.outputs_in_declared_order_iff`: the inputs are in the declared order, and the outputs are
  so exactly when the equations are.
- `IpqFile.outputs_swapped`: a file with its outputs in the other order.
-/

namespace PiecewiseNet

namespace IpqFile

section

variable {α : Type}

/-- The output that an equation defines in the last layer: it mentions no other one. -/
def definedOutput? (f : IpqFile α) (e : IpqEquation α) : Option Nat :=
  match e.addends.filter fun a => f.outputs.contains a.1 with
  | [(v, _)] => some v
  | _ => none

/-- The outputs in the order of the equations that define them. -/
def definedOutputs (f : IpqFile α) : List Nat :=
  f.equations.filterMap f.definedOutput?

theorem mem_outputs_of_definedOutput? {f : IpqFile α} {e : IpqEquation α} {v : Nat}
    (h : f.definedOutput? e = some v) : v ∈ f.outputs := by
  unfold definedOutput? at h
  split at h
  · rename_i u c hone
    obtain rfl : u = v := Option.some.inj h
    have hmem : (u, c) ∈ e.addends.filter fun a => f.outputs.contains a.1 :=
      hone ▸ List.mem_singleton_self _
    simpa using (List.mem_filter.1 hmem).2
  · cases h

theorem mem_outputs_of_mem_definedOutputs {f : IpqFile α} {v : Nat} (h : v ∈ f.definedOutputs) :
    v ∈ f.outputs := by
  obtain ⟨e, -, he⟩ := List.mem_filterMap.1 h
  exact mem_outputs_of_definedOutput? he

end

variable {α : Type} [Scalar α] {strict : Bool} {f : IpqFile α} {p : Passes} {n : IpqNetwork}

/-! ## The checks at the end -/

omit [Scalar α] in
/-- The declared outputs are distinct, and their nodes are those of the last layer. -/
theorem nodes_of_outputsAreLast (h : f.outputsAreLast p = true) :
    f.outputs.Nodup ∧ (∀ v ∈ f.outputs, ∃ id ∈ p.last, p.variableNodes.get? v = some id) ∧
      ∀ id ∈ p.last, ∃ v ∈ f.outputs, p.variableNodes.get? v = some id := by
  let ids := f.outputs.filterMap p.variableNodes.get?
  simp only [outputsAreLast, Bool.and_eq_true, beq_iff_eq, List.all_eq_true,
    List.contains_iff_mem] at h
  obtain ⟨⟨hlength, hlast⟩, hall⟩ := h
  -- A repeated or a missing node would make the list without repetitions shorter than the outputs.
  have hsub : ids.eraseDups ⊆ ids := fun id hid => List.mem_eraseDups.1 hid
  have hle : ids.length ≤ f.outputs.length := List.length_filterMap_le _ _
  have hperm : ids.eraseDups.Perm ids :=
    (List.subperm_of_subset (nodup_eraseDups ids) hsub).perm_of_length_le (hlength ▸ hle)
  have hfound : ∀ v ∈ f.outputs, ∃ id, p.variableNodes.get? v = some id := fun v hv =>
    Option.isSome_iff_exists.1 (List.filterMap_length_eq_length.1 (hperm.length_eq ▸ hlength) v hv)
  refine ⟨?_, ?_, ?_⟩
  · have hnd : ids.Nodup := hperm.nodup (nodup_eraseDups ids)
    refine (List.pairwise_filterMap.1 hnd).imp_of_mem ?_
    rintro v u hv - hne rfl
    obtain ⟨id, hid⟩ := hfound v hv
    exact hne id hid id hid rfl
  · intro v hv
    obtain ⟨id, hid⟩ := hfound v hv
    exact ⟨id, hlast id (List.mem_eraseDups.2 (List.mem_filterMap.2 ⟨v, hv, hid⟩)), hid⟩
  · exact fun id hid => List.mem_filterMap.1 (List.mem_eraseDups.1 (hall id hid))

omit [Scalar α] in
/-- Behind the check of the equations, every variable of an equation has a node. -/
theorem exists_get?_of_looseEquation? {vars : VarMap NodeId} {i : Nat} {es : List (IpqEquation α)}
    (h : looseEquation? vars i es = none) :
    ∀ e ∈ es, ∀ a ∈ e.addends, ∃ id, vars.get? a.1 = some id := by
  induction es generalizing i with
  | nil => simp
  | cons e es ih =>
    rw [looseEquation?] at h
    split at h
    · cases h
    · rename_i hnone
      refine List.forall_mem_cons.2 ⟨fun a ha => ?_, ih h⟩
      rw [← VarMap.contains_iff_exists]
      simpa using List.find?_eq_none.1 hnone a ha

/-! ## Inputs -/

omit [Scalar α] in
/-- The inputs are added in their order. -/
theorem map_get?_of_inputLayer {stem : String} {i : Nat} {vs : List Nat} {ids : List NodeId}
    {vars : VarMap NodeId} {a b : Arena α} (hnd : vs.Nodup)
    (h : (inputLayer stem i vs OrderedMap.empty).Yields a (ids, vars) b) :
    vs.map vars.get? = ids.map some := by
  have hnew : ∀ v ∈ vs, (OrderedMap.empty : VarMap NodeId).get? v = none := fun v _ => by simp
  obtain ⟨ids', vars', b', hrun, hdefs⟩ : ∃ ids' vars' b',
      (inputLayer stem i vs OrderedMap.empty).Yields a (ids', vars') b' ∧
        Definitions (vs.map fun v => (v, .plain)) OrderedMap.empty a vars' b' ids' :=
    exists_inputLayer hnd hnew
  cases hrun.symm.trans h
  simpa [Function.comp_def] using Definitions.map_get? hdefs

/-- The declared inputs and the fixed variables besides them are distinct. -/
theorem nodup_inputs_append (h : f.inputs.Nodup) :
    (f.inputs ++ f.fixedVariables.filter fun v => !f.inputs.contains v).Nodup := by
  have hfixed : f.fixedVariables.Nodup :=
    f.lowerBounds.nodup_keys.sublist (List.filter_sublist.map Prod.fst)
  refine List.nodup_append.2 ⟨h, hfixed.filter _, ?_⟩
  rintro v hv u hu rfl
  simpa [hv] using (List.mem_filter.1 hu).2

omit [Scalar α] in
/-- The ends of the network are the input layer and the last affine layer. -/
theorem ends_of_pairLayers {a : Arena α} {inputs : List NodeId}
    (h : pairLayers a inputs p = .ok n.network.layers) :
    n.network.inputs = inputs ∧ n.network.outputs = p.last := by
  obtain ⟨hidden, -, hlayers⟩ := bind_eq_ok_iff.1 h
  have heq : [inputs.map ([·])] ++ hidden ++ [p.last.map ([·])] = n.network.layers :=
    Except.ok.inj hlayers
  rw [Network.inputs, Network.outputs, ← heq, List.getLast?_append, List.append_assoc,
    List.singleton_append]
  constructor <;> simp [Function.comp_def]

section

variable {s s' : Session α} {inputs : List NodeId} {vars : VarMap NodeId} {a b : Arena α}

/-- The declared inputs stand in front of the other inputs, in their order. -/
theorem Steps.map_get?_inputs (h : f.Steps strict s s' inputs vars a p b n)
    (hnd : f.inputs.Nodup) :
    f.inputs.map n.variableNodes.get? = (n.network.inputs.take n.declaredInputs).map some := by
  have hall := h.rebuilt.run.within.map_get?_eq
    (map_get?_of_inputLayer (nodup_inputs_append hnd) h.inputLayer)
  rw [h.variableNodes, (ends_of_pairLayers h.layers).1, h.declaredInputs, List.map_take, ← hall,
    List.map_append, List.take_left' (List.length_map _)]

/-! ## Outputs -/

variable {vars' d m d' : VarMap NodeId}

/-- In the last round, the variables without a node are those that the last layer is for. -/
theorem Rebuilt.contains_iff_of_last {start a' c e m : Arena α}
    (h : f.Rebuilt strict start inputs vars a p b c n)
    (hround : f.RoundAt strict vars a p b p.hidden.length (p.last, []) vars' a' d m d' e) {v : Nat}
    {id : NodeId} (hv : p.variableNodes.get? v = some id) :
    vars'.contains v = true ↔ id ∉ p.last := by
  rw [VarMap.contains_iff_exists]
  constructor
  · rintro ⟨j, hj⟩ hid
    obtain rfl : j = id := Option.some.inj ((hround.vars_within v j hj).symm.trans hv)
    exact absurd (hround.held v j hj) (Nat.not_lt.2 (hround.round.bounds.1 j hid).1)
  · intro hid
    -- A node of the network is one of the inputs, of an earlier layer or of the last one.
    refine ⟨id, hround.old v id hv ?_⟩
    rcases h.run.placed hv with hfirst | ⟨i, st, hst, hmem⟩
    · exact Nat.lt_of_lt_of_le (h.inputLayer.lt_size hfirst) hround.behind
    · rcases Nat.lt_or_ge i p.hidden.length with hi | hi
      · exact hround.earlier i hi id ⟨st, hst, hmem⟩
      · rw [Passes.stages, List.getElem?_append_right hi, List.getElem?_singleton] at hst
        split at hst
        · cases hst
          exact absurd (hmem.resolve_right (by simp)) hid
        · cases hst

/-- In the last round, the addends that are left are those about outputs. -/
theorem Steps.freshAddends_eq {a' e m : Arena α} (h : f.Steps true s s' inputs vars a p b n)
    (hround : f.RoundAt true vars a p b p.hidden.length (p.last, []) vars' a' d m d' e)
    {q : IpqEquation α} (hq : q ∈ f.equations) :
    freshAddends vars' q = q.addends.filter fun o => f.outputs.contains o.1 := by
  obtain ⟨-, houtput, hlast⟩ := nodes_of_outputsAreLast (h.outputsAreLast rfl)
  refine List.filter_congr fun o ho => ?_
  obtain ⟨id, hid⟩ := exists_get?_of_looseEquation? h.equations q hq o ho
  have hmem : o.1 ∈ f.outputs ↔ id ∈ p.last := by
    constructor
    · intro hout
      obtain ⟨j, hj, hget⟩ := houtput o.1 hout
      rwa [Option.some.inj (hid.symm.trans hget)]
    · intro hj
      obtain ⟨v, hv, hget⟩ := hlast id hj
      rwa [h.rebuilt.names.injective o.1 v id hid hget]
  rw [Bool.eq_iff_iff, Bool.not_eq_true', ← Bool.not_eq_true,
    h.rebuilt.contains_iff_of_last hround hid, not_not, List.contains_iff_mem, hmem]

/-- Where the fresh addends are those about outputs, an equation defines the output it mentions. -/
theorem exists_affineStep_iff {q : IpqEquation α} {v : Nat} (hq : Checked true vars q)
    (hfresh : freshAddends vars q = q.addends.filter fun o => f.outputs.contains o.1) :
    (∃ k, AffineStep vars q v k) ↔ f.definedOutput? q = some v := by
  rw [definedOutput?, ← hfresh]
  constructor
  · rintro ⟨k, -, c, -, hone, -⟩
    rw [hone]
  · intro hdefines
    split at hdefines
    · rename_i u c hone
      obtain rfl : u = v := Option.some.inj hdefines
      have heq := hq.equality rfl
      exact ⟨_, heq, c, hq.coefficient heq u c hone, hone, rfl⟩
    · cases hdefines

/-- The last layer has the nodes of the outputs in the order of their equations, each of them once.
-/
theorem Steps.map_get?_definedOutputs (h : f.Steps true s s' inputs vars a p b n) :
    f.definedOutputs.map n.variableNodes.get? = p.last.map some ∧ p.last.Nodup := by
  by_cases hempty : p.last = []
  · -- Without a last layer there are no outputs.
    obtain ⟨-, houtput, -⟩ := nodes_of_outputsAreLast (h.outputsAreLast rfl)
    have hnone : f.definedOutputs = [] := by
      rw [List.eq_nil_iff_forall_not_mem]
      intro v hv
      obtain ⟨id, hid, -⟩ := houtput v (mem_outputs_of_mem_definedOutputs hv)
      simp [hempty] at hid
    simp [hnone, hempty]
  · have hst : p.stages[p.hidden.length]? = some (p.last, []) := by simp [Passes.stages]
    obtain ⟨vars', a', d, m, d', e, hround⟩ := h.rebuilt.run.exists_roundAt
      (fun _ _ hv => h.rebuilt.inputLayer.lt_size hv) hst (by simpa using hempty)
    have hnodes : f.definedOutputs.map d.get? = p.last.map some :=
      hround.round.affinePass.map_get?_filterMap fun q hq _ v =>
        exists_affineStep_iff (hround.round.checked q hq) (h.freshAddends_eq hround hq)
    refine ⟨?_, hround.round.affinePass.nodup.2⟩
    rw [h.variableNodes]
    exact hround.affine_within.map_get?_eq hnodes

/-- The equations define the declared outputs, each of them once. -/
theorem Steps.definedOutputs_perm (h : f.Steps true s s' inputs vars a p b n) :
    f.definedOutputs.Perm f.outputs := by
  obtain ⟨hnd, houtput, -⟩ := nodes_of_outputsAreLast (h.outputsAreLast rfl)
  obtain ⟨hnodes, hlast⟩ := h.map_get?_definedOutputs
  have hdistinct : f.definedOutputs.Nodup :=
    .of_map _ (hnodes ▸ hlast.map (Option.some_injective _))
  refine (List.perm_ext_iff_of_nodup hdistinct hnd).2 fun v =>
    ⟨mem_outputs_of_mem_definedOutputs, fun hv => ?_⟩
  obtain ⟨id, hid, hget⟩ := houtput v hv
  have hmem : some id ∈ f.definedOutputs.map n.variableNodes.get? :=
    hnodes ▸ List.mem_map_of_mem hid
  obtain ⟨u, hu, hnode⟩ := List.mem_map.1 hmem
  rw [h.variableNodes] at hnode
  rwa [h.rebuilt.names.injective v u id hget hnode]

end

/-- In strict mode, a file with distinct inputs is rebuilt with the declared inputs in front, in
their order, and with the outputs in the order of the equations that define them. So the outputs are
in the declared order exactly when these equations are. -/
theorem outputs_in_declared_order_iff {s s' : Session α} (hinputs : f.inputs.Nodup)
    (h : f.rebuild true s = (.ok n, s')) :
    f.inputs.map n.variableNodes.get? = (n.network.inputs.take n.declaredInputs).map some ∧
      f.definedOutputs.map n.variableNodes.get? = n.network.outputs.map some ∧
      f.definedOutputs.Perm f.outputs ∧
      (f.outputs.map n.variableNodes.get? = n.network.outputs.map some ↔
        f.outputs = f.definedOutputs) := by
  obtain ⟨inputs, vars, a, p, b, hsteps⟩ := steps_of_rebuild h
  have hdefined : f.definedOutputs.map n.variableNodes.get? = n.network.outputs.map some := by
    rw [hsteps.map_get?_definedOutputs.1, (ends_of_pairLayers hsteps.layers).2]
  refine ⟨hsteps.map_get?_inputs hinputs, hdefined, hsteps.definedOutputs_perm, ?_, ?_⟩
  · intro hdeclared
    refine VarMap.map_get?_inj ?_ hdeclared hdefined
    rw [hsteps.variableNodes]
    exact hsteps.rebuilt.names.injective
  · intro heq
    rw [heq, hdefined]

/-- One input, and its double before its copy, both as declared outputs and as equations. -/
def doubledFile : IpqFile Rat where
  variableCount := 3
  inputs := [0]
  outputs := [1, 2]
  lowerBounds := OrderedMap.empty
  upperBounds := OrderedMap.empty
  equations := [⟨.eq, 0, [(0, 2), (1, -1)]⟩, ⟨.eq, 0, [(0, 1), (2, -1)]⟩]
  constraints := []

/-- The outputs of the sample are in the declared order. -/
theorem outputs_in_declared_order_doubled :
    doubledFile.inputs.Nodup ∧ ∃ n s', doubledFile.rebuild true {} = (.ok n, s') ∧
      doubledFile.inputs.map n.variableNodes.get? =
        (n.network.inputs.take n.declaredInputs).map some ∧
      doubledFile.outputs.map n.variableNodes.get? = n.network.outputs.map some := by
  have hinputs : doubledFile.inputs.Nodup := by decide
  obtain ⟨n, s', h, -⟩ : ∃ n s', doubledFile.rebuild true {} = (.ok n, s') ∧ True :=
    exists_rebuild_iff.2 (by decide +kernel)
  obtain ⟨hfirst, -, -, hiff⟩ := outputs_in_declared_order_iff hinputs h
  exact ⟨hinputs, n, s', h, hfirst, hiff.2 (by decide)⟩

/-- The same file with its equations the other way around. -/
def swappedFile : IpqFile Rat :=
  { doubledFile with equations := doubledFile.equations.reverse }

/-- The file declares the double first, and the network that is rebuilt has the copy first. -/
theorem outputs_swapped :
    swappedFile.inputs.Nodup ∧ ∃ n s', swappedFile.rebuild true {} = (.ok n, s') ∧
      swappedFile.outputs.map n.variableNodes.get? = [some 2, some 1] ∧
      n.network.outputs = [1, 2] := by
  refine ⟨by decide, exists_rebuild_iff.2 ?_⟩
  decide +kernel

end IpqFile

end PiecewiseNet
