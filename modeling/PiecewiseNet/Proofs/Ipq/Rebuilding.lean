import PiecewiseNet.Proofs.Ipq.Rounds

/-!
# Networks of query files

What a file that is rebuilt as a network went through: the input layer, the rounds, the bounds of
the file and the pairing of rectifiers with the affine nodes they read.

## Main definitions

- `IpqFile.Rebuilt`: the stages of a reconstruction.
- `IpqFile.Steps`: the steps of a reconstruction with all checks.

## Main statements

- `IpqFile.limitAll_yields`: every variable's node has the bounds of the file besides its own.
- `IpqFile.steps_of_rebuild`, `IpqFile.rebuilt_of_rebuild`: a file that is rebuilt went through all
  steps.
- `IpqFile.Rebuilt.get?_eq_limited`: the node that a variable has in the end.
-/

namespace PiecewiseNet

namespace IpqFile

variable {α : Type} [Scalar α] {strict : Bool} {stem : String} {f : IpqFile α}

/-- The node narrowed to the bounds that a file has for a variable. -/
def limited (f : IpqFile α) (v : Nat) (n : Node α) : Node α :=
  { n with bounds := n.bounds.narrowed (f.lowerBounds.get? v) (f.upperBounds.get? v) }

/-- The node of every listed variable is narrowed to the bounds of the file, and no other node is
changed. -/
theorem limitAll_yields {es : List (Nat × NodeId)} {a b : Arena α} {u : Unit}
    (h : (limitAll f es).Yields a u b) (hnd : (es.map Prod.snd).Nodup) :
    (∀ e ∈ es, ∃ n, a.get? e.2 = some n ∧ b.get? e.2 = some (f.limited e.1 n)) ∧
      ∀ id, id ∉ es.map Prod.snd → b.get? id = a.get? id := by
  induction es generalizing a with
  | nil =>
    obtain ⟨-, rfl⟩ := Edit.yields_pure.1 h
    exact ⟨by simp, fun _ _ => rfl⟩
  | cons e es ih =>
    obtain ⟨v, id⟩ := e
    rw [List.map_cons, List.nodup_cons] at hnd
    obtain ⟨_, c, hlimit, hrest⟩ := Edit.yields_bind.1 h
    obtain ⟨n, hn, -, rfl⟩ := Edit.yields_limit.1 (Edit.yields_adapt.1 hlimit)
    obtain ⟨hlisted, hother⟩ := ih hrest hnd.2
    have hself : (a.set id (f.limited v n)).get? id = some (f.limited v n) := by
      rw [Arena.get?_set, if_pos ⟨rfl, Arena.lt_size_of_get? hn⟩]
    -- No node is listed twice, so the rest of the list leaves the first node alone.
    refine ⟨List.forall_mem_cons.2 ⟨⟨n, hn, (hother id hnd.1).trans hself⟩, ?_⟩, ?_⟩
    · intro e he
      obtain ⟨m, hm, hb⟩ := hlisted e he
      rw [Arena.get?_set, if_neg] at hm
      · exact ⟨m, hm, hb⟩
      · rintro ⟨heq, -⟩
        exact hnd.1 (List.mem_map.2 ⟨e, he, heq.symm⟩)
    · intro j hj
      rw [List.map_cons, List.mem_cons, not_or] at hj
      rw [hother j hj.2, Arena.get?_set, if_neg fun heq => hj.1 heq.1.symm]

/-- The stages of a reconstruction: the input layer with the table `vars`, the rounds, the bounds of
the file, and the layers. -/
structure Rebuilt (f : IpqFile α) (strict : Bool) (start : Arena α) (inputs : List NodeId)
    (vars : VarMap NodeId) (a : Arena α) (p : Passes) (b c : Arena α) (n : IpqNetwork) : Prop where
  inputLayer : start.Names a vars fun _ k => k = .plain
  inputs_lt : ∀ id ∈ inputs, id < a.size
  mem_inputs : ∀ v id, vars.get? v = some id → id ∈ inputs
  run : f.Run strict vars a p b
  limits : (limitAll f p.variableNodes.entries).Yields b () c
  layers : pairLayers c inputs p = .ok n.network.layers
  variableNodes : n.variableNodes = p.variableNodes

/-- The steps that rebuild a file, in their order: each one succeeds, and each check passes. -/
structure Steps (f : IpqFile α) (strict : Bool) (s s' : Session α) (inputs : List NodeId)
    (vars : VarMap NodeId) (a : Arena α) (p : Passes) (b : Arena α) (n : IpqNetwork) : Prop where
  inputLayer : (inputLayer s.names.ipq.1 0
    (f.inputs ++ f.fixedVariables.filter fun v => !f.inputs.contains v) OrderedMap.empty).Yields
      s.arena (inputs, vars) a
  passes : (buildLayers f strict s.names.ipq.1 (f.constraints.length + 1) 1 vars).Yields a p b
  outputsAreLast : strict = true → f.outputsAreLast p = true
  relus : looseRelu? p.variableNodes f.constraints = none
  equations : looseEquation? p.variableNodes 0 f.equations = none
  limits : (limitAll f p.variableNodes.entries).Yields b () s'.arena
  layers : pairLayers s'.arena inputs p = .ok n.network.layers
  declaredInputs : n.declaredInputs = f.inputs.length
  variableNodes : n.variableNodes = p.variableNodes

/-- A file that is rebuilt went through all steps. -/
theorem steps_of_rebuild {s s' : Session α} {n : IpqNetwork}
    (h : f.rebuild strict s = (.ok n, s')) :
    ∃ inputs vars a p b, f.Steps strict s s' inputs vars a p b n := by
  unfold rebuild at h
  split at h
  · cases h
  · have hrun : (f.rebuildWith strict s.names.ipq.1).Yields s.arena n s'.arena := by
      cases hr : (f.rebuildWith strict s.names.ipq.1).run s.arena with
      | mk r a =>
        simp only [hr, Prod.mk.injEq] at h
        obtain ⟨rfl, rfl⟩ := h
        exact hr
    obtain ⟨⟨inputs, vars⟩, a, hinputs, hbuild⟩ := Edit.yields_bind.1 hrun
    obtain ⟨p, b, hpasses, hclose⟩ := Edit.yields_bind.1 hbuild
    dsimp only at hclose
    by_cases hwrong : (strict && !f.outputsAreLast p) = true
    · rw [if_pos hwrong] at hclose
      obtain ⟨_, _, hthrow, -⟩ := Edit.yields_bind.1 hclose
      exact absurd hthrow Edit.not_yields_throw
    · rw [if_neg hwrong] at hclose
      split at hclose
      · exact absurd hclose Edit.not_yields_throw
      · rename_i hrelus
        split at hclose
        · exact absurd hclose Edit.not_yields_throw
        · rename_i hequations
          obtain ⟨⟨⟩, c, hlimits, hpair⟩ := Edit.yields_bind.1 hclose
          obtain ⟨layers, c', hlayers, hnew⟩ := Edit.yields_bind.1 hpair
          obtain ⟨hpaired, rfl⟩ := Edit.yields_reading.1 hlayers
          obtain ⟨network, c'', hnetwork, hreturn⟩ := Edit.yields_bind.1 hnew
          obtain ⟨hchecked, rfl⟩ := Edit.yields_reading.1 (Edit.yields_adapt.1 hnetwork)
          obtain ⟨rfl, harena⟩ := Edit.yields_pure.1 hreturn
          obtain ⟨rfl, -⟩ := Network.new_eq_ok_iff.1 hchecked
          exact ⟨inputs, vars, a, p, b, hinputs, hpasses, by simpa using hwrong, hrelus, hequations,
            harena ▸ hlimits, harena ▸ hpaired, rfl, rfl⟩

theorem Steps.rebuilt {s s' : Session α} {inputs : List NodeId} {vars : VarMap NodeId}
    {a b : Arena α} {p : Passes} {n : IpqNetwork} (h : f.Steps strict s s' inputs vars a p b n) :
    f.Rebuilt strict s.arena inputs vars a p b s'.arena n := by
  obtain ⟨hplain, -, hlt, hmem⟩ := names_of_inputLayer h.inputLayer (.empty s.arena _)
  exact ⟨hplain, hlt, fun v id hv => (hmem v id hv).resolve_left (by simp),
    run_of_buildLayers h.passes, h.limits, h.layers, h.variableNodes⟩

/-- A file that is rebuilt went through all stages. -/
theorem rebuilt_of_rebuild {s s' : Session α} {n : IpqNetwork}
    (h : f.rebuild strict s = (.ok n, s')) :
    ∃ inputs vars a p b, f.Rebuilt strict s.arena inputs vars a p b s'.arena n := by
  obtain ⟨inputs, vars, a, p, b, hsteps⟩ := steps_of_rebuild h
  exact ⟨inputs, vars, a, p, b, hsteps.rebuilt⟩

/-- Every variable has a node of its own. -/
theorem Rebuilt.names {start a b c : Arena α} {inputs : List NodeId} {vars : VarMap NodeId}
    {p : Passes} {n : IpqNetwork} (h : f.Rebuilt strict start inputs vars a p b c n) :
    start.Names b p.variableNodes fun _ _ => True :=
  h.run.names (h.inputLayer.imp fun _ _ _ => trivial) (fun _ _ _ _ _ _ _ => trivial)
    fun _ _ _ _ _ _ _ => trivial

/-- The node of a variable is the one that it got in the rounds, narrowed to the bounds of the file.
-/
theorem Rebuilt.get?_eq_limited {start a b c : Arena α} {inputs : List NodeId}
    {vars : VarMap NodeId} {p : Passes} {n : IpqNetwork} {q : Nat → NodeKind α → Prop}
    (h : f.Rebuilt strict start inputs vars a p b c n) (hq : start.Names b p.variableNodes q)
    {v : Nat} {id : NodeId} (hv : n.variableNodes.get? v = some id) :
    ∃ m, m.bounds = .unbounded ∧ q v m.kind ∧ b.get? id = some m ∧
      c.get? id = some (f.limited v m) := by
  rw [h.variableNodes] at hv
  obtain ⟨m, hm, hlimited⟩ :=
    (limitAll_yields h.limits hq.nodup_nodes).1 _ (VarMap.get?_eq_some_iff.1 hv)
  obtain ⟨-, m', hm', hbounds, hkind⟩ := hq.node v id hv
  obtain rfl : m' = m := by simpa [hm'] using hm
  exact ⟨m', hbounds, hkind, hm', hlimited⟩

/-- Whether a file is rebuilt as a network of some kind can be seen by rebuilding it. -/
theorem exists_rebuild_iff {s : Session α} {q : IpqNetwork → Session α → Prop}
    [∀ n s', Decidable (q n s')] :
    (∃ n s', f.rebuild strict s = (.ok n, s') ∧ q n s') ↔
      (match f.rebuild strict s with
        | (.ok n, s') => decide (q n s')
        | (.error _, _) => false) = true := by
  cases hrun : f.rebuild strict s with
  | mk r s' =>
    cases r with
    | error err => simp
    | ok n =>
      simp only [Prod.mk.injEq, Except.ok.injEq, decide_eq_true_eq]
      constructor
      · rintro ⟨n', s'', ⟨rfl, rfl⟩, hq⟩
        exact hq
      · exact fun hq => ⟨n, s', ⟨rfl, rfl⟩, hq⟩

end IpqFile

end PiecewiseNet
