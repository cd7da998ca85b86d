import PiecewiseNet.Proofs.Evaluation.Networks
import PiecewiseNet.Proofs.Network.Duplication
import PiecewiseNet.Proofs.Solver.Reachability
import PiecewiseNet.Proofs.Solver.Variables

/-!
# Solver queries of copies

What a solver is given does not tell which nodes of an arena a query is about. A copy on other nodes
has its members behind the same numbers, reaches the copies of what the original reaches, and so is
given to the solver in the same tables.

## Main definitions

- `SolverQuery.SameTables`: two solver queries differ in nothing but the members behind the
  variables.

## Main statements

- `Query.Copy.syntheticInputs_eq`: the synthetic inputs of a copy are copies.
- `Query.Copy.sameTables`: a copy of a query has the same tables.
- `Network.exists_duplicate_same_tables`: the duplicate of an accepted network.
-/

namespace PiecewiseNet

variable {α : Type}

/-- The two queries have the same tables; only the members behind the variables may differ. -/
structure SolverQuery.SameTables (e e' : SolverQuery α) : Prop where
  variableCount : e'.variableCount = e.variableCount
  lowerBounds : e'.lowerBounds = e.lowerBounds
  upperBounds : e'.upperBounds = e.upperBounds
  equations : e'.equations = e.equations
  relus : e'.relus = e.relus
  relaxedRelus : e'.relaxedRelus = e.relaxedRelus
  abs : e'.abs = e.abs
  inputVars : e'.inputVars = e.inputVars
  realInputs : e'.realInputs = e.realInputs
  outputVars : e'.outputVars = e.outputVars

/-! ## What is made of one node -/

namespace SolverQuery

variable {t t' : VariableTable} {f : NodeId → NodeId} {n m : Node α}
  (hvar : ∀ r ∈ n.references, t'.varOf (f r) = t.varOf r) (hkind : m.kind = n.kind.redirect f)

include hvar hkind

theorem definitionOf_redirect [Scalar α] (v : Nat) : definitionOf t' v m = definitionOf t v n := by
  rw [Node.references] at hvar
  unfold definitionOf
  rw [hkind]
  cases hk : n.kind with
  | affine terms bias =>
    rw [hk] at hvar
    simp only [NodeKind.redirect, Terms.numbered_redirect t.varOf t'.varOf hvar]
  | _ => rfl

theorem reluOf_redirect (v : Nat) : reluOf t' v m = reluOf t v n := by
  rw [Node.references] at hvar
  unfold reluOf
  rw [hkind]
  cases hk : n.kind with
  | relu input relaxed =>
    rw [hk] at hvar
    simp only [NodeKind.redirect, hvar input (List.mem_singleton.2 rfl)]
  | _ => rfl

theorem relaxedReluOf_redirect (v : Nat) : relaxedReluOf t' v m = relaxedReluOf t v n := by
  rw [Node.references] at hvar
  unfold relaxedReluOf
  rw [hkind]
  cases hk : n.kind with
  | relu input relaxed =>
    rw [hk] at hvar
    cases relaxed with
    | true => simp only [NodeKind.redirect, hvar input (List.mem_singleton.2 rfl)]
    | false => rfl
  | _ => rfl

theorem absOf_redirect (v : Nat) : absOf t' v m = absOf t v n := by
  rw [Node.references] at hvar
  unfold absOf
  rw [hkind]
  cases hk : n.kind with
  | abs input =>
    rw [hk] at hvar
    simp only [NodeKind.redirect, hvar input (List.mem_singleton.2 rfl)]
  | _ => rfl

end SolverQuery

/-! ## What is made of a query -/

namespace Query.Copy

open SolverQuery

variable {q q' : Query α} {a b : Arena α} {f : NodeId → NodeId}

/-- A copy depends on the copies of what its original depends on. -/
theorem dependsOn_iff (h : q.Copy a f q' b) (hq : q.checkIntegrity a = .ok ()) {id i : NodeId}
    (hid : id ∈ q.nodes) (hi : i ∈ q.nodes) :
    b.DependsOn (f id) (f i) ↔ a.DependsOn id i := by
  have hclosed : ∀ j ∈ q.nodes, ∀ r, a.Reads j r → r ∈ q.nodes := by
    intro j hj r hr
    obtain ⟨n, hn, hrefs⟩ := checkIntegrity_eq_ok_iff.1 hq j hj
    exact hrefs ((Arena.reads_iff hn).1 hr)
  constructor
  · intro hdep
    -- Whatever the copy depends on is the copy of something, since the members are closed.
    have hback : ∀ k, b.DependsOn (f id) k → ∃ j ∈ q.nodes, k = f j ∧ a.DependsOn id j := by
      intro k hk
      induction hk with
      | refl => exact ⟨id, hid, rfl, .refl⟩
      | tail _ hread ih =>
        obtain ⟨j, hj, rfl, hdep⟩ := ih
        obtain ⟨r, hr, rfl⟩ := (h.mirrors j hj).reads_iff.1 hread
        exact ⟨r, hclosed j hj r hr, rfl, hdep.tail hr⟩
    obtain ⟨j, hj, heq, hdep⟩ := hback _ hdep
    rwa [h.injOn i hi j hj heq]
  · intro hdep
    induction hdep using Relation.ReflTransGen.head_induction_on with
    | refl => exact .refl
    | head hread _ ih => exact .head ((h.mirrors _ hid).reads hread) (ih (hclosed _ hid _ hread))

variable [Scalar α]

/-- The synthetic inputs of a copy are the copies of the synthetic inputs. -/
theorem syntheticInputs_eq (h : q.Copy a f q' b) (hq : q.checkIntegrity a = .ok ()) :
    syntheticInputs b q' = (syntheticInputs a q).map f := by
  simp only [syntheticInputs]
  rw [h.nodes, List.filter_map]
  refine congrArg _ (List.filter_congr ?_)
  intro id hid
  have hreach : f id ∈ reachable b q' ↔ id ∈ reachable a q := by
    rw [mem_reachable_iff (h.checkIntegrity hq) (h.nodes ▸ List.mem_map_of_mem hid),
      mem_reachable_iff hq hid, h.inputs]
    simp only [List.mem_map, exists_exists_and_eq_and]
    exact exists_congr fun i => and_congr_right fun hi =>
      h.dependsOn_iff hq hid (q.inputs_subset hi)
  obtain ⟨n, m, hn, hm, -, hbounds⟩ := h.mirrors id hid
  simp [hreach, hn, hm, hbounds]

section Tables

variable {e e' : SolverQuery α} (h : q.Copy a f q' b) (htab : e.Tabulates a q)
  (htab' : e'.Tabulates b q')

include h htab

theorem injOn_table : ∀ i ∈ e.table, ∀ j ∈ e.table, f i = f j → i = j :=
  fun i hi j hj => h.injOn i (htab.mem_table_iff.1 hi) j (htab.mem_table_iff.1 hj)

include htab'

/-- The copy of a member stands behind the variable of the member. -/
theorem table_eq : e'.table = e.table.map f := by
  have hinj := h.injOn_table htab
  simp only [htab.table, List.mem_eraseDups] at hinj
  rw [htab'.table, h.inputs, h.nodes, ← List.map_append, htab.table, eraseDups_map hinj]

theorem varOf_eq {id : NodeId} (hid : id ∈ q.nodes) : e'.table.varOf (f id) = e.table.varOf id := by
  rw [h.table_eq htab htab']
  exact ConstraintSystem.idxOf_map (h.injOn_table htab) (htab.mem_table_iff.2 hid)

theorem map_varOf_eq {ids : List NodeId} (hids : ids ⊆ q.nodes) :
    (ids.map f).map e'.table.varOf = ids.map e.table.varOf := by
  rw [List.map_map]
  exact List.map_congr_left fun id hid => h.varOf_eq htab htab' (hids hid)

/-- What is made of each variable depends on the kind of the member behind it, on its bounds and on
the variables of what it reads. -/
theorem filterMap_table (hq : q.checkIntegrity a = .ok ()) {β : Type}
    {F G : Nat → Node α → Option β}
    (hFG : ∀ n m : Node α, (∀ r ∈ n.references, e'.table.varOf (f r) = e.table.varOf r) →
      m.kind = n.kind.redirect f → m.bounds = n.bounds → ∀ v, G v m = F v n) :
    (b.numbered e'.table).filterMap (fun p => G p.1 p.2) =
      (a.numbered e.table).filterMap fun p => F p.1 p.2 := by
  have hmem : ∀ id ∈ e.table, id ∈ q.nodes := fun id => htab.mem_table_iff.1
  rw [h.table_eq htab htab']
  refine Arena.filterMap_numbered_map (fun id hid => h.mirrors id (hmem id hid)) ?_
  intro id hid v n m hn hkind hbounds
  obtain ⟨n', hn', hrefs⟩ := checkIntegrity_eq_ok_iff.1 hq id (hmem id hid)
  obtain rfl := Option.some.inj (hn.symm.trans hn')
  exact hFG n m (fun r hr => h.varOf_eq htab htab' (hrefs hr)) hkind hbounds v

theorem boundsOf_table (hq : q.checkIntegrity a = .ok ()) (side : Interval α → Option α) :
    boundsOf side (b.numbered e'.table) = boundsOf side (a.numbered e.table) := by
  refine congrArg OrderedMap.ofList
    (h.filterMap_table htab htab' hq (F := fun v n => (side n.bounds).map fun x => (v, x))
      (G := fun v n => (side n.bounds).map fun x => (v, x)) ?_)
  intro n m _ _ hbounds v
  rw [hbounds]

theorem map_equationOf_eq :
    q'.equations.map (equationOf e'.table) = q.equations.map (equationOf e.table) := by
  rw [h.equations, List.map_map]
  refine List.map_congr_left fun eq heq => ?_
  simp only [Function.comp_def, equationOf, Equation.redirect]
  rw [Terms.numbered_redirect e.table.varOf e'.table.varOf fun id hid =>
    h.varOf_eq htab htab' (q.terms_subset eq heq hid)]

/-- Two tabulated queries of which one is a copy of the other have the same tables. -/
theorem sameTables_of_tabulates (hq : q.checkIntegrity a = .ok ()) : e.SameTables e' := by
  refine ⟨?_, ?_, ?_, ?_, ?_, ?_, ?_, ?_, ?_, ?_⟩
  · rw [variableCount, variableCount, h.table_eq htab htab', List.length_map]
  · rw [htab'.lowerBounds, htab.lowerBounds, h.boundsOf_table htab htab' hq]
  · rw [htab'.upperBounds, htab.upperBounds, h.boundsOf_table htab htab' hq]
  · rw [htab'.equations, htab.equations, h.map_equationOf_eq htab htab']
    refine congrArg (· ++ _) (h.filterMap_table htab htab' hq ?_)
    exact fun n m hrefs hkind _ => definitionOf_redirect hrefs hkind
  · rw [htab'.relus, htab.relus]
    exact h.filterMap_table htab htab' hq fun n m hrefs hkind _ => reluOf_redirect hrefs hkind
  · rw [htab'.relaxedRelus, htab.relaxedRelus]
    exact h.filterMap_table htab htab' hq fun n m hrefs hkind _ =>
      relaxedReluOf_redirect hrefs hkind
  · rw [htab'.abs, htab.abs]
    exact h.filterMap_table htab htab' hq fun n m hrefs hkind _ => absOf_redirect hrefs hkind
  · have hsynthetic : syntheticInputs a q ⊆ q.nodes := fun id hid => (List.mem_filter.1 hid).1
    rw [htab'.inputVars, htab.inputVars, h.inputs, h.syntheticInputs_eq hq,
      h.map_varOf_eq htab htab' q.inputs_subset, h.map_varOf_eq htab htab' hsynthetic]
  · rw [htab'.realInputs, htab.realInputs, h.inputs, List.length_map]
  · rw [htab'.outputVars, htab.outputVars, h.outputs, h.map_varOf_eq htab htab' q.outputs_subset]

end Tables

/-- A copy of a query is given to the solver in the same tables. -/
theorem sameTables (h : q.Copy a f q' b) (hq : q.checkIntegrity a = .ok ()) :
    ∃ e e', SolverQuery.ofQuery a q = .ok e ∧ SolverQuery.ofQuery b q' = .ok e' ∧
      e'.table = e.table.map f ∧ e.SameTables e' := by
  obtain ⟨e, he, htab⟩ := exists_ofQuery hq
  obtain ⟨e', he', htab'⟩ := exists_ofQuery (h.checkIntegrity hq)
  exact ⟨e, e', he, he', h.table_eq htab htab', h.sameTables_of_tabulates htab htab' hq⟩

end Query.Copy

/-! ## Duplicates of networks -/

namespace Network

variable {net net' : Network} {a b : Arena α} {suffix : String}

/-- Copying nodes one after the other adds a node for each. -/
theorem size_of_copyNodes {ids : List NodeId} {table table' : Substitution}
    (h : (copyNodes suffix ids table).Yields a table' b) : b.size = a.size + ids.length := by
  induction ids generalizing a table with
  | nil =>
    obtain ⟨-, rfl⟩ := Edit.yields_pure.1 h
    rfl
  | cons id ids ih =>
    obtain ⟨copy, c, hcopy, hrest⟩ := Edit.yields_bind.1 h
    obtain ⟨n, -, -, rfl⟩ := Edit.yields_copyNode.1 hcopy
    rw [ih hrest, Arena.size_push, List.length_cons, Nat.add_assoc, Nat.add_comm 1]

/-- A duplicate adds as many nodes as the network has. -/
theorem size_of_duplicate (h : (net.duplicate suffix).Yields a net' b) (hnet : net.WellFormed a) :
    b.size = a.size + net.nodes.length := by
  obtain ⟨table, c, hcopies, h₁⟩ := Edit.yields_bind.1 h
  obtain ⟨u, d, hredirect, h₂⟩ := Edit.yields_bind.1 h₁
  obtain ⟨-, rfl⟩ := Edit.yields_reading.1 h₂
  rw [← Edit.forM_map_redirect] at hredirect
  have hrec := copyNodes_yields hcopies hnet.nodup hnet.held
  have hnd : (net.nodes.map table.apply).Nodup :=
    hnet.nodup.map_on fun i hi j hj => hrec.injOn i hi j hj
  obtain ⟨hsize, -⟩ := Edit.redirectAll_yields hredirect hnd
  rw [hsize, size_of_copyNodes hcopies]

/-- A copy is still a copy when nodes are added to the arena of the original. -/
theorem Copy.of_growsTo {f : NodeId → NodeId} {c : Arena α} (h : net.Copy a f net' b)
    (hnet : net.WellFormed a) (hgrows : a.GrowsTo c) : net.Copy c f net' b :=
  ⟨h.layers, h.injOn, fun id hid =>
    (h.mirrors id hid).of_get?_eq (hgrows.get? id (hnet.held id hid)) rfl⟩

/-- An accepted network has a duplicate, which is a copy of it on new nodes, one for each. Asked for
a run of the network or of its duplicate, whatever was added to the arena, a solver is given the
same tables, and so is the evaluation unless it refuses an absolute value of the network and its
copy. -/
theorem exists_duplicate_same_tables [Scalar α] (hnet : net.Accepted a) (suffix : String) :
    ∃ net' b f, (net.duplicate suffix).Yields a net' b ∧
      b.size = a.size + net.nodes.length ∧ (∀ id < a.size, b.get? id = a.get? id) ∧
      (∀ id ∈ net'.nodes, a.size ≤ id ∧ id < b.size) ∧
      net'.Accepted b ∧ net'.nodes = net.nodes.map f ∧ net.Copy a f net' b ∧
      ∀ c, a.GrowsTo c → ∃ q q', net.toQuery = .ok q ∧ net'.toQuery = .ok q' ∧
        (∃ e e', SolverQuery.ofQuery c q = .ok e ∧ SolverQuery.ofQuery b q' = .ok e' ∧
          e'.table = e.table.map f ∧ e.SameTables e') ∧
        ((∃ s s', ConstraintSystem.ofQuery c q = .ok s ∧ ConstraintSystem.ofQuery b q' = .ok s' ∧
            s'.ids = s.ids.map f ∧ s.SameTables s') ∨
          ∃ id ∈ net.nodes,
            ConstraintSystem.ofQuery c q = .error (.unsupportedKind "abs" (c.name id)) ∧
              ConstraintSystem.ofQuery b q' =
                .error (.unsupportedKind "abs" (b.name (f id)))) := by
  rw [accepted_iff] at hnet
  obtain ⟨net', b, hdup⟩ := exists_duplicate suffix hnet
  obtain ⟨f, hcopy, hfresh, hgrows, hwell⟩ := duplicate_yields hdup hnet.nodup hnet.held
  refine ⟨net', b, f, hdup, size_of_duplicate hdup hnet, hgrows.get?, ?_, accepted_iff.2 hwell,
    hcopy.nodes_eq, hcopy, ?_⟩
  · intro id hid
    refine ⟨?_, hwell.held id hid⟩
    rw [hcopy.nodes_eq, List.mem_map] at hid
    obtain ⟨j, hj, rfl⟩ := hid
    exact hfresh j hj
  · intro c hc
    -- The original may be lowered from the arena before the call or from any later one.
    have hnet' := hc.wellFormed hnet
    obtain ⟨q, q', hq, hq', hcopies⟩ := (hcopy.of_growsTo hnet hc).exists_toQuery hnet'
    have hcheck := hnet'.checkIntegrity_toQuery hq
    obtain ⟨q₀, hq₀, hnodes, -⟩ := exists_toQuery hnet'
    obtain rfl := Except.ok.inj (hq.symm.trans hq₀)
    refine ⟨q, q', hq, hq', hcopies.sameTables hcheck, ?_⟩
    rw [← hnodes]
    exact hcopies.lowered_or_refused hcheck

/-- A network with a term that is repeated, a reference that skips a layer, an input whose bounds
coincide and a rectifier marked for a relaxation. -/
def skipping : Network :=
  ⟨[[[0], [1]], [[2, 3]], [[4]]]⟩

/-- The nodes of the network. -/
def skippingArena : Arena Rat :=
  ⟨#[{ kind := .plain, bounds := ⟨some (-1), some 1⟩ },
    { kind := .plain, bounds := ⟨some 2, some 2⟩ }, { kind := .affine [(1, 0), (1, 0), (2, 1)] 1 },
    { kind := .relu 2 true }, { kind := .affine [(1, 3), (-1, 0)] 0 }]⟩

/-- The duplicate of this network takes five places more, and a solver is given the same tables. -/
theorem exists_duplicate_same_tables_skipping :
    skipping.Accepted skippingArena ∧ ∃ net' b q q' e e',
      (skipping.duplicate "_dup").Yields skippingArena net' b ∧ b.size = 10 ∧
        skipping.toQuery = .ok q ∧ net'.toQuery = .ok q' ∧
          SolverQuery.ofQuery skippingArena q = .ok e ∧ SolverQuery.ofQuery b q' = .ok e' ∧
            e.SameTables e' := by
  have haccepted : skipping.Accepted skippingArena := by rfl
  obtain ⟨net', b, f, hdup, hsize, -, -, -, -, -, htables⟩ :=
    exists_duplicate_same_tables haccepted "_dup"
  obtain ⟨q, q', hq, hq', ⟨e, e', he, he', -, hsame⟩, -⟩ := htables skippingArena (.refl _)
  exact ⟨haccepted, net', b, q, q', e, e', hdup, hsize, hq, hq', he, he', hsame⟩

end Network

end PiecewiseNet
