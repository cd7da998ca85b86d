import PiecewiseNet.Proofs.Ipq.Layering
import PiecewiseNet.Proofs.Ipq.Solutions
import PiecewiseNet.Proofs.Network.Checking

/-!
# Records that a rebuilt network keeps

A network keeps the records that define its nodes: wherever the nodes satisfy their definitions,
these records hold of the values of the variables. The layers show which records define nodes. An
equation defines the affine node of a variable if all its other addends are about variables in
earlier layers. A rectifier defines the node of its output if that is a rectifier and the input has
an affine node of the same layer, unless an earlier record for this output is like that. Every
affine node and every rectifier of a variable is defined by a record; the records that are left over
are dropped.

## Main definitions

- `IpqNetwork.Defines`, `IpqNetwork.Rectifies`: when a record defines a node.

## Main statements

- `IpqFile.records_kept`: records that define nodes hold, and every node of a variable that is not
  an input is defined by one.
- `IpqFile.rebuild_drops_records`: other records need not hold, also in strict mode.
-/

namespace PiecewiseNet

variable {α : Type}

/-- The node is an affine combination. -/
def Arena.IsAffine (a : Arena α) (id : NodeId) : Prop :=
  ∃ n, a.get? id = some n ∧ ∃ terms bias, n.kind = .affine terms bias

/-- The node is a rectifier. -/
def Arena.IsRectifier (a : Arena α) (id : NodeId) : Prop :=
  ∃ n, a.get? id = some n ∧ ∃ input relaxed, n.kind = .relu input relaxed

namespace IpqNetwork

/-- The node of the variable lies in the layer. -/
def Places (n : IpqNetwork) (v layer : Nat) (id : NodeId) : Prop :=
  n.variableNodes.get? v = some id ∧ ∃ chain, n.network.Lies layer chain id

/-- The variable has an affine node and stands in one addend of the equation; all other addends are
about variables with nodes in earlier layers. -/
def Defines (n : IpqNetwork) (a : Arena α) (e : IpqEquation α) (v : Nat) : Prop :=
  ∃ l coefficient r layer id, e.addends = l ++ (v, coefficient) :: r ∧ n.Places v layer id ∧
    a.IsAffine id ∧ ∀ other ∈ l ++ r, ∃ earlier < layer, ∃ j, n.Places other.1 earlier j

/-- The variable `g` has a rectifier, and the variable `b` an affine node in the layer of this
rectifier. -/
def Rectifies (n : IpqNetwork) (a : Arena α) (g b : Nat) : Prop :=
  ∃ layer id j, n.Places g layer id ∧ a.IsRectifier id ∧ n.Places b layer j ∧ a.IsAffine j

end IpqNetwork

namespace IpqFile

variable {f : IpqFile Rat} {strict : Bool} {start a b c : Arena Rat} {inputs : List NodeId}
  {vars : VarMap NodeId} {p : Passes} {n : IpqNetwork} {v layer : Nat} {id : NodeId}

/-! ## Kinds of nodes -/

/-- The kind of a variable's node does not change. -/
theorem Rebuilt.kind_eq (h : f.Rebuilt strict start inputs vars a p b c n)
    (hv : n.variableNodes.get? v = some id) {m m' : Node Rat} (hb : b.get? id = some m)
    (hc : c.get? id = some m') : m'.kind = m.kind := by
  obtain ⟨k, -, -, hk, hlimited⟩ := h.get?_eq_limited h.names hv
  obtain rfl : k = m := by simpa [hk] using hb
  obtain rfl : f.limited v k = m' := by simpa [hlimited] using hc
  rfl

theorem Rebuilt.kind_of_places_zero (h : f.Rebuilt strict start inputs vars a p b c n)
    (hv : n.Places v 0 id) {m : Node Rat} (hm : c.get? id = some m) : m.kind = .plain := by
  obtain ⟨hget, chain, hlies⟩ := hv
  have hlt := h.inputs_lt id (h.mem_inputs_of_lies hlies)
  have hold : vars.get? v = some id :=
    h.run.get?_of_lt (h.variableNodes ▸ hget) hlt
  obtain ⟨-, k, hk, -, hplain⟩ := h.inputLayer.node v id hold
  rw [h.kind_eq hget ((h.run.grows.get? id hlt).trans hk) hm]
  exact hplain

theorem Rebuilt.exists_layer_of_isAffine (h : f.Rebuilt strict start inputs vars a p b c n)
    (hv : n.Places v layer id) (haffine : c.IsAffine id) : ∃ l, layer = l + 1 := by
  refine Nat.exists_eq_succ_of_ne_zero ?_
  rintro rfl
  obtain ⟨k, hk, _, _, hkind⟩ := haffine
  rw [h.kind_of_places_zero hv hk] at hkind
  cases hkind

theorem Rebuilt.exists_layer_of_isRectifier (h : f.Rebuilt strict start inputs vars a p b c n)
    (hv : n.Places v layer id) (hrectifier : c.IsRectifier id) : ∃ l, layer = l + 1 := by
  refine Nat.exists_eq_succ_of_ne_zero ?_
  rintro rfl
  obtain ⟨k, hk, _, _, hkind⟩ := hrectifier
  rw [h.kind_of_places_zero hv hk] at hkind
  cases hkind

/-- The node of a variable in a later layer was added in the round of that layer. -/
theorem Rebuilt.exists_roundAt (h : f.Rebuilt strict start inputs vars a p b c n) {l : Nat}
    (hv : n.Places v (l + 1) id) :
    ∃ st vars' a' d m d' e, p.stages[l]? = some st ∧
      f.RoundAt strict vars a p b l st vars' a' d m d' e ∧
        (id ∈ st.1 ∨ id ∈ st.2.map Prod.snd) := by
  obtain ⟨-, chain, hlies⟩ := hv
  obtain ⟨st, hst, hid⟩ := h.adds_of_lies hlies
  have hne : st ≠ ([], []) := by
    rintro rfl
    simp at hid
  obtain ⟨vars', a', d, m, d', e, hround⟩ :=
    h.run.exists_roundAt (fun _ _ hv => h.inputLayer.lt_size hv) hst hne
  exact ⟨st, vars', a', d, m, d', e, hst, hround, hid⟩

/-! ## Variables of a round -/

variable {l : Nat} {st : List NodeId × List (NodeId × NodeId)} {vars' d d' : VarMap NodeId}
  {a' m e : Arena Rat}

/-- A variable with a node in an earlier layer had that node when the round began. -/
theorem Rebuilt.get?_of_places (h : f.Rebuilt strict start inputs vars a p b c n)
    (hround : f.RoundAt strict vars a p b l st vars' a' d m d' e) (hlt : layer < l + 1)
    (hv : n.Places v layer id) : vars'.get? v = some id := by
  obtain ⟨hget, chain, hlies⟩ := hv
  refine hround.old v id (h.variableNodes ▸ hget) ?_
  cases layer with
  | zero =>
    exact Nat.lt_of_lt_of_le (h.inputs_lt id (h.mem_inputs_of_lies hlies)) hround.behind
  | succ i => exact hround.earlier i (Nat.lt_of_succ_lt_succ hlt) id (h.adds_of_lies hlies)

/-- The other way around, a variable with a node when the round began has it in an earlier layer. -/
theorem Rebuilt.exists_places_of_get? (h : f.Rebuilt strict start inputs vars a p b c n)
    (hround : f.RoundAt strict vars a p b l st vars' a' d m d' e) (hv : vars'.get? v = some id) :
    ∃ earlier < l + 1, n.Places v earlier id := by
  have hget : n.variableNodes.get? v = some id := by
    rw [h.variableNodes]
    exact hround.vars_within v id hv
  rcases hround.placed v id hv with hfirst | ⟨i, hi, hid⟩
  · exact ⟨0, Nat.succ_pos l, hget, [id], h.lies_zero hfirst⟩
  · exact ⟨i + 1, Nat.succ_lt_succ hi, hget, h.lies_of_adds hid⟩

theorem Rebuilt.exists_places (h : f.Rebuilt strict start inputs vars a p b c n)
    (hv : n.variableNodes.get? v = some id) : ∃ layer, n.Places v layer id := by
  rcases h.run.placed (h.variableNodes ▸ hv) with hfirst | ⟨i, hid⟩
  · exact ⟨0, hv, [id], h.lies_zero hfirst⟩
  · exact ⟨i + 1, hv, h.lies_of_adds hid⟩

/-- A variable with an affine node of the round was defined by an equation. -/
theorem Rebuilt.affine_of_mem (h : f.Rebuilt strict start inputs vars a p b c n)
    (hround : f.RoundAt strict vars a p b l st vars' a' d m d' e)
    (hv : n.variableNodes.get? v = some id)
    (hid : id ∈ st.1) :
    d.get? v = some id ∧ vars'.get? v = none ∧ ∀ k, c.get? id = some k →
      ∃ r ∈ f.equations, AffineStep vars' r v k.kind := by
  obtain ⟨u, hu⟩ := hround.round.affinePass.exists_get?_iff.2 (.inr hid)
  obtain rfl : u = v :=
    h.names.injective u v id (hround.affine_within u id hu) (h.variableNodes ▸ hv)
  obtain ⟨-, k, hk, -, hnone, hstep⟩ := hround.round.affineNames.node u id hu
  refine ⟨hu, hnone, ?_⟩
  intro k' hk'
  have hgrows := hround.round.reluPass.grows.trans hround.grows
  rw [h.kind_eq hv (hgrows.get?_eq_some hk) hk']
  exact hstep

/-- A variable with a rectifier of the round was defined by a constraint. -/
theorem Rebuilt.relu_of_mem (h : f.Rebuilt strict start inputs vars a p b c n)
    (hround : f.RoundAt strict vars a p b l st vars' a' d m d' e)
    (hv : n.variableNodes.get? v = some id)
    (hid : id ∈ st.2.map Prod.snd) :
    d'.get? v = some id ∧ (vars'.insertAll d.entries).get? v = none ∧ ∃ g input k,
      .relu v g ∈ f.constraints ∧ (vars'.insertAll d.entries).get? g = some input ∧
        e.get? id = some k ∧ k.kind = .relu input false := by
  obtain ⟨u, hu⟩ := hround.round.reluPass.exists_get?_iff.2 (.inr hid)
  obtain rfl : u = v :=
    h.names.injective u v id (hround.relu_within u id hu) (h.variableNodes ▸ hv)
  obtain ⟨-, k, hk, -, hnone, g, input, hg, hinput, hkind⟩ := hround.round.reluNames.node u id hu
  exact ⟨hu, hnone, g, input, k, hg, hinput, hk, hkind⟩

/-- An affine node of a round is not a rectifier. -/
theorem Rebuilt.mem_affine (h : f.Rebuilt strict start inputs vars a p b c n)
    (hround : f.RoundAt strict vars a p b l st vars' a' d m d' e)
    (hv : n.variableNodes.get? v = some id)
    (hid : id ∈ st.1 ∨ id ∈ st.2.map Prod.snd) (haffine : c.IsAffine id) : id ∈ st.1 := by
  refine hid.resolve_right fun hid => ?_
  obtain ⟨-, -, _, input, k, -, -, hk, hkind⟩ := h.relu_of_mem hround hv hid
  obtain ⟨k', hk', _, _, hkind'⟩ := haffine
  rw [h.kind_eq hv (hround.grows.get?_eq_some hk) hk', hkind] at hkind'
  cases hkind'

theorem Rebuilt.mem_relus (h : f.Rebuilt strict start inputs vars a p b c n)
    (hround : f.RoundAt strict vars a p b l st vars' a' d m d' e)
    (hv : n.variableNodes.get? v = some id)
    (hid : id ∈ st.1 ∨ id ∈ st.2.map Prod.snd) (hrectifier : c.IsRectifier id) :
    id ∈ st.2.map Prod.snd := by
  refine hid.resolve_left fun hid => ?_
  obtain ⟨k, hk, _, _, hkind⟩ := hrectifier
  obtain ⟨-, -, hstep⟩ := h.affine_of_mem hround hv hid
  obtain ⟨r, -, -, coefficient, -, -, hdefinition⟩ := hstep k hk
  rw [hdefinition] at hkind
  cases hkind

/-! ## Kept records -/

variable {x : Nat → Rat} {w : Valuation Rat}

/-- Where the nodes of the network satisfy their definitions, so does the node of a variable. -/
theorem eq_value_of_runs (hw : n.network.Runs c w) (hx : n.variableNodes.Carries w x)
    (hv : n.Places v layer id) :
    ∃ k, c.get? id = some k ∧ x v = k.kind.value w (x v) := by
  obtain ⟨hget, chain, hlies⟩ := hv
  have hmem : id ∈ n.network.nodes := by
    obtain ⟨l, hl, hchain, hid⟩ := hlies
    exact List.mem_flatten.2 ⟨chain, List.mem_flatten.2 ⟨l, List.mem_of_getElem? hl, hchain⟩, hid⟩
  obtain ⟨k, hk, hholds⟩ := hw id hmem
  refine ⟨k, hk, ?_⟩
  rw [← hx v id hget]
  exact hholds.value

/-- An equation that defines a node holds. -/
theorem Rebuilt.equation_holds (h : f.Rebuilt true start inputs vars a p b c n)
    (hw : n.network.Runs c w) (hx : n.variableNodes.Carries w x) {r : IpqEquation Rat}
    (hr : r ∈ f.equations) (hdefines : n.Defines c r v) : r.Holds x := by
  obtain ⟨before, coefficient, behind, layer, id, haddends, hplace, haffine, hothers⟩ := hdefines
  obtain ⟨l, rfl⟩ := h.exists_layer_of_isAffine hplace haffine
  obtain ⟨st, vars', a', d, m, d', e, -, hround, hid⟩ := h.exists_roundAt hplace
  obtain ⟨hd, hnone, -⟩ :=
    h.affine_of_mem hround hplace.1 (h.mem_affine hround hplace.1 hid haffine)
  -- The variable is the only one that is fresh in the round, so the pass took the equation.
  have hfresh : freshAddends vars' r = [(v, coefficient)] := by
    refine freshAddends_eq_singleton_iff.2 ⟨before, behind, haddends, hnone, ?_⟩
    intro other hother
    obtain ⟨earlier, hlt, j, hj⟩ := hothers other hother
    exact ⟨j, h.get?_of_places hround hlt hj⟩
  have hchecked := hround.round.checked r hr
  have heq := hchecked.equality rfl
  have hnonzero := hchecked.coefficient heq v coefficient hfresh
  obtain ⟨es, es', hes⟩ := List.append_of_mem hr
  have hpass := hround.round.affinePass
  rw [hes] at hpass
  obtain ⟨_, _, _, -, -, -, hdid⟩ := hpass.at_record
  rcases hdid with hskip | ⟨v', k', id', k, ⟨-, c', -, hfresh', hk'⟩, hv', hm, hkind⟩
  · exact absurd ⟨heq, coefficient, hnonzero, hfresh, rfl⟩
      (hskip v (definition vars' r v coefficient))
  · rw [hfresh] at hfresh'
    cases hfresh'
    obtain rfl : id' = id := by simpa [hd] using hv'.symm
    obtain ⟨k'', hk'', hvalue⟩ := eq_value_of_runs hw hx hplace
    have hgrows := hround.round.reluPass.grows.trans hround.grows
    rw [h.kind_eq hplace.1 (hgrows.get?_eq_some hm) hk'', hkind, hk'] at hvalue
    rw [h.variableNodes] at hx
    exact (holds_iff_eq_value heq hfresh (by simpa using hnonzero)
      (carries_of_within hround.vars_within hx)).2 hvalue

theorem Rebuilt.exists_defines (h : f.Rebuilt strict start inputs vars a p b c n)
    (hv : n.variableNodes.get? v = some id) (haffine : c.IsAffine id) :
    ∃ r ∈ f.equations, n.Defines c r v := by
  obtain ⟨layer, hplace⟩ := h.exists_places hv
  obtain ⟨l, rfl⟩ := h.exists_layer_of_isAffine hplace haffine
  obtain ⟨st, vars', a', d, m, d', e, -, hround, hid⟩ := h.exists_roundAt hplace
  obtain ⟨-, -, hstep⟩ := h.affine_of_mem hround hv (h.mem_affine hround hv hid haffine)
  have ⟨k, hk, _⟩ := haffine
  obtain ⟨r, hr, -, coefficient, -, hfresh, -⟩ := hstep k hk
  obtain ⟨before, behind, haddends, -, hothers⟩ := freshAddends_eq_singleton_iff.1 hfresh
  refine ⟨r, hr, before, coefficient, behind, l + 1, id, haddends, hplace, haffine, ?_⟩
  intro other hother
  obtain ⟨j, hj⟩ := hothers other hother
  obtain ⟨earlier, hlt, hplaces⟩ := h.exists_places_of_get? hround hj
  exact ⟨earlier, hlt, j, hplaces⟩

/-- What a rectifier of a round reads is an affine node of the layer. -/
theorem Rebuilt.rectifies_of_reads (h : f.Rebuilt strict start inputs vars a p b c n)
    (hround : f.RoundAt strict vars a p b l st vars' a' d m d' e) (hst : p.stages[l]? = some st)
    {g u : Nat}
    (hg : n.Places g (l + 1) id) (hrectifier : c.IsRectifier id) (hid : id ∈ st.2.map Prod.snd)
    {k : Node Rat} {input : NodeId} (hk : e.get? id = some k) (hkind : k.kind = .relu input false)
    (hu : (vars'.insertAll d.entries).get? u = some input) : n.Rectifies c g u := by
  have hmem : input ∈ st.1 := by
    obtain ⟨r, hr, rfl⟩ := List.mem_map.1 hid
    obtain ⟨k', hk', hread⟩ := hround.round.reads r hr
    obtain rfl : k' = k := by simpa [hk] using hk'.symm
    rw [hread] at hkind
    cases hkind
    exact h.paired hst r hr
  have hget : n.variableNodes.get? u = some input := by
    rw [h.variableNodes]
    exact hround.middle_within u input hu
  obtain ⟨k', -, -, -, hfinal⟩ := h.get?_eq_limited h.names hget
  obtain ⟨-, -, hstep⟩ := h.affine_of_mem hround hget hmem
  obtain ⟨r, -, -, coefficient, -, -, hdefinition⟩ := hstep _ hfinal
  exact ⟨l + 1, id, input, hg, hrectifier, ⟨hget, h.lies_of_adds ⟨st, hst, .inl hmem⟩⟩,
    _, hfinal, _, _, hdefinition⟩

/-- A rectifier that defines a node holds. -/
theorem Rebuilt.relu_holds (h : f.Rebuilt strict start inputs vars a p b c n)
    (hw : n.network.Runs c w) (hx : n.variableNodes.Carries w x) {cs cs' : List IpqConstraint}
    {g u : Nat} (hcs : f.constraints = cs ++ .relu g u :: cs') (hrectifies : n.Rectifies c g u)
    (hfirst : ∀ u', .relu g u' ∈ cs → ¬n.Rectifies c g u') :
    (IpqConstraint.relu g u).Holds x := by
  obtain ⟨layer, id, j, hg, hrectifier, hu, haffine⟩ := hrectifies
  obtain ⟨l, rfl⟩ := h.exists_layer_of_isRectifier hg hrectifier
  obtain ⟨st, vars', a', d, m, d', e, hst, hround, hid⟩ := h.exists_roundAt hg
  have hidRelu := h.mem_relus hround hg.1 hid hrectifier
  have hjAffine : j ∈ st.1 := by
    obtain ⟨hget, chain, hlies⟩ := hu
    obtain ⟨st', hst', hj⟩ := h.adds_of_lies hlies
    obtain rfl : st' = st := by simpa [hst] using hst'.symm
    exact h.mem_affine hround hget hj haffine
  obtain ⟨hd', hnone, -⟩ := h.relu_of_mem hround hg.1 hidRelu
  obtain ⟨hd, -, -⟩ := h.affine_of_mem hround hu.1 hjAffine
  have hinput : (vars'.insertAll d.entries).get? u = some j := by
    rw [VarMap.get?_insertAll_entries, hd, Option.some_or]
  have hpass := hround.round.reluPass
  rw [hcs] at hpass
  obtain ⟨t, c₁, _, hprefix, hgrows, hkeep, hdid⟩ := hpass.at_record
  -- An earlier record that had defined the output would have been the first of its kind.
  have hfresh : t.get? g = none := by
    cases ht : t.get? g with
    | none => rfl
    | some i =>
      obtain rfl : i = id := by simpa [hd'] using (hkeep g i ht).symm
      obtain ⟨-, q, hq, -, -, u', input, hu', hread, hqkind⟩ :=
        (names_of_reluPass hprefix).node g i ht
      refine absurd ?_ (hfirst u' hu')
      exact h.rectifies_of_reads hround hst hg hrectifier hidRelu
        (hgrows.get?_eq_some hq) hqkind hread
  rcases hdid with hskip | ⟨v', kind, id', q, ⟨u', input, heq, hu', -, -, rfl⟩, hv', hq, hqkind⟩
  · exact absurd ⟨u, j, rfl, hinput, hnone, hfresh, rfl⟩ (hskip g (.relu j false))
  · cases heq
    obtain rfl : id' = id := by simpa [hd'] using hv'.symm
    obtain rfl : input = j := by simpa [hinput] using hu'.symm
    obtain ⟨k, hk, hvalue⟩ := eq_value_of_runs hw hx hg
    rw [h.kind_eq hg.1 (hround.grows.get?_eq_some hq) hk, hqkind, NodeKind.value,
      hx u input hu.1] at hvalue
    exact hvalue

theorem Rebuilt.exists_rectifies (h : f.Rebuilt strict start inputs vars a p b c n)
    (hv : n.variableNodes.get? v = some id) (hrectifier : c.IsRectifier id) :
    ∃ u, .relu v u ∈ f.constraints ∧ n.Rectifies c v u := by
  obtain ⟨layer, hplace⟩ := h.exists_places hv
  obtain ⟨l, rfl⟩ := h.exists_layer_of_isRectifier hplace hrectifier
  obtain ⟨st, vars', a', d, m, d', e, hst, hround, hid⟩ := h.exists_roundAt hplace
  have hidRelu := h.mem_relus hround hv hid hrectifier
  obtain ⟨-, -, u, input, k, hu, hinput, hk, hkind⟩ := h.relu_of_mem hround hv hidRelu
  exact ⟨u, hu, h.rectifies_of_reads hround hst hplace hrectifier hidRelu hk hkind hinput⟩

/-- Strict mode keeps the records that define nodes. Whenever a file is rebuilt in strict mode, all
values of the nodes that satisfy the definitions and the bounds of the network, read as values of
the variables, satisfy every equation that defines a node and every rectifier that is the first one
to define the node of its output. Every variable with an affine node or a rectifier has such a
record. -/
theorem records_kept {s s' : Session Rat} (h : f.rebuild true s = (.ok n, s')) :
    (∀ w x, n.network.Runs s'.arena w → n.variableNodes.Carries w x →
      (∀ e ∈ f.equations, ∀ v, n.Defines s'.arena e v → e.Holds x) ∧
      ∀ cs g u cs', f.constraints = cs ++ .relu g u :: cs' → n.Rectifies s'.arena g u →
        (∀ u', .relu g u' ∈ cs → ¬n.Rectifies s'.arena g u') →
          (IpqConstraint.relu g u).Holds x) ∧
    (∀ v id, n.variableNodes.get? v = some id → s'.arena.IsAffine id →
      ∃ e ∈ f.equations, n.Defines s'.arena e v) ∧
    ∀ g id, n.variableNodes.get? g = some id → s'.arena.IsRectifier id →
      ∃ u, .relu g u ∈ f.constraints ∧ n.Rectifies s'.arena g u := by
  obtain ⟨inputs, vars, a, p, b, hrebuilt⟩ := rebuilt_of_rebuild h
  refine ⟨?_, ?_, ?_⟩
  · intro w x hw hx
    refine ⟨fun e he v hdefines => hrebuilt.equation_holds hw hx he hdefines, ?_⟩
    exact fun cs g u cs' hcs hrectifies hfirst => hrebuilt.relu_holds hw hx hcs hrectifies hfirst
  · exact fun v id hv haffine => hrebuilt.exists_defines hv haffine
  · exact fun g id hg hrectifier => hrebuilt.exists_rectifies hg hrectifier

/-- The last equation is about the input alone, and both rectifiers have the output 2. -/
def redundantFile : IpqFile Rat where
  variableCount := 5
  inputs := [0]
  outputs := [3]
  lowerBounds := OrderedMap.empty
  upperBounds := OrderedMap.empty
  equations := [⟨.eq, 0, [(0, 1), (1, -1)]⟩, ⟨.eq, 0, [(0, -1), (4, -1)]⟩,
    ⟨.eq, 0, [(2, 1), (3, -1)]⟩, ⟨.eq, 0, [(0, 1)]⟩]
  constraints := [.relu 2 1, .relu 2 4]

/-- The values of the nodes at the input one. -/
def redundantRun (id : NodeId) : Rat :=
  [1, 1, -1, 1, 1].getD id 0

/-- The values of the variables at the input one. -/
def redundantValues (v : Nat) : Rat :=
  [1, 1, 1, 1, -1].getD v 0

/-- The sample keeps its second equation and its first rectifier. -/
theorem records_kept_redundant :
    ∃ n s', redundantFile.rebuild true {} = (.ok n, s') ∧
      n.network.Runs s'.arena redundantRun ∧ n.variableNodes.Carries redundantRun redundantValues ∧
      n.Defines s'.arena (⟨.eq, 0, [(0, -1), (4, -1)]⟩ : IpqEquation Rat) 4 ∧
      IpqEquation.Holds redundantValues ⟨.eq, 0, [(0, -1), (4, -1)]⟩ ∧
      n.Rectifies s'.arena 2 1 ∧ (IpqConstraint.relu 2 1).Holds redundantValues := by
  obtain ⟨n, s', hrebuild, hnet, hentries, haffine, hcopy, hrelu, hruns, hcarries⟩ :
      ∃ n s', redundantFile.rebuild true {} = (.ok n, s') ∧
        n.network = ⟨[[[0]], [[1, 3], [2]], [[4]]]⟩ ∧
        n.variableNodes.entries = [(0, 0), (1, 1), (2, 3), (3, 4), (4, 2)] ∧
        (s'.arena.get? 2).map Node.kind = some (.affine [(-1, 0)] 0) ∧
        (s'.arena.get? 1).map Node.kind = some (.affine [(1, 0)] 0) ∧
        (s'.arena.get? 3).map Node.kind = some (.relu 1 false) ∧
        n.network.Runs s'.arena redundantRun ∧
        ∀ e ∈ n.variableNodes.entries, redundantRun e.2 = redundantValues e.1 :=
    exists_rebuild_iff.2 (by decide +kernel)
  have hx : n.variableNodes.Carries redundantRun redundantValues :=
    fun v id hv => hcarries (v, id) (VarMap.get?_eq_some_iff.1 hv)
  have hplaces : ∀ {v layer id : Nat}, (v, id) ∈ [(0, 0), (1, 1), (2, 3), (3, 4), (4, 2)] →
      (∃ chain, Network.Lies ⟨[[[0]], [[1, 3], [2]], [[4]]]⟩ layer chain id) →
        n.Places v layer id :=
    fun hv hlies => ⟨VarMap.get?_eq_some_iff.2 (hentries ▸ hv), hnet ▸ hlies⟩
  have hdefines : n.Defines s'.arena (⟨.eq, 0, [(0, -1), (4, -1)]⟩ : IpqEquation Rat) 4 := by
    obtain ⟨k, hk, hkind⟩ := Option.map_eq_some_iff.1 haffine
    refine ⟨[(0, -1)], -1, [], 1, 2, rfl, hplaces (by decide) ⟨[2], _, rfl, by decide⟩,
      ⟨k, hk, _, _, hkind⟩, ?_⟩
    simp only [List.append_nil, List.mem_singleton, forall_eq]
    exact ⟨0, by decide, 0, hplaces (by decide) ⟨[0], _, rfl, by decide⟩⟩
  have hrectifies : n.Rectifies s'.arena 2 1 := by
    obtain ⟨k, hk, hkind⟩ := Option.map_eq_some_iff.1 hrelu
    obtain ⟨k', hk', hkind'⟩ := Option.map_eq_some_iff.1 hcopy
    exact ⟨1, 3, 1, hplaces (by decide) ⟨[1, 3], _, rfl, by decide⟩, ⟨k, hk, _, _, hkind⟩,
      hplaces (by decide) ⟨[1, 3], _, rfl, by decide⟩, ⟨k', hk', _, _, hkind'⟩⟩
  obtain ⟨hequations, hrelus⟩ := (records_kept hrebuild).1 redundantRun redundantValues hruns hx
  exact ⟨n, s', hrebuild, hruns, hx, hdefines,
    hequations _ (by simp [redundantFile]) 4 hdefines, hrectifies,
    hrelus [] 2 1 [.relu 2 4] rfl hrectifies (by simp)⟩

/-- Strict mode does not keep all records: at the input one the network of the sample satisfies its
definitions, and the equation about the input and the second rectifier do not hold. -/
theorem rebuild_drops_records :
    ∃ n s', redundantFile.rebuild true {} = (.ok n, s') ∧
      n.network.Runs s'.arena redundantRun ∧ n.variableNodes.Carries redundantRun redundantValues ∧
      (∃ e ∈ redundantFile.equations, ¬e.Holds redundantValues) ∧
      ∃ g u, .relu g u ∈ redundantFile.constraints ∧
        ¬(IpqConstraint.relu g u).Holds redundantValues := by
  obtain ⟨n, s', hrebuild, hruns, hcarries⟩ : ∃ n s', redundantFile.rebuild true {} = (.ok n, s') ∧
      n.network.Runs s'.arena redundantRun ∧
      ∀ e ∈ n.variableNodes.entries, redundantRun e.2 = redundantValues e.1 :=
    exists_rebuild_iff.2 (by decide +kernel)
  refine ⟨n, s', hrebuild, hruns, ?_, ?_, ?_⟩
  · exact fun v id hv => hcarries (v, id) (VarMap.get?_eq_some_iff.1 hv)
  · exact ⟨⟨.eq, 0, [(0, 1)]⟩, by simp [redundantFile], by decide +kernel⟩
  · exact ⟨2, 4, by simp [redundantFile], by decide +kernel⟩

end IpqFile

end PiecewiseNet
