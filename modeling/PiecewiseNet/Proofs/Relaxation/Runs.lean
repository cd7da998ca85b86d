import PiecewiseNet.Proofs.Network.OverriddenValues
import PiecewiseNet.Proofs.Network.WholeCopies
import PiecewiseNet.Proofs.Relaxation.Line

/-!
# Runs of relaxed networks

A rectifier that is set free keeps the bounds of the rectifier, so its value is not negative. The
line of a relaxation is negative on the lower half of the part of its interval below zero, and
inputs that lead there have no run on the line.

## Main definitions

- `Overrides.single`: one override.
- `Network.Rectified`: a network of rectifiers, of which only the inputs have bounds of their own.
- `Network.Precedes`: the nodes listed before a neuron, with its head.

## Main statements

- `Network.Altered.eq_of_precedes`: setting a neuron free changes nothing before it.
- `Network.Altered.exists_run_of_nonneg`: any value that is not negative can stand in its place.
- `Network.exists_solution_of_relaxedQuery_iff`: which inputs a relaxed query excludes.
-/

namespace PiecewiseNet

variable {α : Type}

/-- One override. -/
def Overrides.single (l n : Nat) (kind : OverrideKind) : Overrides :=
  OrderedMap.empty.insert (l, n) kind

theorem Overrides.kindAt_single (l n : Nat) (kind : OverrideKind) (l' n' : Nat) :
    (single l n kind).kindAt l' n' = if l' = l ∧ n' = n then some kind else none := by
  rw [kindAt, single, OrderedMap.get?_insert, OrderedMap.get?_empty]
  simp only [Prod.mk.injEq]

theorem Overrides.kindAt_self (l n : Nat) (kind : OverrideKind) :
    (single l n kind).kindAt l n = some kind := by
  rw [kindAt_single, if_pos ⟨rfl, rfl⟩]

theorem Overrides.contains_single {l n : Nat} {kind : OverrideKind} {l' n' : Nat} :
    (single l n kind).contains (l', n') = true ↔ l' = l ∧ n' = n := by
  rw [OrderedMap.contains, ← kindAt, kindAt_single]
  split <;> simp_all

theorem Interval.holds_nonneg_iff {x : Rat} : (⟨some 0, none⟩ : Interval Rat).Holds x ↔ 0 ≤ x := by
  simp [Holds]

theorem Interval.holds_unbounded (x : Rat) : (unbounded : Interval Rat).Holds x := by
  simp [Holds, unbounded]

/-- A rectifier with the bounds of its values. -/
def Node.IsRectifier (m : Node Rat) : Prop :=
  (∃ input relaxed, m.kind = .relu input relaxed) ∧ m.bounds = ⟨some 0, none⟩

namespace Network

/-- The hidden neurons are rectifiers behind their pre-activations, and of all other nodes only the
inputs have bounds. -/
structure Rectified (net : Network) (a : Arena Rat) : Prop where
  hidden : ∀ l n c, 0 < l → l + 1 < net.layerCount → chainAt net.layers l n = some c →
    ∃ head tail m, c = [head, tail] ∧ a.get? tail = some m ∧ m.IsRectifier
  others : ∀ id ∈ net.nodes, id ∈ net.inputs ∨
    ∃ m, a.get? id = some m ∧ (m.IsRectifier ∨ m.bounds = .unbounded)

/-- The node lies in a neuron that is listed before the one at this place, or is its head. -/
def Precedes (net : Network) (l n : Nat) (id : NodeId) : Prop :=
  (∃ l' n' c, (l' < l ∨ l' = l ∧ n' < n) ∧ chainAt net.layers l' n' = some c ∧ id ∈ c) ∨
    ∃ c, chainAt net.layers l n = some c ∧ c.head? = some id

section

variable {net net' : Network} {a b : Arena α} {l n : Nat} {id head tail : NodeId}

theorem precedes_of_mem_inputs (hl : 0 < l) (hid : id ∈ net.inputs) : net.Precedes l n id := by
  obtain ⟨n', c, hc, hhead⟩ := mem_inputs_iff.1 hid
  exact .inl ⟨0, n', c, .inl hl, hc, List.mem_of_head? hhead⟩

/-- What comes before a neuron reads what comes before it. -/
theorem WellFormed.precedes_of_reads (hnet : net.WellFormed a) (hid : net.Precedes l n id)
    {r : NodeId} (hr : a.Reads id r) : net.Precedes l n r := by
  rcases hid with ⟨l', n', c, hbefore, hc, hid⟩ | ⟨c, hc, hhead⟩
  · obtain ⟨pre, post, rfl⟩ := List.append_of_mem hid
    rcases hnet.reads_before hc hr with hpre | ⟨l'', n'', d, hbefore', hd, hrd⟩
    · exact .inl ⟨l', n', _, hbefore, hc, List.mem_append_left _ hpre⟩
    · exact .inl ⟨l'', n'', d, by omega, hd, hrd⟩
  · obtain ⟨post, rfl⟩ := List.head?_eq_some_iff.1 hhead
    have hfirst : chainAt net.layers l n = some ([] ++ id :: post) := hc
    rcases hnet.reads_before hfirst hr with hpre | hbefore
    · cases hpre
    · exact .inl hbefore

theorem FreeAtInputs.mem_inputs (h : net.FreeAtInputs a) (hid : id ∈ net.nodes)
    (hplain : IsFree a id) : id ∈ net.inputs := by
  obtain ⟨layer, hlayer, hmem⟩ := (h id hid).1 hplain
  rw [inputs, hlayer, Option.getD_some, List.mem_filterMap]
  exact ⟨[id], hmem, rfl⟩

/-- Values that agree with the definitions lie within the bounds, as soon as the inputs do. -/
theorem Rectified.holds {a : Arena Rat} (h : net.Rectified a) (hid : id ∈ net.nodes)
    {m : Node Rat} (hm : a.get? id = some m) {x : Rat}
    (hinput : id ∈ net.inputs → m.bounds.Holds x) {r : Valuation Rat}
    (hvalue : x = m.kind.value r x) : m.bounds.Holds x := by
  rcases h.others id hid with hmem | ⟨m', hm', hcases⟩
  · exact hinput hmem
  · obtain rfl : m = m' := Option.some.inj (hm.symm.trans hm')
    rcases hcases with ⟨⟨input, relaxed, hkind⟩, hbounds⟩ | hbounds
    · rw [hkind] at hvalue
      rw [hbounds, Interval.holds_nonneg_iff, hvalue]
      show 0 ≤ Scalar.positivePart (r input)
      unfold Scalar.positivePart
      split
      · rename_i hpos
        exact hpos.le
      · exact le_refl _
    · rw [hbounds]
      exact Interval.holds_unbounded x

/-- A copy of a network of rectifiers is one. -/
theorem Copy.rectified {a b : Arena Rat} {f : NodeId → NodeId} (h : net.Copy a f net' b)
    (hrect : net.Rectified a) : net'.Rectified b := by
  have hmirrors : ∀ id ∈ net.nodes, ∀ m, a.get? id = some m → ∃ o, b.get? (f id) = some o ∧
      o.bounds = m.bounds ∧ (m.IsRectifier → o.IsRectifier) := by
    intro id hid m hm
    obtain ⟨m', o, hm', ho, hkind, hbounds⟩ := h.mirrors id hid
    obtain rfl : m = m' := Option.some.inj (hm.symm.trans hm')
    refine ⟨o, ho, hbounds, ?_⟩
    rintro ⟨⟨input, relaxed, hrelu⟩, hsome⟩
    exact ⟨⟨f input, relaxed, by rw [hkind, hrelu, NodeKind.redirect]⟩, hbounds.trans hsome⟩
  refine ⟨?_, ?_⟩
  · intro l n c' hl hl' hc'
    rw [h.chainAt_eq, Option.map_eq_some_iff] at hc'
    obtain ⟨c, hc, rfl⟩ := hc'
    rw [h.layerCount_eq] at hl'
    obtain ⟨head, tail, m, rfl, hm, hrelu⟩ := hrect.hidden l n c hl hl' hc
    obtain ⟨o, ho, -, hto⟩ := hmirrors tail (Network.mem_nodes hc (by simp)) m hm
    exact ⟨f head, f tail, o, rfl, ho, hto hrelu⟩
  · intro j hj
    rw [h.nodes_eq, List.mem_map] at hj
    obtain ⟨id, hid, rfl⟩ := hj
    rcases hrect.others id hid with hinput | ⟨m, hm, hcases⟩
    · rw [h.inputs_eq]
      exact .inl (List.mem_map_of_mem hinput)
    · obtain ⟨o, ho, hbounds, hto⟩ := hmirrors id hid m hm
      exact .inr ⟨o, ho, hcases.imp hto hbounds.trans⟩

/-- The inputs of a copy lie within their bounds as those of the original do. -/
theorem Copy.holds_inputs {a b : Arena Rat} {f : NodeId → NodeId} {v w : Valuation Rat}
    (h : net.Copy a f net' b) (hw : ∀ id ∈ net.nodes, w (f id) = v id)
    (hbounds : ∀ id ∈ net.inputs, ∀ m ∈ a.get? id, m.bounds.Holds (v id)) :
    ∀ id ∈ net'.inputs, ∀ m ∈ b.get? id, m.bounds.Holds (w id) := by
  intro j hj o ho
  rw [h.inputs_eq, List.mem_map] at hj
  obtain ⟨id, hid, rfl⟩ := hj
  have hmem := inputs_subset_nodes hid
  obtain ⟨m, o', hm, ho', -, hsame⟩ := h.mirrors id hmem
  obtain rfl : o = o' := Option.some.inj (ho.symm.trans ho')
  rw [hw id hmem, hsame]
  exact hbounds id hid m hm

/-- The free nodes of a copy are among its inputs if those of the original are. -/
theorem Copy.mem_inputs_of_isFree {f : NodeId → NodeId} (h : net.Copy a f net' b)
    (hfree : ∀ id ∈ net.nodes, IsFree a id → id ∈ net.inputs) :
    ∀ id ∈ net'.nodes, IsFree b id → id ∈ net'.inputs := by
  intro j hj hplain
  rw [h.nodes_eq, List.mem_map] at hj
  obtain ⟨id, hid, rfl⟩ := hj
  rw [h.inputs_eq]
  exact List.mem_map_of_mem (hfree id hid ((h.mirrors id hid).isFree_iff.1 hplain))

end

/-! ## One neuron set free -/

namespace Altered

variable {net net' : Network} {a b : Arena Rat} {l n : Nat} {id head tail : NodeId}
  {table : Substitution} {u v : Valuation Rat}
  (h : net.Altered a (.single l n .nofunc) net' b table) (hnet : net.WellFormed a)
  (hc : chainAt net.layers l n = some [head, tail])

include h hc

/-- The neuron keeps its head, and its tail is a free node with the bounds of the old one. -/
theorem exists_freed {m : Node Rat} (hm : a.get? tail = some m) :
    chainAt net'.layers l n = some [head, table.apply tail] ∧ a.size ≤ table.apply tail ∧
      ∃ o, b.get? (table.apply tail) = some o ∧ o.kind = .plain ∧ o.bounds = m.bounds := by
  obtain ⟨c', hc', head', tail', m', hhead, htail, hm', hcases⟩ :=
    h.exists_replaces (Overrides.kindAt_self ..) hc
  obtain rfl : head = head' := Option.some.inj hhead
  obtain rfl : tail = tail' := Option.some.inj htail
  obtain rfl : m = m' := Option.some.inj (hm.symm.trans hm')
  rcases hcases with ⟨hnone, -⟩ | ⟨bounds, new, o, hsome, rfl, rfl, hge, ho, hplain, hbounds⟩
  · cases hnone
  · obtain rfl : m.bounds = bounds := Option.some.inj hsome
    exact ⟨hc', hge, o, ho, hplain, hbounds⟩

/-- A node is an old one, or the free one. -/
theorem mem_or_eq_freed {m : Node Rat} (hm : a.get? tail = some m) (hid : id ∈ net'.nodes) :
    id ∈ net.nodes ∨ id = table.apply tail := by
  obtain ⟨hc', -, -⟩ := h.exists_freed hc hm
  obtain ⟨l', n', c', hat, hmem⟩ := mem_nodes_iff.1 hid
  have hcases : net.Stays _ (fun _ _ => True) id ∨ _ := h.stays_or_new trivial hat hmem
  rcases hcases with hstays | ⟨kind, c, hkind, -⟩
  · exact .inl hstays.mem_nodes
  · rw [Overrides.kindAt_single] at hkind
    split at hkind
    · rename_i hplace
      obtain ⟨rfl, rfl⟩ := hplace
      obtain rfl : [head, table.apply tail] = c' := Option.some.inj (hc'.symm.trans hat)
      rcases List.mem_cons.1 hmem with rfl | hmem
      · exact .inl (mem_nodes hc (List.mem_cons_self ..))
      · exact .inr (List.mem_singleton.1 hmem)
    · cases hkind

/-- A run gives the free neuron a value that is not negative. -/
theorem nonneg_of_runs {m : Node Rat} (hm : a.get? tail = some m) (hrelu : m.IsRectifier)
    (hu : net'.Runs b u) : 0 ≤ u (table.apply tail) := by
  obtain ⟨hc', -, o, ho, -, hbounds⟩ := h.exists_freed hc hm
  obtain ⟨o', ho', hholds⟩ := hu (table.apply tail) (mem_nodes hc' (by simp))
  obtain rfl : o = o' := Option.some.inj (ho.symm.trans ho')
  rw [← Interval.holds_nonneg_iff, ← hrelu.2, ← hbounds]
  exact hholds.bounds

include hnet

/-- Before the neuron nothing is replaced. -/
theorem stays_of_precedes (hid : net.Precedes l n id) :
    id ∈ net'.nodes ∧ id ∈ net.nodes ∧ table.apply id = id := by
  rcases hid with ⟨l', n', c, hbefore, hc', hid⟩ | ⟨c, hc', hhead⟩
  · have hnone : (Overrides.single l n .nofunc).kindAt l' n' = none := by
      rw [Overrides.kindAt_single, if_neg (by omega)]
    refine ⟨?_, mem_nodes hc' hid, h.apply_of_not_tail hnet.nodup hc' hid (.inl hnone)⟩
    have hstays : net.Stays (Overrides.single l n .nofunc).kindAt (fun _ _ => True) id :=
      ⟨l', n', c, trivial, hc', hid, .inl hnone⟩
    exact h.mem_nodes_of_stays hstays
  · obtain rfl : [head, tail] = c := Option.some.inj (hc.symm.trans hc')
    obtain rfl : head = id := Option.some.inj hhead
    have hne : head ≠ tail := by simpa using nodup_chainAt hnet.nodup hc
    refine ⟨h.head_mem_nodes hc rfl, mem_nodes hc (List.mem_cons_self ..), ?_⟩
    refine h.apply_of_not_tail hnet.nodup hc (List.mem_cons_self ..) (.inr ?_)
    exact fun heq => hne (Option.some.inj heq).symm

/-- Setting a neuron free changes no value before it. -/
theorem eq_of_precedes (hu : ∀ id ∈ net'.nodes, b.Respects u id)
    (hv : ∀ id ∈ net.nodes, a.Respects v id)
    (hfree : ∀ id ∈ net.nodes, IsFree a id → u id = v id) :
    ∀ id, net.Precedes l n id → u id = v id := by
  have hmain : ∀ id ∈ net.nodes, net.Precedes l n id → u id = v id := by
    refine hnet.induction fun id hmem ih hid => ?_
    obtain ⟨hid', -, -⟩ := h.stays_of_precedes hnet hc hid
    obtain ⟨m, o, hm, ho, hkind, -⟩ := h.node id hid' (hnet.held id hmem)
    obtain ⟨o', ho', hvalue⟩ := hu id hid'
    obtain rfl : o = o' := Option.some.inj (ho.symm.trans ho')
    obtain ⟨m', hm', hvalue'⟩ := hv id hmem
    obtain rfl : m = m' := Option.some.inj (hm.symm.trans hm')
    have hrefs : ∀ r ∈ m.kind.references, u (table.apply r) = v r := by
      intro r hr
      have hread := (Arena.reads_iff hm).2 hr
      have hbefore := hnet.precedes_of_reads hid hread
      rw [(h.stays_of_precedes hnet hc hbefore).2.2]
      exact ih r hread hbefore
    rw [hkind, NodeKind.value_redirect, NodeKind.value_congr hrefs] at hvalue
    rw [hvalue, hvalue']
    cases hk : m.kind with
    | plain => exact hfree id hmem ⟨m, hm, hk⟩
    | affine terms bias => rfl
    | relu input relaxed => rfl
    | abs input => rfl
  exact fun id hid => hmain id (h.stays_of_precedes hnet hc hid).2.1 hid

/-- Any value that is not negative can stand in the place of the neuron. -/
theorem exists_run_of_nonneg (hnet' : net'.WellFormed b) (hrect : net.Rectified a)
    (hfree : ∀ id ∈ net.nodes, IsFree a id → id ∈ net.inputs) (hl : 0 < l) {m : Node Rat}
    (hm : a.get? tail = some m) (hrelu : m.IsRectifier) (hv : ∀ id ∈ net.nodes, a.Respects v id)
    (hbounds : ∀ id ∈ net.inputs, ∀ m ∈ a.get? id, m.bounds.Holds (v id)) {y : Rat} (hy : 0 ≤ y) :
    ∃ u, net'.Runs b u ∧ (∀ id, net.Precedes l n id → u id = v id) ∧ u (table.apply tail) = y := by
  obtain ⟨-, -, o, ho, -, hsame⟩ := h.exists_freed hc hm
  -- The run is computed from the values of the inputs and the one that is chosen.
  obtain ⟨v', hv'⟩ := h.exists_completes hnet v fun _ _ => y
  have hrespects : ∀ id ∈ net'.nodes, b.Respects (b.compute net'.nodes v') id := fun id hid =>
    hnet'.respects_compute v' hid
  have hchosen : b.compute net'.nodes v' (table.apply tail) = y :=
    (h.compute_tail hnet' hv' (Overrides.kindAt_self ..) hc rfl rfl).1
  have hfrom : ∀ id ∈ net.nodes, IsFree a id → b.compute net'.nodes v' id = v id := by
    rintro id hid ⟨m', hm', hk⟩
    have hbefore := precedes_of_mem_inputs (n := n) hl (hfree id hid ⟨m', hm', hk⟩)
    obtain ⟨m'', hm'', -, hvalue⟩ := h.exists_compute_eq hnet'
      (h.stays_of_precedes hnet hc hbefore).1 (hnet.held id hid) (hv'.old id hid)
    obtain rfl : m' = m'' := Option.some.inj (hm'.symm.trans hm'')
    rw [hvalue, hk, NodeKind.value_plain]
  have heq := h.eq_of_precedes hnet hc hrespects hv hfrom
  refine ⟨b.compute net'.nodes v', fun id hid => ?_, heq, hchosen⟩
  obtain ⟨m', hm', hvalue⟩ := hrespects id hid
  refine ⟨m', hm', hvalue, ?_⟩
  rcases h.mem_or_eq_freed hc hm hid with hold | rfl
  · obtain ⟨k, m'', hk, hm'', hkind, hboundsEq⟩ := h.node id hid (hnet.held id hold)
    obtain rfl : m' = m'' := Option.some.inj (hm'.symm.trans hm'')
    rw [hkind, NodeKind.value_redirect] at hvalue
    rw [hboundsEq]
    refine hrect.holds hold hk (fun hinput => ?_) hvalue
    rw [heq id (precedes_of_mem_inputs hl hinput)]
    exact hbounds id hinput k hk
  · obtain rfl : o = m' := Option.some.inj (ho.symm.trans hm')
    rw [hchosen, hsame, hrelu.2, Interval.holds_nonneg_iff]
    exact hy

/-- From given inputs the free neuron can lie on the line of a relaxation exactly where the line is
not negative. -/
theorem exists_solution_iff (hnet' : net'.WellFormed b) (hrect : net.Rectified a)
    (hfree : ∀ id ∈ net.nodes, IsFree a id → id ∈ net.inputs) (hl : 0 < l) {m : Node Rat}
    (hm : a.get? tail = some m) (hrelu : m.IsRectifier) (hv : ∀ id ∈ net.nodes, a.Respects v id)
    (hbounds : ∀ id ∈ net.inputs, ∀ m ∈ a.get? id, m.bounds.Holds (v id)) {lower upper : Rat}
    (hlower : lower < 0) (hupper : 0 < upper) {q : Query Rat}
    (hq : net'.relaxedQuery l n lower upper b = .ok q) :
    (∃ w, q.Solves b w ∧ q.inputs.map w = net.inputs.map v) ↔ lower ≤ 2 * v head := by
  obtain ⟨hc', -, -⟩ := h.exists_freed hc hm
  have hhead : net.Precedes l n head := .inr ⟨_, hc, rfl⟩
  rw [inputs_of_relaxedQuery hq, h.inputs_eq, ← relaxationValue_nonneg_iff hlower hupper]
  simp only [solves_relaxedQuery_iff hc' hq]
  constructor
  · rintro ⟨w, ⟨hruns, hline⟩, hinputs⟩
    have hsame : w head = v head := by
      refine h.eq_of_precedes hnet hc (fun id hid => (hruns id hid).respects) hv ?_ head hhead
      exact fun id hid hplain => List.map_inj_left.1 hinputs id (hfree id hid hplain)
    rw [← hsame, ← hline]
    exact h.nonneg_of_runs hc hm hrelu hruns
  · intro hy
    obtain ⟨w, hruns, hsame, hline⟩ :=
      h.exists_run_of_nonneg hnet hc hnet' hrect hfree hl hm hrelu hv hbounds hy
    refine ⟨w, ⟨hruns, by rw [hline, hsame head hhead]⟩, ?_⟩
    exact List.map_congr_left fun id hid => hsame id (precedes_of_mem_inputs hl hid)

end Altered

/-- A hidden rectifier of an accepted network can be set free in a duplicate, and the relaxation of
the free neuron has a query. From inputs within their bounds the query has a solution exactly when
the pre-activation is not in the lower half of the part of the interval below zero: there the line
is negative, but the free neuron keeps the bounds of the rectifier. -/
theorem exists_solution_of_relaxedQuery_iff {net : Network} {a : Arena Rat} (hnet : net.Accepted a)
    (hfree : net.FreeAtInputs a) (hrect : net.Rectified a) {l n : Nat} (hl : 0 < l)
    (hl' : l + 1 < net.layerCount) {head tail : NodeId}
    (hc : chainAt net.layers l n = some [head, tail]) {lower upper : Rat} (hlower : lower < 0)
    (hupper : 0 < upper) (suffix : String) :
    ∃ dup b net' c q, (net.duplicate suffix).Yields a dup b ∧
      (dup.override (.single l n .nofunc)).Yields b net' c ∧
      net'.relaxedQuery l n lower upper c = .ok q ∧
      ∀ v, (∀ id ∈ net.inputs, ∀ m ∈ a.get? id, m.bounds.Holds (a.compute net.nodes v id)) →
        ((∃ w, q.Solves c w ∧ q.inputs.map w = net.inputs.map (a.compute net.nodes v)) ↔
          lower ≤ 2 * a.compute net.nodes v head) := by
  rw [accepted_iff] at hnet
  obtain ⟨dup, b, hdup⟩ := exists_duplicate suffix hnet
  obtain ⟨f, hcopy, -, -, hnetDup⟩ := duplicate_yields hdup hnet.nodup hnet.held
  have hcDup : chainAt dup.layers l n = some [f head, f tail] := by
    rw [hcopy.chainAt_eq, hc, Option.map_some, List.map_cons, List.map_cons, List.map_nil]
  have hshort : dup.ShortAt (.single l n .nofunc) := by
    intro l' n' c hkey hc'
    obtain ⟨rfl, rfl⟩ := Overrides.contains_single.1 hkey
    obtain rfl := Option.some.inj (hcDup.symm.trans hc')
    exact le_refl 2
  obtain ⟨net', c, hover⟩ := exists_override_of_shortAt hnetDup hshort <| by
    intro l' n' hkey
    obtain ⟨rfl, rfl⟩ := Overrides.contains_single.1 hkey
    exact exists_chainAt_iff.1 ⟨_, hcDup⟩
  obtain ⟨table, halt, hnet'⟩ := override_yields hover hnetDup.nodup hnetDup.held
  have hrectDup := hcopy.rectified hrect
  obtain ⟨head', tail', m, heq, hm, hrelu⟩ :=
    hrectDup.hidden l n _ hl (by rwa [hcopy.layerCount_eq]) hcDup
  obtain ⟨rfl, rfl⟩ : f head = head' ∧ f tail = tail' := by simpa using heq
  obtain ⟨hc', -, o, ho, hplain, -⟩ := halt.exists_freed hcDup hm
  obtain ⟨q, hq⟩ := exists_relaxedQuery hnet' hc' ⟨o, ho, hplain⟩ (hlower.trans hupper)
  refine ⟨dup, b, net', c, q, hdup, hover, hq, fun v hv => ?_⟩
  -- The duplicate has the values of the network.
  obtain ⟨v', hv'⟩ := exists_along hcopy.injOn v
  have hsame := hcopy.compute_apply hnet (fun id hid _ => hv' id hid)
  rw [← hsame head (mem_nodes hc (List.mem_cons_self ..)), ← hcopy.map_inputs hsame]
  exact halt.exists_solution_iff hnetDup hcDup hnet' hrectDup
    (hcopy.mem_inputs_of_isFree fun id hid => hfree.mem_inputs hid) hl hm hrelu
    (fun id hid => hnetDup.respects_compute v' hid) (hcopy.holds_inputs hsame hv) hlower hupper hq

/-- One input, a rectifier of it, and an output that puts it out. -/
def ramp : Network :=
  ⟨[[[0]], [[1, 2]], [[3]]]⟩

/-- The nodes of the ramp; the rectifier has the bounds of its values. -/
def rampArena : Arena Rat :=
  ⟨#[{ kind := .plain, bounds := ⟨some (-2), some 2⟩ }, { kind := .affine [(1, 0)] 0 },
    { kind := .relu 1 false, bounds := ⟨some 0, none⟩ }, { kind := .affine [(1, 2)] 0 }]⟩

theorem rectified_ramp : ramp.Rectified rampArena := by
  have hhidden : ∀ l n c, chainAt ramp.layers l n = some c → 0 < l → l + 1 < ramp.layerCount →
      c = [1, 2] := by decide
  refine ⟨fun l n c hl hl' hc => ?_, ?_⟩
  · exact ⟨1, 2, _, hhidden l n c hc hl hl', rfl, ⟨1, false, rfl⟩, rfl⟩
  · intro id hid
    have hcases : id = 0 ∨ id = 1 ∨ id = 2 ∨ id = 3 := by simpa [ramp, nodes] using hid
    rcases hcases with rfl | rfl | rfl | rfl
    · exact .inl (by decide)
    · exact .inr ⟨_, rfl, .inr rfl⟩
    · exact .inr ⟨_, rfl, .inl ⟨⟨1, false, rfl⟩, rfl⟩⟩
    · exact .inr ⟨_, rfl, .inr rfl⟩

/-- Between minus one and one the query for the ramp has a solution from minus a quarter, where the
line is an eighth. -/
theorem exists_solution_of_relaxedQuery_iff_ramp :
    ramp.Accepted rampArena ∧ ramp.FreeAtInputs rampArena ∧ ramp.Rectified rampArena ∧
      chainAt ramp.layers 1 0 = some [1, 2] ∧ ∃ dup b net' c q,
        (ramp.duplicate "_dup").Yields rampArena dup b ∧
          (dup.override (.single 1 0 .nofunc)).Yields b net' c ∧
            net'.relaxedQuery 1 0 (-1) 1 c = .ok q ∧
              ∃ w, q.Solves c w ∧ q.inputs.map w = [-1 / 4] := by
  have haccepted : ramp.Accepted rampArena := by rfl
  have hfree : ramp.FreeAtInputs rampArena := by decide
  have hc : chainAt ramp.layers 1 0 = some [1, 2] := by rfl
  have hlower : (-1 : Rat) < 0 := by decide
  have hupper : (0 : Rat) < 1 := by decide
  obtain ⟨dup, b, net', c, q, hdup, hover, hq, hiff⟩ :=
    exists_solution_of_relaxedQuery_iff haccepted hfree rectified_ramp Nat.one_pos (by decide) hc
      hlower hupper "_dup"
  refine ⟨haccepted, hfree, rectified_ramp, hc, dup, b, net', c, q, hdup, hover, hq, ?_⟩
  obtain ⟨w, hw, hinputs⟩ := (hiff (fun _ => -1 / 4) (by decide +kernel)).2 (by decide +kernel)
  exact ⟨w, hw, hinputs.trans (by decide +kernel)⟩

/-- At minus one, which is within the bounds of the input and between minus one and one, the query
for the ramp has no solution: on the line the free neuron would be minus a quarter. -/
theorem relaxedQuery_excludes_ramp :
    ramp.Accepted rampArena ∧ ramp.FreeAtInputs rampArena ∧ ramp.Rectified rampArena ∧
      (⟨some (-2), some 2⟩ : Interval Rat).Holds (-1) ∧
      rampArena.compute ramp.nodes (fun _ => -1) 1 = -1 ∧ ∃ dup b net' c q,
        (ramp.duplicate "_dup").Yields rampArena dup b ∧
          (dup.override (.single 1 0 .nofunc)).Yields b net' c ∧
            net'.relaxedQuery 1 0 (-1) 1 c = .ok q ∧
              ¬∃ w, q.Solves c w ∧ q.inputs.map w = [-1] := by
  refine ⟨by rfl, by decide, rectified_ramp, by decide, by decide +kernel, ?_⟩
  have hrun : ∃ net' c, Edit.Yields
      (ramp.duplicate "_dup" >>= fun dup => dup.override (.single 1 0 .nofunc)) rampArena net' c ∧
        (chainAt net'.layers 1 0 = some [5, 8] ∧ net'.inputs = [4] ∧
          (c.get? 5).map Node.kind = some (.affine [(1, 4)] 0) ∧
          (c.get? 8).map Node.bounds = some ⟨some 0, none⟩ ∧
          (net'.relaxedQuery 1 0 (-1) 1 c).isOk = true) := by
    rw [Edit.exists_yields_and_iff]
    decide +kernel
  obtain ⟨net', c, hyields, hc, hinputs, hhead, htail, hrelaxed⟩ := hrun
  obtain ⟨dup, b, hdup, hover⟩ := Edit.yields_bind.1 hyields
  obtain ⟨q, hq⟩ := exists_eq_ok_iff.2 hrelaxed
  refine ⟨dup, b, net', c, q, hdup, hover, hq, ?_⟩
  rintro ⟨w, hw, hvalue⟩
  obtain ⟨hruns, hline⟩ := (solves_relaxedQuery_iff hc hq).1 hw
  have hinput : w 4 = -1 := by simpa [inputs_of_relaxedQuery hq, hinputs] using hvalue
  have hpre : w 5 = -1 := by
    obtain ⟨m, hm, hholds⟩ := hruns 5 (mem_nodes hc (by simp))
    have hkind : m.kind = .affine [(1, 4)] 0 := by simpa [hm] using hhead
    rw [hholds.value, hkind]
    show 0 + w 4 * 1 + 0 = -1
    rw [hinput]
    norm_num
  have hnonneg : 0 ≤ w 8 := by
    obtain ⟨m, hm, hholds⟩ := hruns 8 (mem_nodes hc (by simp))
    have hbounds : m.bounds = ⟨some 0, none⟩ := by simpa [hm] using htail
    rw [← Interval.holds_nonneg_iff, ← hbounds]
    exact hholds.bounds
  rw [hline, hpre] at hnonneg
  exact absurd hnonneg (by decide +kernel)

end Network

end PiecewiseNet
