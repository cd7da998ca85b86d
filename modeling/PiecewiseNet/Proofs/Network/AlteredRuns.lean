import PiecewiseNet.Proofs.Network.Recomputing

/-!
# Runs of altered networks

The runs of a network with overrides are the recomputations of the network that stay within the
bounds.

## Main statements

- `Network.Altered.recomputes`: a run is a recomputation.
- `Network.Altered.exists_runsAt`: a recomputation is a run.
- `Network.Altered.exists_runsAt_iff`: both at once, with the values that can be seen.
- `Network.Altered.inputs_eq`, `Network.Altered.getLast?_eq`: inputs and outputs.
-/

namespace PiecewiseNet

namespace Network

variable {net net' : Network} {ov : Overrides} {table : Substitution} {places : Nat → Nat → Prop}
  {id : NodeId} {l n : Nat} {c c' : Chain}

namespace Altered

/-! ## Places -/

section

variable {α : Type} [Scalar α] {a b : Arena α} (h : net.Altered a ov net' b table)

include h

/-- An overridden neuron by its place, and how it is replaced. -/
theorem exists_replaces {kind : OverrideKind} (hkind : ov.kindAt l n = some kind)
    (hc : chainAt net.layers l n = some c) :
    ∃ c', chainAt net'.layers l n = some c' ∧ Replaces kind a b table c c' := by
  have hkey : ov.contains (l, n) = true := by
    rw [OrderedMap.contains, ← Overrides.kindAt, hkind, Option.isSome_some]
  obtain ⟨kind', chain, chain', hmem, hat, hat', hrep⟩ := h.replaced l n hkey
  obtain rfl : c = chain := Option.some.inj (hc.symm.trans hat)
  obtain rfl : kind = kind' := Option.some.inj (hkind.symm.trans (Overrides.kindAt_of_mem hmem))
  exact ⟨chain', hat', hrep⟩

/-- The table leads away from the tails of overridden neurons only. -/
theorem apply_of_not_tail (hnd : net.nodes.Nodup) (hc : chainAt net.layers l n = some c)
    (hid : id ∈ c) (hnot : ov.kindAt l n = none ∨ c.getLast? ≠ some id) : table.apply id = id := by
  refine h.other id ?_
  intro l' n' c' hkey hc' hlast
  obtain ⟨rfl, rfl, rfl⟩ := place_unique hnd hc hc' hid (List.mem_of_getLast? hlast)
  rcases hnot with hnone | hnot
  · rw [Overrides.kindAt_eq_none_iff.1 hnone] at hkey
    cases hkey
  · exact hnot hlast

/-- A node that stays lies at its place in the altered network. -/
theorem exists_of_stays (hid : net.Stays ov.kindAt places id) :
    ∃ l n c', places l n ∧ chainAt net'.layers l n = some c' ∧ id ∈ c' := by
  obtain ⟨l, n, c, hplace, hc, hmem, hcases⟩ := hid
  cases hkind : ov.kindAt l n with
  | none =>
    exact ⟨l, n, c, hplace, (h.kept l n (Overrides.kindAt_eq_none_iff.1 hkind)).trans hc, hmem⟩
  | some kind =>
    obtain ⟨c', hc', hrep⟩ := h.exists_replaces hkind hc
    have hhead : c.head? = some id := hcases.resolve_left (by simp [hkind])
    exact ⟨l, n, c', hplace, hc', List.mem_of_head? (hrep.head?_eq.trans hhead)⟩

/-- A node of the altered network stays, or is new. -/
theorem stays_or_new (hplace : places l n) (hc' : chainAt net'.layers l n = some c')
    (hid : id ∈ c') :
    net.Stays ov.kindAt places id ∨ ∃ kind c, ov.kindAt l n = some kind ∧
      chainAt net.layers l n = some c ∧ Replaces kind a b table c c' ∧ a.size ≤ id := by
  cases hkind : ov.kindAt l n with
  | none =>
    have hc := (h.kept l n (Overrides.kindAt_eq_none_iff.1 hkind)).symm.trans hc'
    exact .inl ⟨l, n, c', hplace, hc, hid, .inl hkind⟩
  | some kind =>
    obtain ⟨c, hc⟩ := h.exists_chainAt_iff.1 ⟨c', hc'⟩
    obtain ⟨chain', hat', hrep⟩ := h.exists_replaces hkind hc
    obtain rfl : c' = chain' := Option.some.inj (hc'.symm.trans hat')
    rcases hrep.mem hid with hhead | ⟨hnew, -⟩
    · exact .inl ⟨l, n, c, hplace, hc, List.mem_of_head? hhead, .inr hhead⟩
    · exact .inr ⟨kind, c, rfl, hc, hrep, hnew⟩

end

variable {a b : Arena Rat} {u w r : Valuation Rat} (h : net.Altered a ov net' b table)

include h

/-! ## Runs are recomputations -/

/-- A run of an altered network recomputes the network; a node is read where the table leads. -/
theorem recomputes (hnet : net.WellFormed a) (hu : net'.RunsAt b places u) :
    net.Recomputes a ov.kindAt places u (fun i => u (table.apply i)) ∧
      net.WithinBounds a ov.kindAt places u := by
  have hnode : ∀ id, net.Stays ov.kindAt places id → ∃ m, a.get? id = some m ∧
      u id = m.kind.value (fun i => u (table.apply i)) (u id) ∧ m.bounds.Holds (u id) := by
    intro id hid
    obtain ⟨l, n, c', hplace, hc', hmem⟩ := h.exists_of_stays hid
    obtain ⟨m, m', hm, hm', hkind, hbounds⟩ :=
      h.node id (mem_nodes hc' hmem) (hnet.held id hid.mem_nodes)
    obtain ⟨o, ho, hholds⟩ := hu l n c' hplace hc' id hmem
    obtain rfl : m' = o := by simpa [hm'] using ho
    refine ⟨m, hm, ?_, hbounds ▸ hholds.bounds⟩
    have hvalue := hholds.value
    rwa [hkind, NodeKind.value_redirect] at hvalue
  refine ⟨⟨?_, ?_, ?_⟩, ?_⟩
  · intro id hid
    obtain ⟨m, hm, hvalue, -⟩ := hnode id hid
    exact ⟨m, hm, hvalue⟩
  · intro l n c id _ hc hid hnot
    rw [h.apply_of_not_tail hnet.nodup hc hid hnot]
  · intro l n c kind head tail m hplace hc hkind hhead htail hm
    obtain ⟨c', hc', head', tail', m', hhead', htail', hm', hcases⟩ := h.exists_replaces hkind hc
    obtain rfl : head = head' := Option.some.inj (hhead.symm.trans hhead')
    obtain rfl : tail = tail' := Option.some.inj (htail.symm.trans htail')
    obtain rfl : m = m' := by simpa [hm] using hm'
    rcases hcases with ⟨hnone, -, happly⟩ | ⟨bounds, new, o, hsome, rfl, happly, -, ho, -, hobounds⟩
    · rw [OverrideKind.gives_of_addedBounds_eq_none hnone, happly]
    · rw [OverrideKind.gives_of_addedBounds_eq_some hsome, happly, ← hobounds]
      obtain ⟨o', ho', hholds⟩ := hu l n _ hplace hc' new (by simp)
      obtain rfl : o = o' := by simpa [ho] using ho'
      exact hholds.bounds
  · intro id hid
    obtain ⟨m, hm, -, hholds⟩ := hnode id hid
    exact ⟨m, hm, hholds⟩

/-! ## Recomputations are runs -/

/-- The table leads to a new node from one place only. -/
theorem apply_injOn_new (hnet : net.WellFormed a) {i j : NodeId} (hi : i ∈ net.nodes)
    (hj : j ∈ net.nodes) (hnew : a.size ≤ table.apply i) (heq : table.apply i = table.apply j) :
    i = j := by
  -- Such a node is the tail of an overridden neuron, and the new node lies at the same place.
  have hplace : ∀ id ∈ net.nodes, a.size ≤ table.apply id → ∃ l n c c',
      chainAt net.layers l n = some c ∧ c.getLast? = some id ∧
        chainAt net'.layers l n = some c' ∧ table.apply id ∈ c' := by
    intro id hid hge
    obtain ⟨l, n, c, hc, hmem⟩ := mem_nodes_iff.1 hid
    have hmoved : table.apply id ≠ id := by
      intro hsame
      exact absurd (hnet.held id hid) (Nat.not_lt.2 (hsame ▸ hge))
    have htail : c.getLast? = some id := by
      by_contra hnot
      exact hmoved (h.apply_of_not_tail hnet.nodup hc hmem (.inr hnot))
    cases hkind : ov.kindAt l n with
    | none => exact absurd (h.apply_of_not_tail hnet.nodup hc hmem (.inl hkind)) hmoved
    | some kind =>
      obtain ⟨c', hc', head, tail, m, hhead, htail', -, hcases⟩ := h.exists_replaces hkind hc
      obtain rfl : tail = id := Option.some.inj (htail'.symm.trans htail)
      refine ⟨l, n, c, c', hc, htail, hc', ?_⟩
      rcases hcases with ⟨-, rfl, happly⟩ | ⟨bounds, new, o, -, rfl, happly, -⟩ <;> simp [happly]
  obtain ⟨l, n, c, c', hc, hlast, hc', hmem⟩ := hplace i hi hnew
  obtain ⟨l₁, n₁, d, d', hd, hlast', hd', hmem'⟩ := hplace j hj (heq ▸ hnew)
  obtain ⟨rfl, rfl, -⟩ := place_unique h.nodup hc' hd' hmem (heq ▸ hmem')
  obtain rfl : c = d := Option.some.inj (hc.symm.trans hd)
  exact Option.some.inj (hlast.symm.trans hlast')

omit h in
/-- Values of the nodes that are there and values that are read can be put together: a new node has
the value that is read in place of the node from which the table leads to it. -/
theorem exists_values (a : Arena Rat) (table : Substitution) (w r : Valuation Rat)
    (hinj : ∀ i ∈ net.nodes, ∀ j ∈ net.nodes, a.size ≤ table.apply i →
      table.apply i = table.apply j → i = j) :
    ∃ u : Valuation Rat, (∀ id < a.size, u id = w id) ∧
      ∀ id ∈ net.nodes, a.size ≤ table.apply id → u (table.apply id) = r id := by
  have hinj' : ∀ i ∈ net.nodes.filter (a.size ≤ table.apply ·),
      ∀ j ∈ net.nodes.filter (a.size ≤ table.apply ·), table.apply i = table.apply j → i = j := by
    intro i hi j hj heq
    rw [List.mem_filter, decide_eq_true_eq] at hi hj
    exact hinj i hi.1 j hj.1 hi.2 heq
  obtain ⟨u, hu⟩ := exists_along hinj' r
  refine ⟨fun j => if j < a.size then w j else u j, fun id hlt => if_pos hlt, ?_⟩
  intro id hid hge
  refine (if_neg (Nat.not_lt.2 hge)).trans ?_
  exact hu id (by rw [List.mem_filter, decide_eq_true_eq]; exact ⟨hid, hge⟩)

/-- Where the table leads, the values that are read stand. -/
theorem apply_eq_read (hnet : net.WellFormed a) (hw : net.Recomputes a ov.kindAt places w r)
    (hold : ∀ id < a.size, u id = w id)
    (hnew : ∀ id ∈ net.nodes, a.size ≤ table.apply id → u (table.apply id) = r id)
    (hplace : places l n) (hc : chainAt net.layers l n = some c) (hid : id ∈ c) :
    u (table.apply id) = r id := by
  have hmem := mem_nodes hc hid
  by_cases hnot : ov.kindAt l n = none ∨ c.getLast? ≠ some id
  · rw [h.apply_of_not_tail hnet.nodup hc hid hnot, hold id (hnet.held id hmem),
      hw.read l n c id hplace hc hid hnot]
  · rw [not_or, not_not] at hnot
    obtain ⟨hsome, htail⟩ := hnot
    obtain ⟨kind, hkind⟩ := Option.ne_none_iff_exists'.1 hsome
    obtain ⟨c', hc', head, tail, m, hhead, htail', hm, hcases⟩ := h.exists_replaces hkind hc
    obtain rfl : tail = id := Option.some.inj (htail'.symm.trans htail)
    rcases hcases with ⟨hnone, -, happly⟩ | ⟨bounds, new, o, -, -, happly, hge, -⟩
    · have hgives := hw.replaced l n c kind head tail m hplace hc hkind hhead htail hm
      rw [OverrideKind.gives_of_addedBounds_eq_none hnone] at hgives
      rw [happly, hold head (hnet.held head (mem_nodes hc (List.mem_of_head? hhead))), hgives]
    · exact hnew tail hmem (happly ▸ hge)

/-- A recomputation within the bounds is a run of the altered network. -/
theorem exists_runsAt (hnet : net.WellFormed a) (he : net.ReadsEarlier a)
    (hplaces : net.Initial places) (hw : net.Recomputes a ov.kindAt places w r)
    (hbounds : net.WithinBounds a ov.kindAt places w) :
    ∃ u, net'.RunsAt b places u ∧ (∀ id ∈ net.nodes, u id = w id) ∧
      ∀ l n c id, places l n → chainAt net.layers l n = some c → id ∈ c →
        u (table.apply id) = r id := by
  obtain ⟨u, hold, hnew⟩ := exists_values a table w r fun i hi j hj hge heq =>
    h.apply_injOn_new hnet hi hj hge heq
  have hread : ∀ l n c id, places l n → chainAt net.layers l n = some c → id ∈ c →
      u (table.apply id) = r id := fun l n c id hplace hc hid =>
    h.apply_eq_read hnet hw hold hnew hplace hc hid
  refine ⟨u, ?_, fun id hid => hold id (hnet.held id hid), hread⟩
  intro l n c' hplace hc' id hid
  rcases h.stays_or_new hplace hc' hid with hstays | ⟨kind, c, hkind, hc, hrep, hge⟩
  · have hlt := hnet.held id hstays.mem_nodes
    obtain ⟨m, m', hm, hm', hredirect, hsame⟩ := h.node id (mem_nodes hc' hid) hlt
    have hvalue := hw.value_eq hstays hm
    have hholds := hbounds.holds hstays hm
    obtain ⟨l₀, n₀, c₀, hplace₀, hc₀, hid₀, -⟩ := hstays
    refine ⟨m', hm', ?_, ?_⟩
    · have hrefs : ∀ s ∈ m.kind.references, u (table.apply s) = r s := by
        intro s hs
        obtain ⟨l₁, n₁, c₁, -, hplace₁, hc₁, hs₁⟩ :=
          reads_at_places hnet he hplaces hplace₀ hc₀ hid₀ ((Arena.reads_iff hm).2 hs)
        exact hread l₁ n₁ c₁ s hplace₁ hc₁ hs₁
      rw [hredirect, NodeKind.value_redirect, NodeKind.value_congr hrefs, hold id hlt]
      exact hvalue
    · rw [hsame, hold id hlt]
      exact hholds
  · obtain ⟨head, tail, m, hhead, htail, hm, hcases⟩ := hrep
    have hlt := hnet.held head (mem_nodes hc (List.mem_of_head? hhead))
    rcases hcases with ⟨-, rfl, -⟩ | ⟨bounds, new, o, hsome, rfl, happly, -, ho, hplain, hobounds⟩
    · rw [List.mem_singleton.1 hid] at hge
      exact absurd hlt (Nat.not_lt.2 hge)
    · obtain rfl : id = new := by
        rcases List.mem_cons.1 hid with rfl | hid
        · exact absurd hlt (Nat.not_lt.2 hge)
        · exact List.mem_singleton.1 hid
      refine ⟨o, ho, by rw [hplain, NodeKind.value_plain], ?_⟩
      rw [hobounds, ← OverrideKind.gives_of_addedBounds_eq_some hsome (x := w head), ← happly,
        hread l n c tail hplace hc (List.mem_of_getLast? htail)]
      exact hw.replaced l n c kind head tail m hplace hc hkind hhead htail hm

/-! ## Inputs and outputs -/

theorem head?_eq (hc : chainAt net.layers l n = some c) (hc' : chainAt net'.layers l n = some c') :
    c'.head? = c.head? := by
  cases hkind : ov.kindAt l n with
  | none =>
    have hsame := h.kept l n (Overrides.kindAt_eq_none_iff.1 hkind)
    rw [hc, hc'] at hsame
    rw [Option.some.inj hsame]
  | some kind =>
    obtain ⟨chain', hat', hrep⟩ := h.exists_replaces hkind hc
    obtain rfl : c' = chain' := Option.some.inj (hc'.symm.trans hat')
    exact hrep.head?_eq

/-- Overriding does not change the inputs. -/
theorem inputs_eq : net'.inputs = net.inputs := by
  have hmap : net'.inputs = net.inputs.map id := by
    refine inputs_eq_map fun n => ?_
    cases hc : chainAt net.layers 0 n with
    | none =>
      cases hc' : chainAt net'.layers 0 n with
      | none => rfl
      | some c' =>
        obtain ⟨c, hsome⟩ := h.exists_chainAt_iff.1 ⟨c', hc'⟩
        rw [hc] at hsome
        cases hsome
    | some c =>
      obtain ⟨c', hc'⟩ := h.exists_chainAt_iff.2 ⟨c, hc⟩
      rw [hc', Option.map_some, Option.map_some, h.head?_eq hc hc', Option.map_id_fun, id]
  rw [hmap, List.map_id]

/-- The tail of a neuron is where the table leads from its old tail. -/
theorem getLast?_eq (hnd : net.nodes.Nodup) (hc : chainAt net.layers l n = some c)
    (hc' : chainAt net'.layers l n = some c') (hid : c.getLast? = some id) :
    c'.getLast? = some (table.apply id) := by
  cases hkind : ov.kindAt l n with
  | none =>
    have hsame := h.kept l n (Overrides.kindAt_eq_none_iff.1 hkind)
    rw [hc, hc'] at hsame
    rw [Option.some.inj hsame, hid,
      h.apply_of_not_tail hnd hc (List.mem_of_getLast? hid) (.inl hkind)]
  | some kind =>
    obtain ⟨chain', hat', head, tail, m, -, htail, -, hcases⟩ := h.exists_replaces hkind hc
    obtain rfl : c' = chain' := Option.some.inj (hc'.symm.trans hat')
    obtain rfl : tail = id := Option.some.inj (htail.symm.trans hid)
    rcases hcases with ⟨-, rfl, happly⟩ | ⟨bounds, new, o, -, rfl, happly, -⟩ <;>
      rw [happly] <;> rfl

/-- The runs of an altered network are the recomputations of the network within the bounds, with the
same values at the inputs and at a node that is read. -/
theorem exists_runsAt_iff (hnet : net.WellFormed a) (he : net.ReadsEarlier a)
    (hplaces : net.Initial places) (hplace : places l n) (hc : chainAt net.layers l n = some c)
    {o : NodeId} (ho : o ∈ c) {x : List Rat} {y : Rat} :
    (∃ u, net'.RunsAt b places u ∧ net'.inputs.map u = x ∧ u (table.apply o) = y) ↔
      ∃ w r, net.Recomputes a ov.kindAt places w r ∧ net.WithinBounds a ov.kindAt places w ∧
        net.inputs.map w = x ∧ r o = y := by
  rw [h.inputs_eq]
  constructor
  · rintro ⟨u, hu, hx, hy⟩
    obtain ⟨hw, hbounds⟩ := h.recomputes hnet hu
    exact ⟨u, _, hw, hbounds, hx, hy⟩
  · rintro ⟨w, r, hw, hbounds, hx, hy⟩
    obtain ⟨u, hu, hsame, hread⟩ := h.exists_runsAt hnet he hplaces hw hbounds
    refine ⟨u, hu, ?_, (hread l n c o hplace hc ho).trans hy⟩
    rw [← hx]
    exact List.map_congr_left fun id hid => hsame id (inputs_subset_nodes hid)

end Altered

end Network

end PiecewiseNet
