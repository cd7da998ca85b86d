import PiecewiseNet.Proofs.Network.Overriding

/-!
# Altered networks

A network with overrides has the neurons of the network but for the overridden ones, which are
replaced. Whatever read the old tail of such a neuron reads its new one.

## Main definitions

- `Network.Altered`: a network is another one with overrides.
- `Network.ShortAt`: the overridden neurons have at most two nodes.

## Main statements

- `Network.override_yields`: overriding alters a network.
- `Network.Altered.reads_near`, `Network.Altered.reads_from`: overriding keeps apart what was
  apart.
- `Network.exists_override_of_shortAt`, `Network.exists_override`: networks can be overridden at
  short neurons.
-/

namespace PiecewiseNet

variable {α : Type}

namespace Network

variable [Scalar α] {a b c : Arena α} {net net' : Network} {ov : Overrides}
  {layers layers' : List Layer} {es : List ((Nat × Nat) × OverrideKind)}
  {table table' : Substitution}

/-- A network with overrides: the overridden neurons are replaced, and whatever read the old tail of
one of them reads the new one. -/
structure Altered (net : Network) (a : Arena α) (ov : Overrides) (net' : Network) (b : Arena α)
    (table : Substitution) : Prop where
  length : net'.layers.length = net.layers.length
  /-- Other neurons are kept. -/
  kept : ∀ l n, ov.contains (l, n) = false → chainAt net'.layers l n = chainAt net.layers l n
  /-- The overridden neurons are replaced. -/
  replaced : ∀ l n, ov.contains (l, n) = true → ∃ kind chain chain',
    ((l, n), kind) ∈ ov.entries ∧ chainAt net.layers l n = some chain ∧
      chainAt net'.layers l n = some chain' ∧ Replaces kind a b table chain chain'
  /-- The table leads away from the old tails of overridden neurons only. -/
  other : ∀ id, (∀ l n c, ov.contains (l, n) = true → chainAt net.layers l n = some c →
    c.getLast? ≠ some id) → table.apply id = id
  /-- The old nodes read what the table leads to. -/
  node : ∀ id ∈ net'.nodes, id < a.size → ∃ n m, a.get? id = some n ∧ b.get? id = some m ∧
    m.kind = n.kind.redirect table.apply ∧ m.bounds = n.bounds
  /-- The new nodes are free. -/
  new : ∀ id ∈ net'.nodes, a.size ≤ id → IsFree b id
  outside : ∀ j < a.size, j ∉ net.nodes → b.get? j = a.get? j
  size : a.size ≤ b.size
  nodup : net'.nodes.Nodup
  held : ∀ id ∈ net'.nodes, id < b.size

/-- A node of overridden layers is an old one, or new and free. -/
theorem Overridden.mem (h : Overridden layers a es table layers' b table') {id : NodeId}
    (hid : id ∈ nodes ⟨layers'⟩) : id ∈ nodes ⟨layers⟩ ∨ a.size ≤ id ∧ IsFree b id := by
  obtain ⟨l, n, chain', hc', hid'⟩ := mem_nodes_iff.1 hid
  by_cases hkey : (l, n) ∈ es.map Prod.fst
  · obtain ⟨e, he, heq⟩ := List.mem_map.1 hkey
    obtain ⟨chain, chain₁, hat, hat', hrep⟩ := h.replaced e he
    rw [heq] at hat hat'
    obtain rfl : chain₁ = chain' := Option.some.inj (hat'.symm.trans hc')
    rcases hrep.mem hid' with hold | hnew
    · exact .inl (mem_nodes hat (List.mem_of_head? hold))
    · exact .inr hnew
  · exact .inl (mem_nodes ((h.kept l n hkey).symm.trans hc') hid')

/-- Overridden layers whose nodes read what the table leads to are an altered network. -/
theorem altered_of_overridden {u : PUnit} (hheld : ∀ id ∈ net.nodes, id < a.size)
    (h : Overridden net.layers a ov.entries Substitution.empty layers' c table)
    (hredirect : Edit.Yields (layers'.flatten.flatten.forM (Edit.redirect table)) c u b) :
    net.Altered a ov ⟨layers'⟩ b table := by
  obtain ⟨hsize, -, hget⟩ := Edit.redirectAll_yields hredirect h.nodup
  have hnode : ∀ id ∈ nodes ⟨layers'⟩, ∀ m, c.get? id = some m →
      b.get? id = some (m.redirect table.apply) := by
    intro id hid m hm
    have hmem : id ∈ layers'.flatten.flatten := hid
    rw [hget, if_pos hmem, hm, Option.map_some]
  have hplain : ∀ id ∈ nodes ⟨layers'⟩, ∀ m, c.get? id = some m → m.kind = .plain →
      ∃ m', b.get? id = some m' ∧ m'.kind = .plain ∧ m'.bounds = m.bounds := by
    intro id hid m hm hkind
    exact ⟨_, hnode id hid m hm, NodeKind.redirect_eq_plain_iff.2 hkind, rfl⟩
  refine ⟨h.length, ?_, ?_, ?_, ?_, ?_, ?_, ?_, h.nodup, ?_⟩
  · intro l n hkey
    refine h.kept l n fun hmemkey => ?_
    rw [OrderedMap.contains_eq_true_iff.2 hmemkey] at hkey
    cases hkey
  · intro l n hkey
    obtain ⟨⟨k, kind⟩, he, rfl⟩ := List.mem_map.1 (OrderedMap.contains_eq_true_iff.1 hkey)
    obtain ⟨chain, chain', hat, hat', hrep⟩ := h.replaced _ he
    exact ⟨kind, chain, chain', he, hat, hat', hrep.mono (.of_growsTo (.refl a))
      (fun id hid => hheld id (mem_nodes hat hid)) (fun id hid => hplain id (mem_nodes hat' hid))
      fun _ _ => rfl⟩
  · intro id hid
    rw [h.other id, Substitution.apply_empty]
    intro e he chain hat
    exact hid e.1.1 e.1.2 chain
      (OrderedMap.contains_eq_true_iff.2 (List.mem_map.2 ⟨e, he, rfl⟩)) hat
  · intro id hid hlt
    obtain ⟨n, hn⟩ := Arena.exists_get? hlt
    obtain ⟨m, hm, hkind, hbounds⟩ := h.relabels.get? hn
    refine ⟨n, _, hn, hnode id hid m hm, ?_, hbounds⟩
    rw [Node.redirect, hkind]
  · intro id hid hge
    rcases h.mem hid with hold | ⟨-, m, hm, hkind⟩
    · exact absurd (hheld id hold) (Nat.not_lt.2 hge)
    · obtain ⟨m', hm', hkind', -⟩ := hplain id hid m hm hkind
      exact ⟨m', hm', hkind'⟩
  · intro j hj hjnot
    have hjnot' : j ∉ layers'.flatten.flatten := by
      intro hj'
      rcases h.mem hj' with hold | ⟨hnew, -⟩
      · exact hjnot hold
      · exact absurd hj (Nat.not_lt.2 hnew)
    rw [hget, if_neg hjnot']
    exact h.outside j hj hjnot
  · rw [hsize]
    exact h.relabels.size
  · intro id hid
    rw [hsize]
    exact h.held id hid

/-- Overriding alters a network. -/
theorem override_yields (h : (net.override ov).Yields a net' b) (hnd : net.nodes.Nodup)
    (hheld : ∀ id ∈ net.nodes, id < a.size) :
    ∃ table, net.Altered a ov net' b table ∧ net'.WellFormed b := by
  obtain ⟨⟨layers', table⟩, c, hchains, h₁⟩ := Edit.yields_bind.1 h
  obtain ⟨u, d, hredirect, h₂⟩ := Edit.yields_bind.1 h₁
  obtain ⟨hnew, rfl⟩ := Edit.yields_reading.1 h₂
  obtain ⟨rfl, hwell⟩ := new_eq_ok_iff.1 hnew
  exact ⟨table, altered_of_overridden hheld (overrideChains_yields hchains ov.nodup_keys hnd hheld
    fun _ _ _ _ _ _ => rfl) hredirect, hwell⟩

/-- A node of an altered network lies where it lay before, or is new. -/
theorem Altered.mem_chain (h : net.Altered a ov net' b table) {l n : Nat} {c' : Chain}
    {id : NodeId} (hc' : chainAt net'.layers l n = some c') (hid : id ∈ c') (hlt : id < a.size) :
    ∃ c, chainAt net.layers l n = some c ∧ id ∈ c := by
  cases hkey : ov.contains (l, n) with
  | false => exact ⟨c', (h.kept l n hkey).symm.trans hc', hid⟩
  | true =>
    obtain ⟨kind, chain, chain', -, hat, hat', hrep⟩ := h.replaced l n hkey
    obtain rfl : chain' = c' := Option.some.inj (hat'.symm.trans hc')
    rcases hrep.mem hid with hold | ⟨hnew, -⟩
    · exact ⟨chain, hat, List.mem_of_head? hold⟩
    · exact absurd hlt (Nat.not_lt.2 hnew)

/-- The table leaves nodes of neurons without an override alone. -/
theorem Altered.apply_of_kept (h : net.Altered a ov net' b table) (hnd : net.nodes.Nodup)
    {l n : Nat} {c : Chain} {id : NodeId} (hc : chainAt net.layers l n = some c) (hid : id ∈ c)
    (hkey : ov.contains (l, n) = false) : table.apply id = id := by
  refine h.other id ?_
  intro l' n' c' hkey' hc' hlast
  obtain ⟨rfl, rfl, -⟩ := place_unique hnd hc hc' hid (List.mem_of_getLast? hlast)
  rw [hkey] at hkey'
  cases hkey'

/-! ## Well-formedness -/

/-- The overridden neurons have at most two nodes. -/
def ShortAt (net : Network) (ov : Overrides) : Prop :=
  ∀ l n c, ov.contains (l, n) = true → chainAt net.layers l n = some c → c.length ≤ 2

omit [Scalar α] in
theorem ShortChains.shortAt (h : net.ShortChains) (ov : Overrides) : net.ShortAt ov :=
  fun l n c _ hc => shortChains_iff.1 h l n c hc

omit [Scalar α] in
theorem mem_of_length_le_two {c : Chain} {id : NodeId} (hlen : c.length ≤ 2) (hid : id ∈ c) :
    c.head? = some id ∨ c.getLast? = some id := by
  match c, hid, hlen with
  | [i], hid, _ => exact .inl (by rw [List.mem_singleton.1 hid]; rfl)
  | [i, j], hid, _ =>
    rcases List.mem_cons.1 hid with rfl | hid
    · exact .inl rfl
    · exact .inr (by rw [List.mem_singleton.1 hid]; rfl)

/-- Where a node of a neuron was read, a node of the same neuron is read. -/
theorem Altered.apply_mem (h : net.Altered a ov net' b table) (hnd : net.nodes.Nodup)
    (hshort : net.ShortAt ov) {l n : Nat} {c : Chain} {id : NodeId}
    (hc : chainAt net.layers l n = some c) (hid : id ∈ c) :
    ∃ c', chainAt net'.layers l n = some c' ∧ table.apply id ∈ c' := by
  cases hkey : ov.contains (l, n) with
  | false =>
    refine ⟨c, (h.kept l n hkey).trans hc, ?_⟩
    rwa [h.apply_of_kept hnd hc hid hkey]
  | true =>
    obtain ⟨kind, chain, chain', -, hat, hat', hrep⟩ := h.replaced l n hkey
    obtain rfl : chain = c := Option.some.inj (hat.symm.trans hc)
    obtain ⟨head, tail, m, hhead, htail, -, hcases⟩ := hrep
    have hheadmem : head ∈ chain' := by
      rcases hcases with ⟨-, rfl, -⟩ | ⟨bounds, new, o, -, rfl, -⟩ <;> simp
    have htailmem : table.apply tail ∈ chain' := by
      rcases hcases with ⟨-, rfl, hto⟩ | ⟨bounds, new, o, -, rfl, hto, -⟩ <;> simp [hto]
    refine ⟨chain', hat', ?_⟩
    by_cases hlast : id = tail
    · rwa [hlast]
    · rcases mem_of_length_le_two (hshort l n _ hkey hc) hid with hfirst | hlast'
      · obtain rfl : head = id := Option.some.inj (hhead.symm.trans hfirst)
        rw [h.other head]
        · exact hheadmem
        · intro l' n' c' hkey' hc' hlast'
          obtain ⟨rfl, rfl, rfl⟩ :=
            place_unique hnd hc hc' hid (List.mem_of_getLast? hlast')
          exact hlast (Option.some.inj (hlast'.symm.trans htail))
      · exact absurd (Option.some.inj (hlast'.symm.trans htail)) hlast

/-- What a node of an altered network reads is where the table leads from what it read before. -/
theorem Altered.reads (h : net.Altered a ov net' b table) {id r : NodeId} (hid : id ∈ net'.nodes)
    (hr : b.Reads id r) : id < a.size ∧ ∃ r₀, a.Reads id r₀ ∧ table.apply r₀ = r := by
  rcases Nat.lt_or_ge id a.size with hlt | hge
  · obtain ⟨n, m, hn, hm, hkind, -⟩ := h.node id hid hlt
    rw [Arena.reads_iff hm, Node.references, hkind, NodeKind.references_redirect,
      List.mem_map] at hr
    obtain ⟨r₀, hr₀, heq⟩ := hr
    exact ⟨hlt, r₀, (Arena.reads_iff hn).2 hr₀, heq⟩
  · obtain ⟨m, hm, hkind⟩ := h.new id hid hge
    rw [Arena.reads_iff hm, Node.references, hkind] at hr
    cases hr

/-- Overriding keeps the neurons apart: what reads near neurons still does. -/
theorem Altered.reads_near (h : net.Altered a ov net' b table) (hnet : net.WellFormed a)
    (hshort : net.ShortAt ov) (near : Nat × Nat → Nat × Nat → Prop)
    (hnear : ∀ l n pre id post r, chainAt net.layers l n = some (pre ++ id :: post) →
      a.Reads id r → r ∈ pre ∨
        ∃ l' n' c', near (l', n') (l, n) ∧ chainAt net.layers l' n' = some c' ∧ r ∈ c')
    {l n : Nat} {pre post : Chain} {id r : NodeId}
    (hc' : chainAt net'.layers l n = some (pre ++ id :: post)) (hr : b.Reads id r) :
    r ∈ pre ∨ ∃ l' n' c', near (l', n') (l, n) ∧ chainAt net'.layers l' n' = some c' ∧
      r ∈ c' := by
  obtain ⟨hlt, r₀, hr₀, rfl⟩ := h.reads (mem_nodes hc' (by simp)) hr
  obtain ⟨c, hc, hidc⟩ := h.mem_chain hc' (by simp) hlt
  obtain ⟨pre₀, post₀, rfl⟩ := List.append_of_mem hidc
  rcases hnear l n pre₀ id post₀ r₀ hc hr₀ with hpre | ⟨l', n', d, hl', hd, hrd⟩
  · cases hkey : ov.contains (l, n) with
    | false =>
      have hsame := (h.kept l n hkey).symm.trans hc'
      have hmem : r₀ ∈ pre ++ id :: post := by
        rw [← Option.some.inj (hc.symm.trans hsame)]
        exact List.mem_append_left _ hpre
      rw [h.apply_of_kept hnet.nodup hsame hmem hkey]
      exact .inl (hnet.reads_own hsame hr₀ hmem)
    | true =>
      -- The only old node that is left of the neuron is its head, which has none before it.
      obtain ⟨kind, chain, chain', -, hat, hat', hrep⟩ := h.replaced l n hkey
      obtain rfl : chain = pre₀ ++ id :: post₀ := Option.some.inj (hat.symm.trans hc)
      obtain rfl : chain' = pre ++ id :: post := Option.some.inj (hat'.symm.trans hc')
      rcases hrep.mem (List.mem_append_right _ (List.mem_cons_self ..)) with hhead | ⟨hnew, -⟩
      · cases pre₀ with
        | nil => cases hpre
        | cons i pre₀ =>
          obtain rfl : i = id := Option.some.inj hhead
          have hnd := nodup_chainAt hnet.nodup hc
          rw [List.cons_append, List.nodup_cons] at hnd
          exact absurd (by simp) hnd.1
      · exact absurd hlt (Nat.not_lt.2 hnew)
  · obtain ⟨d', hd', hrd'⟩ := h.apply_mem hnet.nodup hshort hd hrd
    exact .inr ⟨l', n', d', hl', hd', hrd'⟩

/-- Overriding keeps the layers apart: what reads near layers still does. -/
theorem Altered.reads_from (h : net.Altered a ov net' b table) (hnet : net.WellFormed a)
    {near : Nat → Nat → Prop} (hf : net.ReadsFrom near a) (hshort : net.ShortAt ov) {l n : Nat}
    {pre post : Chain} {id r : NodeId}
    (hc' : chainAt net'.layers l n = some (pre ++ id :: post)) (hr : b.Reads id r) :
    r ∈ pre ∨ ∃ l' n' c', near l' l ∧ chainAt net'.layers l' n' = some c' ∧ r ∈ c' :=
  h.reads_near hnet hshort (fun p q => near p.1 q.1)
    (fun _ _ _ _ _ _ hc hr => hnet.reads_from hf hc hr) hc' hr

/-- Overriding neurons of at most two nodes gives a well-formed network. -/
theorem Altered.wellFormed (h : net.Altered a ov net' b table) (hnet : net.WellFormed a)
    (hshort : net.ShortAt ov) : net'.WellFormed b := by
  refine wellFormed_of_reads_before ?_ ?_ h.held h.nodup ?_
  · have hne := hnet.layers_ne_nil
    rw [← List.length_pos_iff] at hne ⊢
    rwa [h.length]
  · intro l n c' hc'
    cases hkey : ov.contains (l, n) with
    | false => exact hnet.chains_ne_nil l n c' ((h.kept l n hkey).symm.trans hc')
    | true =>
      obtain ⟨kind, chain, chain', -, -, hat', head, tail, m, -, -, -, hcases⟩ :=
        h.replaced l n hkey
      obtain rfl : chain' = c' := Option.some.inj (hat'.symm.trans hc')
      rcases hcases with ⟨-, rfl, -⟩ | ⟨bounds, new, o, -, rfl, -⟩ <;> simp
  · intro l n pre id post r hc' hr
    exact h.reads_near hnet hshort (fun p q => p.1 < q.1 ∨ p.1 = q.1 ∧ p.2 < q.2)
      (fun _ _ _ _ _ _ hc hr => hnet.reads_before hc hr) hc' hr

/-- A network can be overridden at any neurons of at most two nodes that it has. -/
theorem exists_override_of_shortAt (hnet : net.WellFormed a) (hshort : net.ShortAt ov)
    (hrange : ∀ l n, ov.contains (l, n) = true → n < net.layerSize l) :
    ∃ net' b, (net.override ov).Yields a net' b := by
  have hfix : ∀ e ∈ ov.entries, ∀ chain, chainAt net.layers e.1.1 e.1.2 = some chain →
      ∀ id ∈ chain, Substitution.empty.apply id = id := fun _ _ _ _ _ _ => rfl
  obtain ⟨⟨layers', table⟩, c, hchains⟩ := exists_overrideChains ov.nodup_keys hnet.nodup hnet.held
    hfix <| by
      intro e he
      have hkey : ov.contains e.1 = true :=
        OrderedMap.contains_eq_true_iff.2 (List.mem_map.2 ⟨e, he, rfl⟩)
      obtain ⟨chain, hat⟩ := exists_chainAt_iff.2 (hrange e.1.1 e.1.2 hkey)
      exact ⟨chain, hat, hnet.chains_ne_nil _ _ _ hat⟩
  have hover := overrideChains_yields hchains ov.nodup_keys hnet.nodup hnet.held hfix
  have hredirectable : ∀ id ∈ layers'.flatten.flatten, (c.get? id).isSome := fun id hid =>
    Option.isSome_iff_exists.2 (Arena.exists_get? (hover.held id hid))
  obtain ⟨b, hredirect⟩ := Edit.exists_redirectAll (s := table) hredirectable
  have halt := altered_of_overridden hnet.held hover hredirect
  refine ⟨⟨layers'⟩, b, Edit.yields_bind.2 ⟨_, c, hchains, Edit.yields_bind.2 ⟨_, b, hredirect,
    Edit.yields_reading.2 ⟨new_eq_ok_iff.2 ⟨rfl, halt.wellFormed hnet hshort⟩, rfl⟩⟩⟩⟩

/-- A network of neurons of at most two nodes can be overridden at any places that it has. -/
theorem exists_override (hnet : net.WellFormed a) (hshort : net.ShortChains)
    (hrange : ∀ l n, ov.contains (l, n) = true → n < net.layerSize l) :
    ∃ net' b, (net.override ov).Yields a net' b :=
  exists_override_of_shortAt hnet (hshort.shortAt ov) hrange

end Network

end PiecewiseNet
