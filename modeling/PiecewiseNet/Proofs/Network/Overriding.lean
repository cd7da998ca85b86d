import PiecewiseNet.Override
import PiecewiseNet.Proofs.Maps
import PiecewiseNet.Proofs.Network.Duplication

/-!
# Overridden networks

Overriding keeps the shape of a network but for the overridden neurons, which keep their head, and
possibly get a free node behind it. Whatever read the old tail of such a neuron reads its new one.

## Main definitions

- `Arena.Relabels`: nodes were added, and of those that were there only labels changed.
- `OverrideKind.addedBounds`: the bounds of the node that an override adds, if it adds one.
- `Network.Replaces`: how an override replaces a neuron.
- `Network.Overridden`: what overrides do to the layers of a network.

## Main statements

- `Network.overrideChain_yields`: what one override does.
- `Network.overrideChains_yields`: what all overrides do together.
-/

namespace PiecewiseNet

variable {α : Type}

@[simp] theorem NodeKind.redirect_id (k : NodeKind α) : (k.redirect fun r => r) = k :=
  redirect_of_eq fun _ _ => rfl

/-! ## Keys -/

/-- No neuron has two overrides. -/
theorem Overrides.nodup_keys (ov : Overrides) : (ov.entries.map Prod.fst).Nodup := by
  rw [List.nodup_iff_pairwise_ne]
  refine ov.ascending.imp ?_
  rintro k k' hbefore rfl
  simp only [Key.before, decide_eq_true_eq] at hbefore
  omega

/-! ## Labels -/

/-- Nodes were added, and of the nodes that were there only the labels changed. -/
structure Arena.Relabels (a b : Arena α) : Prop where
  size : a.size ≤ b.size
  /-- What was there is unchanged up to its label. -/
  mirrors : ∀ j < a.size, a.Mirrors b (fun i => i) j

namespace Arena.Relabels

variable {a b c : Arena α}

theorem of_growsTo (h : a.GrowsTo b) : a.Relabels b := by
  refine ⟨h.size, ?_⟩
  intro j hj
  obtain ⟨n, hn⟩ := Arena.exists_get? hj
  exact ⟨n, n, hn, (h.get? j hj).trans hn, (NodeKind.redirect_id _).symm, rfl⟩

theorem trans (h : a.Relabels b) (h' : b.Relabels c) : a.Relabels c :=
  ⟨h.size.trans h'.size, fun j hj =>
    (h.mirrors j hj).trans (h'.mirrors j (Nat.lt_of_lt_of_le hj h.size))⟩

/-- A node that was there has its kind and its bounds. -/
theorem get? (h : a.Relabels b) {j : NodeId} {n : Node α} (hn : a.get? j = some n) :
    ∃ m, b.get? j = some m ∧ m.kind = n.kind ∧ m.bounds = n.bounds := by
  obtain ⟨n', m, hn', hm, hkind, hbounds⟩ := h.mirrors j (Arena.lt_size_of_get? hn)
  obtain rfl : n = n' := by simpa [hn] using hn'
  exact ⟨m, hm, hkind.trans (NodeKind.redirect_id _), hbounds⟩

theorem get?_plain (h : a.Relabels b) (j : NodeId) (n : Node α) (hn : a.get? j = some n)
    (hkind : n.kind = .plain) :
    ∃ m, b.get? j = some m ∧ m.kind = .plain ∧ m.bounds = n.bounds := by
  obtain ⟨m, hm, hk, hbounds⟩ := h.get? hn
  exact ⟨m, hm, hk.trans hkind, hbounds⟩

/-- Another label for a node. -/
theorem relabel {id : NodeId} {n : Node α} (hn : a.get? id = some n) (label : Option String) :
    a.Relabels (a.set id { n with label }) := by
  refine ⟨by rw [Arena.size_set], ?_⟩
  intro j hj
  obtain ⟨m, hm⟩ := Arena.exists_get? hj
  by_cases hid : id = j
  · subst hid
    obtain rfl : n = m := by simpa [hn] using hm
    refine ⟨n, { n with label }, hn, ?_, (NodeKind.redirect_id _).symm, rfl⟩
    rw [Arena.get?_set, if_pos ⟨rfl, hj⟩]
  · refine ⟨m, m, hm, ?_, (NodeKind.redirect_id _).symm, rfl⟩
    rw [Arena.get?_set, if_neg fun h => hid h.1, hm]

/-- A new label for a node changes its label only. -/
theorem of_yields {id : NodeId} {label : Option String} {u : Unit}
    (h : (Edit.update id ({ · with label := label })).Yields a u b) :
    a.Relabels b ∧ b.size = a.size ∧ ∀ j, j ≠ id → b.get? j = a.get? j := by
  obtain ⟨n, hn, rfl⟩ := Edit.yields_update.1 h
  refine ⟨.relabel hn label, Arena.size_set .., ?_⟩
  intro j hj
  rw [Arena.get?_set, if_neg fun hid => hj hid.1.symm]

end Arena.Relabels

/-! ## One neuron -/

/-- The bounds of the node that an override adds, if it adds one, in place of a tail with the given
bounds. -/
def OverrideKind.addedBounds [Scalar α] (kind : OverrideKind) (old : Interval α) :
    Option (Interval α) :=
  match kind with
  | .active => none
  | .inactive => some (Interval.fixed 0)
  | .nofunc => some old

namespace Network

variable [Scalar α] {a b c : Arena α} {kind : OverrideKind} {chain chain' : Chain}
  {table table' : Substitution} {head tail : NodeId} {n : Node α}

/-- An override replaces a neuron by its head, possibly with a new free node behind it, and the
table leads from the old tail to the new one. -/
def Replaces (kind : OverrideKind) (a b : Arena α) (table : Substitution)
    (chain chain' : Chain) : Prop :=
  ∃ head tail n, chain.head? = some head ∧ chain.getLast? = some tail ∧ a.get? tail = some n ∧
    (kind.addedBounds n.bounds = none ∧ chain' = [head] ∧ table.apply tail = head ∨
      ∃ bounds new m, kind.addedBounds n.bounds = some bounds ∧ chain' = [head, new] ∧
        table.apply tail = new ∧ a.size ≤ new ∧ b.get? new = some m ∧ m.kind = .plain ∧
        m.bounds = bounds)

theorem replacement_yields (h : (replacement kind head tail).Yields a chain b)
    (hn : a.get? tail = some n) :
    kind.addedBounds n.bounds = none ∧ chain = [head] ∧ b = a ∨
      ∃ bounds, kind.addedBounds n.bounds = some bounds ∧ chain = [head, a.size] ∧
        b = a.push { kind := .plain, bounds } := by
  cases kind with
  | active =>
    obtain ⟨rfl, rfl⟩ := Edit.yields_pure.1 h
    exact .inl ⟨rfl, rfl, rfl⟩
  | inactive =>
    obtain ⟨new, c, hpush, hpure⟩ := Edit.yields_bind.1 h
    obtain ⟨rfl, rfl⟩ := Edit.yields_push.1 hpush
    obtain ⟨rfl, rfl⟩ := Edit.yields_pure.1 hpure
    exact .inr ⟨_, rfl, rfl, rfl⟩
  | nofunc =>
    obtain ⟨old, c, hnode, hrest⟩ := Edit.yields_bind.1 h
    obtain ⟨hold, rfl⟩ := Edit.yields_node.1 hnode
    obtain ⟨new, d, hpush, hpure⟩ := Edit.yields_bind.1 hrest
    obtain ⟨rfl, rfl⟩ := Edit.yields_push.1 hpush
    obtain ⟨rfl, rfl⟩ := Edit.yields_pure.1 hpure
    obtain rfl : n = old := by simpa [hn] using hold
    exact .inr ⟨_, rfl, rfl, rfl⟩

theorem exists_replacement (kind : OverrideKind) (head : NodeId) (hn : a.get? tail = some n) :
    ∃ chain b, (replacement kind head tail).Yields a chain b := by
  cases kind with
  | active => exact ⟨_, _, Edit.yields_pure.2 ⟨rfl, rfl⟩⟩
  | inactive =>
    exact ⟨_, _, Edit.yields_bind.2 ⟨_, _, Edit.yields_push.2 ⟨rfl, rfl⟩,
      Edit.yields_pure.2 ⟨rfl, rfl⟩⟩⟩
  | nofunc =>
    exact ⟨_, _, Edit.yields_bind.2 ⟨n, a, Edit.yields_node.2 ⟨hn, rfl⟩,
      Edit.yields_bind.2 ⟨_, _, Edit.yields_push.2 ⟨rfl, rfl⟩, Edit.yields_pure.2 ⟨rfl, rfl⟩⟩⟩⟩

/-- Overriding a neuron makes the replacement, labels its tail and enters it into the table. -/
theorem overrideChain_steps (h : (overrideChain kind chain table).Yields a (chain', table') b) :
    ∃ head tail c, chain.head? = some head ∧ chain.getLast? = some tail ∧
      (replacement kind head tail).Yields a chain' c ∧ c.Relabels b ∧ b.size = c.size ∧
      (∀ j, j ≠ chain'.getLast?.getD head → b.get? j = c.get? j) ∧
      table' = if chain'.getLast?.getD head = tail then table
        else table.insert tail (chain'.getLast?.getD head) := by
  unfold overrideChain at h
  split at h
  · rename_i head tail hhead htail
    obtain ⟨chain₁, c, hrep, h₁⟩ := Edit.yields_bind.1 h
    obtain ⟨m, d, hnode, h₂⟩ := Edit.yields_bind.1 h₁
    obtain ⟨-, rfl⟩ := Edit.yields_node.1 hnode
    dsimp only at h₂
    cases hlabel : m.label with
    | none =>
      rw [hlabel] at h₂
      obtain ⟨heq, rfl⟩ := Edit.yields_pure.1 h₂
      cases heq
      exact ⟨head, tail, b, hhead, htail, hrep, .of_growsTo (.refl b), rfl, fun _ _ => rfl, rfl⟩
    | some l =>
      rw [hlabel] at h₂
      obtain ⟨u, e, hupdate, h₃⟩ := Edit.yields_bind.1 h₂
      obtain ⟨heq, rfl⟩ := Edit.yields_pure.1 h₃
      cases heq
      obtain ⟨hrelabels, hsize, hother⟩ := Arena.Relabels.of_yields hupdate
      exact ⟨head, tail, d, hhead, htail, hrep, hrelabels, hsize, hother, rfl⟩
  · exact absurd h Edit.not_yields_throw

/-- Overriding a neuron replaces it. Nothing else changes but the label of its new tail. -/
theorem overrideChain_yields
    (h : (overrideChain kind chain table).Yields a (chain', table') b)
    (hheld : ∀ id ∈ chain, id < a.size) (hfix : ∀ id ∈ chain, table.apply id = id) :
    Replaces kind a b table' chain chain' ∧ a.Relabels b ∧
      (∀ j < a.size, j ∉ chain → b.get? j = a.get? j) ∧ (∀ id ∈ chain', id < b.size) ∧
      ∀ id, chain.getLast? ≠ some id → table'.apply id = table.apply id := by
  obtain ⟨head, tail, c, hhead, htail, hrep, hrelabels, hsize, hother, rfl⟩ :=
    overrideChain_steps h
  have hheadmem := List.mem_of_head? hhead
  have htailmem := List.mem_of_getLast? htail
  obtain ⟨n, hn⟩ := Arena.exists_get? (hheld tail htailmem)
  have htable : ∀ new, (if new = tail then table else table.insert tail new).apply tail = new ∧
      ∀ id, chain.getLast? ≠ some id →
        (if new = tail then table else table.insert tail new).apply id = table.apply id := by
    intro new
    split
    · rename_i heq
      exact ⟨(hfix tail htailmem).trans heq.symm, fun _ _ => rfl⟩
    · refine ⟨by rw [Substitution.apply_insert, if_pos rfl], ?_⟩
      rintro id hid
      rw [Substitution.apply_insert, if_neg]
      rintro rfl
      exact hid htail
  rcases replacement_yields hrep hn with ⟨hbounds, rfl, rfl⟩ | ⟨bounds, hbounds, rfl, rfl⟩
  · obtain ⟨htailto, helse⟩ := htable head
    refine ⟨⟨head, tail, n, hhead, htail, hn, .inl ⟨hbounds, rfl, htailto⟩⟩, hrelabels, ?_, ?_,
      helse⟩
    · intro j _ hj
      exact hother j fun heq => hj (heq ▸ hheadmem)
    · intro id hid
      rw [hsize, List.mem_singleton.1 hid]
      exact hheld head hheadmem
  · obtain ⟨htailto, helse⟩ := htable a.size
    have hpush := Arena.growsTo_push a { kind := .plain, bounds }
    obtain ⟨m, hm, hkind, hmbounds⟩ := hrelabels.get? (j := a.size)
      (n := { kind := .plain, bounds }) (by rw [Arena.get?_push, if_pos rfl])
    refine ⟨⟨head, tail, n, hhead, htail, hn, .inr ⟨bounds, a.size, m, hbounds, rfl, htailto,
      Nat.le_refl _, hm, hkind, hmbounds⟩⟩, (Arena.Relabels.of_growsTo hpush).trans hrelabels,
      ?_, ?_, helse⟩
    · intro j hlt _
      rw [hother j (Nat.ne_of_lt hlt), hpush.get? j hlt]
    · intro id hid
      rw [hsize, Arena.size_push]
      rcases List.mem_cons.1 hid with rfl | hid
      · exact Nat.lt_succ_of_lt (hheld id hheadmem)
      · rw [List.mem_singleton.1 hid]
        exact Nat.lt_succ_self _

/-- A neuron whose nodes are in the arena can be overridden. -/
theorem exists_overrideChain (kind : OverrideKind) (table : Substitution) (hne : chain ≠ [])
    (hheld : ∀ id ∈ chain, id < a.size) :
    ∃ p b, (overrideChain kind chain table).Yields a p b := by
  obtain ⟨head, hhead⟩ := Option.isSome_iff_exists.1 (List.isSome_head?.2 hne)
  obtain ⟨tail, htail⟩ := Option.isSome_iff_exists.1 (List.getLast?_isSome.2 hne)
  obtain ⟨n, hn⟩ := Arena.exists_get? (hheld tail (List.mem_of_getLast? htail))
  obtain ⟨chain', c, hrep⟩ := exists_replacement kind head hn
  -- Both the old tail and the new one are in the arena now.
  have htailc : ∃ m, c.get? tail = some m := by
    rcases replacement_yields hrep hn with ⟨-, -, rfl⟩ | ⟨bounds, -, -, rfl⟩
    · exact ⟨n, hn⟩
    · exact ⟨n, (Arena.growsTo_push a _).get?_eq_some hn⟩
  have hnewc : ∃ m, c.get? (chain'.getLast?.getD head) = some m := by
    rcases replacement_yields hrep hn with ⟨-, rfl, rfl⟩ | ⟨bounds, -, rfl, rfl⟩
    · exact Arena.exists_get? (hheld head (List.mem_of_head? hhead))
    · exact ⟨_, by rw [Arena.get?_push]; exact if_pos rfl⟩
  obtain ⟨m, hm⟩ := htailc
  obtain ⟨m', hm'⟩ := hnewc
  let newTail := chain'.getLast?.getD head
  let table' := if newTail = tail then table else table.insert tail newTail
  unfold overrideChain
  rw [hhead, htail]
  cases hlabel : m.label with
  | none =>
    refine ⟨(chain', table'), c, Edit.yields_bind.2 ⟨chain', c, hrep, ?_⟩⟩
    refine Edit.yields_bind.2 ⟨m, c, Edit.yields_node.2 ⟨hm, rfl⟩, ?_⟩
    dsimp only
    rw [hlabel]
    exact Edit.yields_pure.2 ⟨rfl, rfl⟩
  | some l =>
    refine ⟨(chain', table'), c.set newTail { m' with label := some (l ++ "_" ++ kind.text) },
      Edit.yields_bind.2 ⟨chain', c, hrep, ?_⟩⟩
    refine Edit.yields_bind.2 ⟨m, c, Edit.yields_node.2 ⟨hm, rfl⟩, ?_⟩
    dsimp only
    rw [hlabel]
    exact Edit.yields_bind.2 ⟨(), _, Edit.yields_update.2 ⟨m', hm', rfl⟩,
      Edit.yields_pure.2 ⟨rfl, rfl⟩⟩

/-! ## All neurons -/

/-- What overrides do to layers, one after the other. -/
structure Overridden (layers : List Layer) (a : Arena α) (es : List ((Nat × Nat) × OverrideKind))
    (table : Substitution) (layers' : List Layer) (b : Arena α) (table' : Substitution) : Prop where
  length : layers'.length = layers.length
  /-- Other neurons are kept. -/
  kept : ∀ l n, (l, n) ∉ es.map Prod.fst → chainAt layers' l n = chainAt layers l n
  /-- The overridden neurons are replaced. -/
  replaced : ∀ e ∈ es, ∃ chain chain', chainAt layers e.1.1 e.1.2 = some chain ∧
    chainAt layers' e.1.1 e.1.2 = some chain' ∧ Replaces e.2 a b table' chain chain'
  /-- Only the old tails of overridden neurons are entered into the table. -/
  other : ∀ id, (∀ e ∈ es, ∀ chain, chainAt layers e.1.1 e.1.2 = some chain →
    chain.getLast? ≠ some id) → table'.apply id = table.apply id
  /-- Of the nodes that were there only labels changed. -/
  relabels : a.Relabels b
  outside : ∀ j < a.size, j ∉ nodes ⟨layers⟩ → b.get? j = a.get? j
  nodup : (nodes ⟨layers'⟩).Nodup
  held : ∀ id ∈ nodes ⟨layers'⟩, id < b.size

/-- A replaced neuron has the old head and new free nodes. -/
theorem Replaces.mem (h : Replaces kind a b table chain chain') {id : NodeId} (hid : id ∈ chain') :
    chain.head? = some id ∨ a.size ≤ id ∧ IsFree b id := by
  obtain ⟨head, tail, n, hhead, -, -, ⟨-, rfl, -⟩ | ⟨bounds, new, m, -, rfl, -, hnew, hm, hkind,
    -⟩⟩ := h
  · rw [List.mem_singleton.1 hid]
    exact .inl hhead
  · rcases List.mem_cons.1 hid with rfl | hid
    · exact .inl hhead
    · rw [List.mem_singleton.1 hid]
      exact .inr ⟨hnew, m, hm, hkind⟩

theorem Replaces.nodup (h : Replaces kind a b table chain chain')
    (hheld : ∀ id ∈ chain, id < a.size) : chain'.Nodup := by
  obtain ⟨head, tail, n, hhead, -, -, ⟨-, rfl, -⟩ | ⟨bounds, new, m, -, rfl, -, hnew, -⟩⟩ := h
  · exact List.nodup_singleton _
  · have hlt := hheld head (List.mem_of_head? hhead)
    simp only [List.nodup_cons, List.mem_singleton, List.not_mem_nil, not_false_eq_true,
      List.nodup_nil, and_true]
    rintro rfl
    exact absurd hlt (Nat.not_lt.2 hnew)

/-- A replacement stays one when nodes are relabelled before it, and when its free nodes stay free
within their bounds after it. -/
theorem Replaces.mono {a' b' : Arena α} (h : Replaces kind a b table chain chain')
    (ha : a'.Relabels a) (hheld : ∀ id ∈ chain, id < a'.size)
    (hb : ∀ id ∈ chain', ∀ m, b.get? id = some m → m.kind = .plain →
      ∃ m', b'.get? id = some m' ∧ m'.kind = .plain ∧ m'.bounds = m.bounds)
    (htable : ∀ id, chain.getLast? = some id → table'.apply id = table.apply id) :
    Replaces kind a' b' table' chain chain' := by
  obtain ⟨head, tail, n, hhead, htail, hn, hcases⟩ := h
  obtain ⟨n', hn'⟩ := Arena.exists_get? (hheld tail (List.mem_of_getLast? htail))
  obtain ⟨n₁, hn₁, -, hbounds⟩ := ha.get? hn'
  obtain rfl : n₁ = n := by simpa [hn₁] using hn
  refine ⟨head, tail, n', hhead, htail, hn', ?_⟩
  rw [htable tail htail, ← hbounds]
  rcases hcases with hactive | ⟨bounds, new, m, hadded, rfl, htailto, hnew, hm, hkind, hmb⟩
  · exact .inl hactive
  · obtain ⟨m', hm', hkind', hmb'⟩ := hb new (by simp) m hm hkind
    exact .inr ⟨bounds, new, m', hadded, rfl, htailto, ha.size.trans hnew, hm', hkind',
      hmb'.trans hmb⟩

variable {layers layers₁ layers' : List Layer} {l i : Nat} {table₁ : Substitution}
  {e : (Nat × Nat) × OverrideKind} {es : List ((Nat × Nat) × OverrideKind)}

/-- One override. -/
theorem overridden_of_overrideChain {layer : Layer} (hl : layers[l]? = some layer)
    (hi : layer[i]? = some chain)
    (h : (overrideChain kind chain table).Yields a (chain', table') b)
    (hnd : (nodes ⟨layers⟩).Nodup) (hheld : ∀ id ∈ nodes ⟨layers⟩, id < a.size)
    (hfix : ∀ id ∈ chain, table.apply id = id) :
    Overridden layers a [((l, i), kind)] table (layers.set l (layer.set i chain')) b table' := by
  have hat : chainAt layers l i = some chain := chainAt_eq_some_iff.2 ⟨layer, hl, hi⟩
  have hheldc : ∀ id ∈ chain, id < a.size := fun id hid =>
    hheld id (mem_nodes hat hid)
  obtain ⟨hrep, hrelabels, houtside, hheld', hother⟩ := overrideChain_yields h hheldc hfix
  refine ⟨List.length_set, ?_, ?_, ?_, hrelabels, ?_, ?_, ?_⟩
  · intro l' n' hkey
    rw [chainAt_set hl hi, if_neg]
    rintro ⟨rfl, rfl⟩
    exact hkey (by simp)
  · intro e he
    obtain rfl := List.mem_singleton.1 he
    exact ⟨chain, chain', hat, by rw [chainAt_set hl hi, if_pos ⟨rfl, rfl⟩], hrep⟩
  · intro id hid
    exact hother id (hid _ (List.mem_singleton.2 rfl) chain hat)
  · intro j hj hjnot
    exact houtside j hj fun hjc => hjnot (mem_nodes hat hjc)
  · refine nodup_nodes_set hl hi hnd (hrep.nodup hheldc) ?_
    intro id hid
    rcases hrep.mem hid with hold | ⟨hnew, -⟩
    · exact .inl (List.mem_of_head? hold)
    · exact .inr fun hmem => absurd (hheld id hmem) (Nat.not_lt.2 hnew)
  · intro id hid
    rcases mem_nodes_set hl hi hid with hnew | hold
    · exact hheld' id hnew
    · exact Nat.lt_of_lt_of_le (hheld id hold) hrelabels.size

/-- Overrides at other places come on top of one override. -/
theorem Overridden.cons (h : Overridden layers a [e] table layers₁ b table₁)
    (h' : Overridden layers₁ b es table₁ layers' c table') (hkey : e.1 ∉ es.map Prod.fst)
    (hnd : (nodes ⟨layers⟩).Nodup) (hheld : ∀ id ∈ nodes ⟨layers⟩, id < a.size) :
    Overridden layers a (e :: es) table layers' c table' := by
  have hne : ∀ e' ∈ es, e'.1 ≠ e.1 := fun e' he' heq => hkey (List.mem_map.2 ⟨e', he', heq⟩)
  -- The other neurons are not touched by the first override.
  have hsame : ∀ e' ∈ es, chainAt layers₁ e'.1.1 e'.1.2 = chainAt layers e'.1.1 e'.1.2 := by
    intro e' he'
    refine h.kept _ _ ?_
    simpa using hne e' he'
  obtain ⟨chain, chain', hat, hat', hrep⟩ := h.replaced e (List.mem_singleton.2 rfl)
  refine ⟨h'.length.trans h.length, ?_, ?_, ?_, h.relabels.trans h'.relabels, ?_, h'.nodup,
    h'.held⟩
  · intro l n hln
    rw [List.map_cons, List.mem_cons, not_or] at hln
    rw [h'.kept l n hln.2, h.kept l n (by simpa using hln.1)]
  · intro e' he'
    rcases List.mem_cons.1 he' with rfl | he'
    · refine ⟨chain, chain', hat, (h'.kept _ _ hkey).trans hat', ?_⟩
      refine hrep.mono (.of_growsTo (.refl a)) (fun id hid => hheld id (mem_nodes hat hid))
        (fun id _ => h'.relabels.get?_plain id) ?_
      intro id hid
      refine h'.other id ?_
      intro e'' he'' c' hc' hlast
      rw [hsame e'' he''] at hc'
      exact not_mem_of_place_ne hnd hc' hat (hne e'' he'')
        (List.mem_of_getLast? hlast) (List.mem_of_getLast? hid)
    · obtain ⟨c₁, c₂, hc₁, hc₂, hrep'⟩ := h'.replaced e' he'
      rw [hsame e' he'] at hc₁
      exact ⟨c₁, c₂, hc₁, hc₂, hrep'.mono h.relabels
        (fun id hid => hheld id (mem_nodes hc₁ hid)) (fun _ _ m hm hkind => ⟨m, hm, hkind, rfl⟩)
        fun _ _ => rfl⟩
  · intro id hid
    rw [h'.other id, h.other id]
    · intro e' he' c' hc'
      rw [List.mem_singleton.1 he'] at hc'
      exact hid e (List.mem_cons_self ..) c' hc'
    · intro e' he' c' hc'
      rw [hsame e' he'] at hc'
      exact hid e' (List.mem_cons_of_mem _ he') c' hc'
  · intro j hj hjnot
    have hjnot₁ : j ∉ nodes ⟨layers₁⟩ := by
      intro hj₁
      obtain ⟨l, n, c₁, hc₁, hjc⟩ := mem_nodes_iff.1 hj₁
      by_cases hplace : (l, n) = e.1
      · rw [← hplace] at hat hat'
        rw [hat'] at hc₁
        cases hc₁
        rcases hrep.mem hjc with hold | ⟨hnew, -⟩
        · exact hjnot (mem_nodes hat (List.mem_of_head? hold))
        · exact absurd hj (Nat.not_lt.2 hnew)
      · rw [h.kept l n (by simpa using hplace)] at hc₁
        exact hjnot (mem_nodes hc₁ hjc)
    rw [h'.outside j (Nat.lt_of_lt_of_le hj h.relabels.size) hjnot₁, h.outside j hj hjnot]

/-- After one override the table still leaves the neurons at other places alone. -/
theorem Overridden.fixes (h : Overridden layers a [e] table layers₁ b table₁)
    (hkey : e.1 ∉ es.map Prod.fst) (hnd : (nodes ⟨layers⟩).Nodup)
    (hfix : ∀ e' ∈ es, ∀ chain, chainAt layers e'.1.1 e'.1.2 = some chain →
      ∀ id ∈ chain, table.apply id = id) :
    ∀ e' ∈ es, ∀ chain, chainAt layers₁ e'.1.1 e'.1.2 = some chain →
      ∀ id ∈ chain, table₁.apply id = id := by
  intro e' he' c' hc' id hid
  have hne : e'.1 ≠ e.1 := fun heq => hkey (List.mem_map.2 ⟨e', he', heq⟩)
  rw [h.kept _ _ (by simpa using hne)] at hc'
  rw [h.other id, hfix e' he' c' hc' id hid]
  intro e'' he'' c'' hc'' hlast
  obtain rfl := List.mem_singleton.1 he''
  exact not_mem_of_place_ne hnd hc' hc'' hne hid (List.mem_of_getLast? hlast)

/-- Overrides at distinct places, one after the other. -/
theorem overrideChains_yields
    (h : (overrideChains es layers table).Yields a (layers', table') b)
    (hkeys : (es.map Prod.fst).Nodup) (hnd : (nodes ⟨layers⟩).Nodup)
    (hheld : ∀ id ∈ nodes ⟨layers⟩, id < a.size)
    (hfix : ∀ e ∈ es, ∀ chain, chainAt layers e.1.1 e.1.2 = some chain →
      ∀ id ∈ chain, table.apply id = id) :
    Overridden layers a es table layers' b table' := by
  induction es generalizing a layers table with
  | nil =>
    obtain ⟨heq, rfl⟩ := Edit.yields_pure.1 h
    cases heq
    exact ⟨rfl, fun _ _ _ => rfl, by simp, fun _ _ => rfl, .of_growsTo (.refl b),
      fun _ _ _ => rfl, hnd, hheld⟩
  | cons e es ih =>
    obtain ⟨⟨l, i⟩, kind⟩ := e
    obtain ⟨hkey, hkeys⟩ := List.nodup_cons.1 hkeys
    unfold overrideChains at h
    cases hl : layers[l]? with
    | none =>
      rw [hl] at h
      exact absurd h Edit.not_yields_throw
    | some layer =>
      rw [hl] at h
      dsimp only at h
      cases hi : layer[i]? with
      | none =>
        rw [hi] at h
        exact absurd h Edit.not_yields_throw
      | some chain =>
        rw [hi] at h
        obtain ⟨⟨chain', table₁⟩, c, hone, hrest⟩ := Edit.yields_bind.1 h
        have hat : chainAt layers l i = some chain := chainAt_eq_some_iff.2 ⟨layer, hl, hi⟩
        have hfirst := overridden_of_overrideChain hl hi hone hnd hheld
          (hfix _ (List.mem_cons_self ..) chain hat)
        exact hfirst.cons (ih hrest hkeys hfirst.nodup hfirst.held
          (hfirst.fixes hkey hnd fun e' he' => hfix e' (List.mem_cons_of_mem _ he'))) hkey hnd hheld

/-- Neurons that there are, at distinct places, can be overridden one after the other. -/
theorem exists_overrideChains (hkeys : (es.map Prod.fst).Nodup) (hnd : (nodes ⟨layers⟩).Nodup)
    (hheld : ∀ id ∈ nodes ⟨layers⟩, id < a.size)
    (hfix : ∀ e ∈ es, ∀ chain, chainAt layers e.1.1 e.1.2 = some chain →
      ∀ id ∈ chain, table.apply id = id)
    (hrange : ∀ e ∈ es, ∃ chain, chainAt layers e.1.1 e.1.2 = some chain ∧ chain ≠ []) :
    ∃ p b, (overrideChains es layers table).Yields a p b := by
  induction es generalizing a layers table with
  | nil => exact ⟨_, a, Edit.yields_pure.2 ⟨rfl, rfl⟩⟩
  | cons e es ih =>
    obtain ⟨⟨l, i⟩, kind⟩ := e
    obtain ⟨hkey, hkeys⟩ := List.nodup_cons.1 hkeys
    obtain ⟨chain, hat, hne⟩ := hrange _ (List.mem_cons_self ..)
    obtain ⟨layer, hl, hi⟩ := chainAt_eq_some_iff.1 hat
    obtain ⟨⟨chain', table₁⟩, c, hone⟩ := exists_overrideChain (a := a) kind table hne fun id hid =>
      hheld id (mem_nodes hat hid)
    have hfirst := overridden_of_overrideChain hl hi hone hnd hheld
      (hfix _ (List.mem_cons_self ..) chain hat)
    have hrange' : ∀ e' ∈ es, ∃ chain₁,
        chainAt (layers.set l (layer.set i chain')) e'.1.1 e'.1.2 = some chain₁ ∧ chain₁ ≠ [] := by
      intro e' he'
      have hplace : e'.1 ≠ (l, i) := fun heq => hkey (List.mem_map.2 ⟨e', he', heq⟩)
      rw [hfirst.kept _ _ (by simpa using hplace)]
      exact hrange e' (List.mem_cons_of_mem _ he')
    obtain ⟨p, b, hrest⟩ := ih hkeys hfirst.nodup hfirst.held
      (hfirst.fixes hkey hnd fun e' he' => hfix e' (List.mem_cons_of_mem _ he')) hrange'
    refine ⟨p, b, ?_⟩
    unfold overrideChains
    rw [hl]
    dsimp only
    rw [hi]
    exact Edit.yields_bind.2 ⟨_, c, hone, hrest⟩

end Network

end PiecewiseNet
