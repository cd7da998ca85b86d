import PiecewiseNet.Proofs.Network.AlteredRuns

/-!
# Values of overridden networks

An overridden network computes what the network computes when, for all overridden neurons at once,
whatever reads the tail reads what replaces the activation. Its nodes may read neurons of their own
layer: nothing but the integrity check and short neurons is asked for.

## Main definitions

- `OverrideKind.output`: what replaces an activation, as a function of the pre-activation.
- `Network.ComputesUnder`: the values of a network under overrides, and the values that are read.
- `Network.Completes`: values for the nodes that overriding adds.

## Main statements

- `Network.Altered.exists_computesUnder`: what an overridden network computes are such values.
- `Network.Altered.compute_eq`: there are no others.
- `Network.exists_override_computing`: both at once, for every network that can be overridden.
-/

namespace PiecewiseNet

variable {α : Type} [Scalar α]

/-- What is read in place of the output of a neuron: `x` is its pre-activation, and `free` the value
that is chosen where the activation is dropped. -/
def OverrideKind.output (kind : OverrideKind) (x free : α) : α :=
  match kind with
  | .active => x
  | .inactive => 0
  | .nofunc => free

namespace OverrideKind

variable {kind : OverrideKind} {old bounds : Interval α}

theorem output_of_addedBounds_eq_none (h : kind.addedBounds old = none) (x free : α) :
    kind.output x free = x := by
  cases kind with
  | active => rfl
  | inactive => cases h
  | nofunc => cases h

/-- Where a node is added the pre-activation does not matter. -/
theorem output_of_addedBounds_eq_some (h : kind.addedBounds old = some bounds) (x y free : α) :
    kind.output x free = kind.output y free := by
  cases kind with
  | active => cases h
  | inactive => rfl
  | nofunc => rfl

end OverrideKind

namespace Network

/-- The values of a network under overrides, from values `v` of its free nodes: `w` are the values
of the nodes and `r` the values that are read. -/
structure ComputesUnder (net : Network) (a : Arena α) (ov : Overrides) (v : Valuation α)
    (free : Nat → Nat → α) (w r : Valuation α) : Prop where
  /-- A node has the value that it computes from what is read. -/
  value : ∀ id ∈ net.nodes, ∃ n, a.get? id = some n ∧ w id = n.kind.value r (v id)
  /-- All nodes but the tails of overridden neurons are read as they are. -/
  read : ∀ l n c, chainAt net.layers l n = some c → ∀ id ∈ c,
    ov.kindAt l n = none ∨ c.getLast? ≠ some id → r id = w id
  /-- In place of such a tail what replaces the activation is read. -/
  replaced : ∀ l n c, chainAt net.layers l n = some c → ∀ kind ∈ ov.kindAt l n,
    ∀ head ∈ c.head?, ∀ tail ∈ c.getLast?, r tail = kind.output (w head) (free l n)

/-- Values that keep those of the network and give to the nodes that overriding added what the
overrides put out. -/
structure Completes (net net' : Network) (ov : Overrides) (v : Valuation α) (free : Nat → Nat → α)
    (v' : Valuation α) : Prop where
  old : ∀ id ∈ net.nodes, v' id = v id
  /-- A node behind the head of an overridden neuron is an added one. -/
  added : ∀ l n kind head new, ov.kindAt l n = some kind →
    chainAt net'.layers l n = some [head, new] → ∀ x, v' new = kind.output x (free l n)

namespace Altered

variable {net net' : Network} {a b : Arena α} {ov : Overrides} {table : Substitution}
  {v v' w r : Valuation α} {free : Nat → Nat → α} {id head tail : NodeId} {l n : Nat} {c : Chain}
  {kind : OverrideKind} (h : net.Altered a ov net' b table)

include h

/-! ## The nodes of both networks -/

/-- A node that stays is a node of the altered network. -/
theorem mem_nodes_of_stays {places : Nat → Nat → Prop} (hid : net.Stays ov.kindAt places id) :
    id ∈ net'.nodes := by
  obtain ⟨l, n, c', -, hc', hmem⟩ := h.exists_of_stays hid
  exact mem_nodes hc' hmem

/-- Heads stay. -/
theorem head_mem_nodes (hc : chainAt net.layers l n = some c) (hhead : c.head? = some head) :
    head ∈ net'.nodes := by
  have hstays : net.Stays ov.kindAt (fun _ _ => True) head :=
    ⟨l, n, c, trivial, hc, List.mem_of_head? hhead, .inr hhead⟩
  exact h.mem_nodes_of_stays hstays

/-- In short neurons all nodes stay but the tails of overridden ones. -/
theorem mem_nodes_of_not_tail (hshort : net.ShortChains) (hc : chainAt net.layers l n = some c)
    (hid : id ∈ c) (hnot : ov.kindAt l n = none ∨ c.getLast? ≠ some id) : id ∈ net'.nodes := by
  have hstays : net.Stays ov.kindAt (fun _ _ => True) id :=
    ⟨l, n, c, trivial, hc, hid, hnot.imp_right
      (mem_of_length_le_two (shortChains_iff.1 hshort l n c hc) hid).resolve_right⟩
  exact h.mem_nodes_of_stays hstays

/-! ## The added nodes -/

/-- Where the table leads from the tail of an overridden neuron that gets a new node, there is a
free node with the bounds that the override gives it. -/
theorem exists_added {m : Node α} {bounds : Interval α} (hkind : ov.kindAt l n = some kind)
    (hc : chainAt net.layers l n = some c) (htail : c.getLast? = some tail)
    (hm : a.get? tail = some m) (hadded : kind.addedBounds m.bounds = some bounds) :
    ∃ o, b.get? (table.apply tail) = some o ∧ o.kind = .plain ∧ o.bounds = bounds := by
  obtain ⟨c', -, head, tail', m', -, htail', hm', hcases⟩ := h.exists_replaces hkind hc
  obtain rfl : tail = tail' := Option.some.inj (htail.symm.trans htail')
  obtain rfl : m = m' := Option.some.inj (hm.symm.trans hm')
  rcases hcases with ⟨hnone, -⟩ | ⟨bounds', new, o, hsome, -, happly, -, ho, hplain, hbounds⟩
  · rw [hadded] at hnone
    cases hnone
  · obtain rfl : bounds = bounds' := Option.some.inj (hadded.symm.trans hsome)
    exact ⟨o, happly ▸ ho, hplain, hbounds⟩

/-- All values of the network can be completed, with any values in place of dropped activations. -/
theorem exists_completes (hnet : net.WellFormed a) (v : Valuation α) (free : Nat → Nat → α) :
    ∃ v', net.Completes net' ov v free v' := by
  -- What an added node has to be does not depend on the pre-activation.
  obtain ⟨g, hg⟩ := exists_at_places h.nodup fun l n =>
    ((ov.kindAt l n).map fun kind => kind.output 0 (free l n)).getD 0
  refine ⟨fun id => if id < a.size then v id else g id, ?_, ?_⟩
  · exact fun id hid => if_pos (hnet.held id hid)
  · intro l n kind head new hkind hc' x
    obtain ⟨c, hc⟩ := h.exists_chainAt_iff.1 ⟨_, hc'⟩
    obtain ⟨c', hat, head', tail, m, -, -, -, hcases⟩ := h.exists_replaces hkind hc
    obtain rfl : [head, new] = c' := Option.some.inj (hc'.symm.trans hat)
    rcases hcases with ⟨-, hsingle, -⟩ | ⟨bounds, new', o, hsome, hpair, -, hge, -⟩
    · simp at hsingle
    · obtain ⟨-, rfl⟩ : head = head' ∧ new = new' := by simpa using hpair
      show (if new < a.size then v new else g new) = kind.output x (free l n)
      rw [if_neg (Nat.not_lt.2 hge), hg l n _ hc' new (by simp), hkind]
      exact OverrideKind.output_of_addedBounds_eq_some hsome 0 x (free l n)

/-! ## Computed values -/

variable (hnet' : net'.WellFormed b)

include hnet'

/-- A node of both networks reads where the table leads from what it read, and computes its value
from there. -/
theorem exists_compute_eq (hid : id ∈ net'.nodes) (hlt : id < a.size) (hv : v' id = v id) :
    ∃ m, a.get? id = some m ∧ (∀ s ∈ m.kind.references, b.Reads id (table.apply s)) ∧
      b.compute net'.nodes v' id =
        m.kind.value (fun i => b.compute net'.nodes v' (table.apply i)) (v id) := by
  obtain ⟨m, m', hm, hm', hkind, -⟩ := h.node id hid hlt
  refine ⟨m, hm, ?_, ?_⟩
  · intro s hs
    rw [Arena.reads_iff hm', Node.references, hkind, NodeKind.references_redirect]
    exact List.mem_map_of_mem hs
  · rw [hnet'.compute_eq v' hid hm', hkind, NodeKind.value_redirect, hv]

/-- Where the table leads from the tail of an overridden neuron, what replaces its activation is
computed. -/
theorem compute_tail (hv : net.Completes net' ov v free v') (hkind : ov.kindAt l n = some kind)
    (hc : chainAt net.layers l n = some c) (hhead : c.head? = some head)
    (htail : c.getLast? = some tail) :
    b.compute net'.nodes v' (table.apply tail) =
        kind.output (b.compute net'.nodes v' head) (free l n) ∧
      (table.apply tail = head ∨ ∀ x y, kind.output x (free l n) = kind.output y (free l n)) := by
  obtain ⟨c', hc', head', tail', m, hhead', htail', -, hcases⟩ := h.exists_replaces hkind hc
  obtain rfl : head = head' := Option.some.inj (hhead.symm.trans hhead')
  obtain rfl : tail = tail' := Option.some.inj (htail.symm.trans htail')
  rcases hcases with ⟨hnone, -, happly⟩ | ⟨bounds, new, o, hsome, rfl, happly, -, ho, hplain, -⟩
  · rw [happly, OverrideKind.output_of_addedBounds_eq_none hnone]
    exact ⟨rfl, .inl rfl⟩
  · refine ⟨?_, .inr fun x y => OverrideKind.output_of_addedBounds_eq_some hsome x y _⟩
    rw [happly, hnet'.compute_eq v' (mem_nodes hc' (by simp)) ho, hplain, NodeKind.value_plain]
    exact hv.added l n kind head new hkind hc' _

variable (hnet : net.WellFormed a)

include hnet

/-- What an altered network computes are the values of the network under the overrides; a node is
read where the table leads. -/
theorem exists_computesUnder (hshort : net.ShortChains)
    (hv : net.Completes net' ov v free v') :
    ∃ w, net.ComputesUnder a ov v free w fun i => b.compute net'.nodes v' (table.apply i) := by
  -- The replaced tails, too, compute a value, though nothing reads it any more.
  have hvalue (r : Valuation α) : ∃ w : Valuation α, ∀ id m, a.get? id = some m →
      w id = m.kind.value r (v id) := by
    refine ⟨fun id => ((a.get? id).map fun m => m.kind.value r (v id)).getD 0, ?_⟩
    intro id m hm
    simp only [hm, Option.map_some, Option.getD_some]
  obtain ⟨w, hw⟩ := hvalue fun i => b.compute net'.nodes v' (table.apply i)
  have hsame : ∀ id ∈ net.nodes, id ∈ net'.nodes → w id = b.compute net'.nodes v' id := by
    intro id hid hid'
    obtain ⟨m, hm, -, heq⟩ := h.exists_compute_eq hnet' hid' (hnet.held id hid) (hv.old id hid)
    exact (hw id m hm).trans heq.symm
  refine ⟨w, ?_, ?_, ?_⟩
  · intro id hid
    obtain ⟨m, hm⟩ := Arena.exists_get? (hnet.held id hid)
    exact ⟨m, hm, hw id m hm⟩
  · intro l n c hc id hid hnot
    rw [h.apply_of_not_tail hnet.nodup hc hid hnot,
      hsame id (mem_nodes hc hid) (h.mem_nodes_of_not_tail hshort hc hid hnot)]
  · intro l n c hc kind hkind head hhead tail htail
    rw [(h.compute_tail hnet' hv hkind hc hhead htail).1,
      hsame head (mem_nodes hc (List.mem_of_head? hhead)) (h.head_mem_nodes hc hhead)]

/-- A node is read as what stands where the table leads, as soon as the values agree there. -/
theorem read_eq_compute (hv : net.Completes net' ov v free v')
    (hw : net.ComputesUnder a ov v free w r) (hid : id ∈ net.nodes)
    (hagree : table.apply id ∈ net.nodes →
      w (table.apply id) = b.compute net'.nodes v' (table.apply id)) :
    r id = b.compute net'.nodes v' (table.apply id) := by
  obtain ⟨l, n, c, hc, hmem⟩ := mem_nodes_iff.1 hid
  by_cases hnot : ov.kindAt l n = none ∨ c.getLast? ≠ some id
  · have happly := h.apply_of_not_tail hnet.nodup hc hmem hnot
    rw [happly] at hagree ⊢
    rw [hw.read l n c hc id hmem hnot, hagree hid]
  · rw [not_or, not_not] at hnot
    obtain ⟨hsome, htail⟩ := hnot
    obtain ⟨kind, hkind⟩ := Option.ne_none_iff_exists'.1 hsome
    obtain ⟨head, hhead⟩ := Option.isSome_iff_exists.1
      (List.isSome_head?.2 (hnet.chains_ne_nil l n c hc))
    obtain ⟨hcompute, hcases⟩ := h.compute_tail hnet' hv hkind hc hhead htail
    rw [hw.replaced l n c hc kind hkind head hhead id htail, hcompute]
    rcases hcases with happly | hfree
    · rw [happly] at hagree
      rw [hagree (mem_nodes hc (List.mem_of_head? hhead))]
    · exact hfree _ _

/-- Values of the network under the overrides are those that the altered network computes. -/
theorem compute_eq (hshort : net.ShortChains) (hv : net.Completes net' ov v free v')
    (hw : net.ComputesUnder a ov v free w r) :
    (∀ id ∈ net.nodes, id ∈ net'.nodes → b.compute net'.nodes v' id = w id) ∧
      ∀ id ∈ net.nodes, b.compute net'.nodes v' (table.apply id) = r id := by
  -- By induction along what the nodes of the altered network read.
  have hsame : ∀ id ∈ net'.nodes, id ∈ net.nodes → w id = b.compute net'.nodes v' id := by
    refine hnet'.induction ?_
    intro id hid' ih hid
    obtain ⟨m, hm, hreads, heq⟩ :=
      h.exists_compute_eq hnet' hid' (hnet.held id hid) (hv.old id hid)
    obtain ⟨o, ho, hvalue⟩ := hw.value id hid
    obtain rfl : m = o := Option.some.inj (hm.symm.trans ho)
    rw [hvalue, heq]
    refine NodeKind.value_congr ?_ _
    intro s hs
    have hmem := hnet.closed id hid s ((Arena.reads_iff hm).2 hs)
    exact h.read_eq_compute hnet' hnet hv hw hmem (ih _ (hreads s hs))
  refine ⟨fun id hid hid' => (hsame id hid' hid).symm, ?_⟩
  intro id hid
  obtain ⟨l, n, c, hc, hmem⟩ := mem_nodes_iff.1 hid
  obtain ⟨c', hc', hmem'⟩ := h.apply_mem hnet.nodup (hshort.shortAt ov) hc hmem
  exact (h.read_eq_compute hnet' hnet hv hw hid (hsame _ (mem_nodes hc' hmem'))).symm

end Altered

variable {net : Network} {a : Arena α} {ov : Overrides}

/-- An accepted network of short neurons can be overridden at any places that it has. The result is
accepted; neurons without an override are kept, and the other ones keep their head and lose their
old tail, which nothing reads any more unless it is the head. Where an activation is dropped there
is a free node with the bounds of the old tail. Whatever values the free nodes of the network have,
and whatever values are chosen in place of dropped activations, the nodes of both networks have the
values that the network computes when all consumers of overridden tails read what replaces the
activations; and what stands in place of a tail has the value that its consumers read. -/
theorem exists_override_computing (hnet : net.Accepted a) (hshort : net.ShortChains)
    (hrange : ∀ l n, ov.contains (l, n) = true → n < net.layerSize l) :
    ∃ net' b table, (net.override ov).Yields a net' b ∧ net'.Accepted b ∧
      net.Altered a ov net' b table ∧
      (∀ l n c head, chainAt net.layers l n = some c → c.head? = some head → head ∈ net'.nodes) ∧
      (∀ l n c tail, ov.contains (l, n) = true → chainAt net.layers l n = some c →
        c.getLast? = some tail → tail ∉ net'.nodes → ∀ id ∈ net'.nodes, ¬b.Reads id tail) ∧
      (∀ l n c kind tail m bounds, chainAt net.layers l n = some c → ov.kindAt l n = some kind →
        c.getLast? = some tail → a.get? tail = some m → kind.addedBounds m.bounds = some bounds →
          ∃ o, b.get? (table.apply tail) = some o ∧ o.kind = .plain ∧ o.bounds = bounds) ∧
      ∀ (v : Valuation α) (free : Nat → Nat → α),
        (∃ v', net.Completes net' ov v free v') ∧
        (∃ w r, net.ComputesUnder a ov v free w r) ∧
        ∀ v' w r, net.Completes net' ov v free v' → net.ComputesUnder a ov v free w r →
          (∀ id ∈ net.nodes, id ∈ net'.nodes → b.compute net'.nodes v' id = w id) ∧
            ∀ id ∈ net.nodes, b.compute net'.nodes v' (table.apply id) = r id := by
  rw [accepted_iff] at hnet
  obtain ⟨net', b, hover⟩ := exists_override hnet hshort hrange
  obtain ⟨table, halt, hnet'⟩ := override_yields hover hnet.nodup hnet.held
  refine ⟨net', b, table, hover, accepted_iff.2 hnet', halt, fun _ _ _ _ => halt.head_mem_nodes, ?_,
    fun _ _ _ _ _ _ _ hc hkind => halt.exists_added hkind hc, ?_⟩
  · intro l n c tail _ _ _ hnot id hid hread
    exact hnot (hnet'.closed id hid tail hread)
  · intro v free
    obtain ⟨v', hv⟩ := halt.exists_completes hnet v free
    obtain ⟨w, hw⟩ := halt.exists_computesUnder hnet' hnet hshort hv
    exact ⟨⟨v', hv⟩, ⟨w, _, hw⟩, fun _ _ _ hv hw => halt.compute_eq hnet' hnet hshort hv hw⟩

/-- Neurons that feed others of their own layer. -/
def feeding : Network :=
  ⟨[[[0]], [[1, 2], [3, 4]], [[5], [6, 7]], [[8]]]⟩

/-- The nodes of neurons that feed others of their own layer. -/
def feedingArena : Arena Rat :=
  ⟨#[{ kind := .plain }, { kind := .affine [(1, 0)] 0 }, { kind := .relu 1 false },
    { kind := .affine [(2, 2), (1, 0)] 1 }, { kind := .relu 3 false },
    { kind := .affine [(1, 2), (1, 4)] 0 }, { kind := .affine [(3, 5), (1, 2)] 2 },
    { kind := .relu 6 false }, { kind := .affine [(5, 5), (1, 7)] 0 }]⟩

/-- All neurons of one layer are overridden, and a neuron of one node in the next layer. -/
def feedingOverrides : Overrides :=
  ((OrderedMap.empty.insert (1, 0) .active).insert (1, 1) .nofunc).insert (2, 0) .inactive

/-- All overrides act at once: the neuron of one node keeps the value of its head, and its consumers
read zero. -/
theorem exists_override_computing_feeding :
    feeding.Accepted feedingArena ∧ feeding.ShortChains ∧
      (∀ l n, feedingOverrides.contains (l, n) = true → n < feeding.layerSize l) ∧
      ∃ net' b, ∃ table : Substitution, ∃ v : Valuation Rat,
        (feeding.override feedingOverrides).Yields feedingArena net' b ∧ net'.Accepted b ∧
          v 0 = -1 ∧ b.compute net'.nodes v (table.apply 4) = 3 ∧ b.compute net'.nodes v 5 = 2 ∧
            b.compute net'.nodes v (table.apply 5) = 0 ∧ b.compute net'.nodes v 8 = 1 := by
  have haccepted : feeding.Accepted feedingArena := by rfl
  have hshort : feeding.ShortChains := by decide
  have hrange : ∀ l n, feedingOverrides.contains (l, n) = true → n < feeding.layerSize l := by
    intro l n hkey
    have hmem : (l, n) ∈ [(1, 0), (1, 1), (2, 0)] := OrderedMap.contains_eq_true_iff.1 hkey
    simp only [List.mem_cons, Prod.mk.injEq, List.not_mem_nil, or_false] at hmem
    rcases hmem with ⟨rfl, rfl⟩ | ⟨rfl, rfl⟩ | ⟨rfl, rfl⟩ <;> decide
  have hw : feeding.ComputesUnder feedingArena feedingOverrides (fun _ => -1) (fun _ _ => 3)
      (fun id => [-1, -1, 0, -2, 0, 2, 1, 1, 1][id]?.getD 0)
      fun id => [-1, -1, -1, -2, 3, 0, 1, 1, 1][id]?.getD 0 :=
    ⟨by decide +kernel, by decide +kernel, by decide +kernel⟩
  obtain ⟨net', b, table, hover, hnet', -, hheads, -, -, hvalues⟩ :=
    exists_override_computing haccepted hshort hrange
  obtain ⟨⟨v, hv⟩, -, hcompute⟩ := hvalues (fun _ => -1) fun _ _ => 3
  obtain ⟨hsame, hread⟩ := hcompute v _ _ hv hw
  refine ⟨haccepted, hshort, hrange, net', b, table, v, hover, hnet', hv.old 0 (by decide),
    hread 4 (by decide), ?_, hread 5 (by decide), ?_⟩
  · exact hsame 5 (by decide) (hheads 2 0 [5] 5 rfl rfl)
  · exact hsame 8 (by decide) (hheads 3 0 [8] 8 rfl rfl)

end Network

end PiecewiseNet
