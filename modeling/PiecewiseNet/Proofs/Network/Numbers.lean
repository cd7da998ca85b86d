import PiecewiseNet.Proofs.Network.Altered
import PiecewiseNet.Proofs.Network.Clipping
import PiecewiseNet.Proofs.Network.Joining
import PiecewiseNet.Proofs.Replay.Queries

/-!
# Scalars of networks

The functions that copy, clip, override and join networks take the scalars of new nodes from old
ones, or put zero. So if all scalars of a network equal themselves, those of every network that is
made from it do.

## Main definitions

- `DefiniteSigns`: the constants and the negations that queries are made of equal themselves.
- `Node.numbers`: the scalars of a node.
- `Network.Definite`: all scalars of a network equal themselves.
- `Network.Exportable`: what the steps from a network to its queries preserve.

## Main statements

- `Network.joined_of_join`: what joining two networks leaves behind.
- `Network.exportable_of_duplicateAndClip`, `Network.Exportable.override`,
  `Network.Exportable.join`, `Network.Exportable.keepOutputs`: the steps.
- `Network.Exportable.not_mem_inputs`: an output of an exportable network is no input.
-/

namespace PiecewiseNet

/-- Scalars in which zero and one equal themselves, and so does the negation of what does. -/
class DefiniteSigns (α : Type) [Scalar α] : Prop where
  zero_beq : ((0 : α) == 0) = true
  one_beq : ((1 : α) == 1) = true
  neg_beq (x : α) : (x == x) = true → (-x == -x) = true

instance : DefiniteSigns Rat where
  zero_beq := by decide
  one_beq := by decide
  neg_beq x _ := beq_self_eq_true (-x)

variable {α : Type}

/-! ## The scalars of a node -/

/-- The coefficients and the bias of a sum. -/
def NodeKind.numbers : NodeKind α → List α
  | plain => []
  | affine terms bias => bias :: terms.map (·.1)
  | relu _ _ => []
  | abs _ => []

/-- The ends of the bounds that are there. -/
def Interval.numbers (i : Interval α) : List α :=
  i.lower.toList ++ i.upper.toList

/-- The scalars of a node. -/
def Node.numbers (n : Node α) : List α :=
  n.bounds.numbers ++ n.kind.numbers

@[simp] theorem NodeKind.numbers_redirect (k : NodeKind α) (f : NodeId → NodeId) :
    (k.redirect f).numbers = k.numbers := by
  cases k <;> simp [numbers, redirect, Terms.redirect, Function.comp_def]

/-- Every scalar of the node equals itself. -/
def Node.Definite [BEq α] (n : Node α) : Prop :=
  ∀ x ∈ n.numbers, (x == x) = true

/-! ## Joining two networks -/

/-- Letting nodes read others changes no scalar. -/
theorem numbers_of_redirectAll {s : Substitution} {ids : List NodeId} {a b : Arena α} {u : PUnit}
    (h : Edit.Yields (ids.forM (Edit.redirect s)) a u b) {id : NodeId} {n : Node α}
    (hn : b.get? id = some n) : ∃ m, a.get? id = some m ∧ m.numbers = n.numbers := by
  induction ids generalizing a with
  | nil =>
    obtain ⟨-, rfl⟩ := Edit.yields_pure.1 h
    exact ⟨n, hn, rfl⟩
  | cons i ids ih =>
    obtain ⟨_, c, hfirst, hrest⟩ := Edit.yields_bind.1 h
    obtain ⟨old, hold, rfl⟩ := Edit.yields_redirect.1 hfirst
    obtain ⟨m, hm, hnumbers⟩ := ih hrest
    rw [Arena.get?_set] at hm
    split at hm
    · rename_i hsame
      cases hm
      refine ⟨old, hsame.1 ▸ hold, ?_⟩
      rw [← hnumbers]
      simp [Node.numbers, Node.redirect]
    · exact ⟨m, hm, hnumbers⟩

namespace Network

variable {base altered net net' kept : Network} {a b : Arena α} {ov : Overrides} {id : NodeId}

/-- Layers up to a boundary and others behind it have the inputs of the first ones; a boundary layer
in front needs the same heads. -/
theorem inputs_spliced {boundary : Nat} {chains : Layer} {later : List Layer}
    (hlt : boundary < base.layers.length)
    (hheads : boundary = 0 →
      chains.map List.head? = (base.layers.head?.getD []).map List.head?) :
    inputs ⟨base.layers.take boundary ++ [chains] ++ later⟩ = base.inputs := by
  have hpick : ∀ l : Layer, l.filterMap List.head? = (l.map List.head?).filterMap id := by
    intro l
    rw [List.filterMap_map]
    rfl
  cases hlayers : base.layers with
  | nil =>
    rw [hlayers] at hlt
    cases hlt
  | cons first rest =>
    cases boundary with
    | zero =>
      show chains.filterMap List.head? = (base.layers.head?.getD []).filterMap List.head?
      rw [hpick, hheads rfl, ← hpick]
    | succ boundary => simp [inputs, hlayers]

/-- Joining a base with any network of the same shape leaves the base as it is. The other one gets
the layers of the base up to the boundary, keeps its depth and has nodes of the two. -/
theorem joined_of_join {j : JoinedNetworks} (hj : (join base altered ov).Yields a j b) :
    j.base = base ∧ j.altered.nodes.Nodup ∧ j.altered.layerCount = base.layerCount ∧
      j.altered.inputs = base.inputs ∧ j.altered.nodes ⊆ base.nodes ++ altered.nodes ∧
      ∀ id n, b.get? id = some n → ∃ m, a.get? id = some m ∧ m.numbers = n.numbers := by
  obtain ⟨boundary, i, kind, s, -, hlt, hlength, hsize, hsplice, hredirect, rfl, hwell⟩ :=
    join_steps hj
  refine ⟨rfl, hwell.nodup, ?_, ?_, ?_, fun id n => numbers_of_redirectAll hredirect⟩
  · simp only [layerCount, List.length_append, List.length_take, List.length_drop,
      List.length_singleton]
    omega
  · refine inputs_spliced hlt ?_
    rintro rfl
    have hpairs : (base.layers[0]?.getD []).length ≤ (altered.layers[0]?.getD []).length :=
      Nat.le_of_eq hsize.symm
    have hheads := heads_of_spliceChains hsplice
    rw [← Function.comp_def List.head? Prod.fst, ← List.map_map, List.map_fst_zip hpairs] at hheads
    rw [hheads, List.head?_eq_getElem?]
  · obtain ⟨hchains, -⟩ := mem_of_spliceChains hsplice
    intro id hid
    simp only [nodes, List.flatten_append, List.flatten_singleton, List.mem_append] at hid ⊢
    rcases hid with (hid | hid) | hid
    · exact .inl (flatten_flatten_subset (fun l hl => List.mem_of_mem_take hl) hid)
    · obtain ⟨pair, hpair, hid⟩ := hchains id hid
      obtain ⟨hbase, haltered⟩ := List.of_mem_zip hpair
      exact hid.imp (mem_nodes_of_mem_layer hbase) (mem_nodes_of_mem_layer haltered)
    · exact .inr (flatten_flatten_subset (fun l hl => List.mem_of_mem_drop hl) hid)

/-! ## Networks with definite scalars -/

/-- All scalars of the network equal themselves. -/
def Definite [BEq α] (net : Network) (a : Arena α) : Prop :=
  ∀ id ∈ net.nodes, ∀ n, a.get? id = some n → n.Definite

/-- The nodes are distinct, with definite scalars, and lie in at least two layers. -/
structure Exportable [BEq α] (net : Network) (a : Arena α) : Prop where
  nodup : net.nodes.Nodup
  deep : 2 ≤ net.layerCount
  definite : net.Definite a

section

variable [BEq α]

theorem Definite.of_growsTo (h : net.Definite a) (hheld : ∀ id ∈ net.nodes, id < a.size)
    (hgrows : a.GrowsTo b) : net.Definite b := by
  intro id hid n hn
  rw [hgrows.get? id (hheld id hid)] at hn
  exact h id hid n hn

/-- A copy of nodes with definite scalars has definite scalars. -/
theorem Definite.of_copy {f : NodeId → NodeId} (h : net.Definite a) (hcopy : net.Copy a f net' b) :
    net'.Definite b := by
  intro id' hid' m hm
  rw [hcopy.nodes_eq, List.mem_map] at hid'
  obtain ⟨id, hid, rfl⟩ := hid'
  obtain ⟨n, m', hn, hm', hkind, hbounds⟩ := hcopy.mirrors id hid
  cases hm.symm.trans hm'
  have hnumbers : m.numbers = n.numbers := by
    rw [Node.numbers, hkind, hbounds, NodeKind.numbers_redirect, Node.numbers]
  intro x hx
  exact h id hid n hn x (hnumbers ▸ hx)

/-- Turning nodes into free values leaves scalars out. -/
theorem Definite.freed (h : net.Definite a) (ids : List NodeId) : net.Definite (a.freed ids) := by
  intro id hid m hm
  rw [Arena.get?_freed, Option.map_eq_some_iff] at hm
  obtain ⟨n, hn, rfl⟩ := hm
  split
  · intro x hx
    have hx : x ∈ n.bounds.numbers := by simpa [Node.numbers, NodeKind.numbers] using hx
    exact h id hid n hn x (List.mem_append_left _ hx)
  · exact h id hid n hn

theorem Exportable.layers_ne_nil (h : net.Exportable a) : net.layers ≠ [] := by
  intro hnil
  have hdeep := h.deep
  rw [layerCount, hnil] at hdeep
  cases hdeep

/-- A node of the last layer of a deep network is no input. -/
theorem Exportable.not_mem_inputs (h : net.Exportable a) (hid : id ∈ net.outputs) :
    id ∉ net.inputs := by
  obtain ⟨c, hc, hlast⟩ := List.mem_filterMap.1 hid
  obtain ⟨n, hn⟩ := List.mem_iff_getElem?.1 hc
  have hat : chainAt net.layers (net.layerCount - 1) n = some c := by
    rw [chainAt_eq_getElem?_getD, layerCount, ← List.getLast?_eq_getElem?]
    exact hn
  intro hinput
  obtain ⟨n', c', hat', hhead⟩ := mem_inputs_iff.1 hinput
  obtain ⟨hl, -⟩ := place_unique h.nodup hat hat' (List.mem_of_getLast? hlast)
    (List.mem_of_head? hhead)
  have hdeep := h.deep
  omega

/-- With some of its output neurons, a network keeps its inputs. -/
theorem Exportable.keepOutputs (h : net.Exportable a) {is : List Nat}
    (hkept : net.keepOutputs is a = .ok kept) :
    kept.Exportable a ∧ kept.inputs = net.inputs := by
  obtain ⟨hne, cs, hcs, rfl, hwell⟩ := keepOutputs_eq_ok_iff.1 hkept
  have hsub : (net.withLast cs).nodes ⊆ net.nodes := by
    refine nodes_withLast_subset hne ?_
    intro c hc
    have hmem : some c ∈ is.map (chainAt net.layers (net.layerCount - 1)) :=
      hcs ▸ List.mem_map_of_mem hc
    obtain ⟨i, -, hi⟩ := List.mem_map.1 hmem
    exact ⟨i, hi⟩
  refine ⟨⟨hwell.nodup, ?_, fun id hid => h.definite id (hsub hid)⟩, inputs_withLast h.deep⟩
  rw [layerCount_withLast hne]
  exact h.deep

/-- Two networks after they were joined: both are exportable and have the same inputs. -/
theorem Exportable.join (hbase : base.Exportable a) (haltered : altered.Exportable a)
    {j : JoinedNetworks} (hj : (join base altered ov).Yields a j b) :
    j.base.Exportable b ∧ j.altered.Exportable b ∧ j.altered.inputs = j.base.inputs := by
  obtain ⟨rfl, hnodup, hcount, hinputs, hsub, hold⟩ := joined_of_join hj
  have hdef : ∀ net : Network, net.Definite a → net.Definite b := by
    intro net hnet id hid n hn
    obtain ⟨m, hm, hnumbers⟩ := hold id n hn
    rw [Node.Definite, ← hnumbers]
    exact hnet id hid m hm
  refine ⟨⟨hbase.nodup, hbase.deep, hdef _ hbase.definite⟩, ⟨hnodup, ?_, ?_⟩, hinputs⟩
  · rw [hcount]
    exact hbase.deep
  · intro id hid
    rcases List.mem_append.1 (hsub hid) with hmem | hmem
    · exact hdef _ hbase.definite id hmem
    · exact hdef _ haltered.definite id hmem

omit [BEq α] in
theorem mem_outputs_of_output (hne : net.layers ≠ []) {i : Nat}
    (h : net.output (α := α) i = .ok id) : id ∈ net.outputs := by
  obtain ⟨c, hc, hlast⟩ := (output_eq_ok_iff hne).1 h
  rw [chainAt_eq_getElem?_getD, layerCount, ← List.getLast?_eq_getElem?] at hc
  exact List.mem_filterMap.2 ⟨c, List.mem_of_getElem? hc, hlast⟩

end

section

variable [Scalar α] {r : ClipRange} {suffix : String}

/-- What a range keeps of a copy of a network. -/
theorem exportable_of_duplicateAndClip (hnet : net.WellFormed a) (hdef : net.Definite a)
    (h : (net.duplicateAndClip r suffix).Yields a net' b) : net'.Exportable b := by
  obtain ⟨f, hcopy, -, -, -, hwell, hdeep⟩ := duplicateAndClip_yields h hnet
  have htrimmed : (net.trimmed r).Definite a := fun id hid => hdef id (nodes_trimmed_subset hid)
  exact ⟨hwell.nodup, hdeep, (htrimmed.freed _).of_copy hcopy⟩

/-- The bounds of a node that an override adds have the ends of old bounds, or zero for both. -/
theorem definite_addedBounds [DefiniteSigns α] {kind : OverrideKind} {old bounds : Interval α}
    (hold : ∀ x ∈ old.numbers, (x == x) = true) (h : kind.addedBounds old = some bounds) :
    ∀ x ∈ bounds.numbers, (x == x) = true := by
  cases kind with
  | active => cases h
  | inactive =>
    cases h
    have hzero : ((0 : α) == 0) = true := DefiniteSigns.zero_beq
    simpa [Interval.numbers, Interval.fixed] using hzero
  | nofunc =>
    cases h
    exact hold

/-- A node of a network with overrides is an old node over other nodes, or a free value whose bounds
an override took from an old node. -/
theorem Altered.node_or_new {table : Substitution} (h : net.Altered a ov net' b table)
    (hheld : ∀ id ∈ net.nodes, id < a.size) (hid : id ∈ net'.nodes) {m : Node α}
    (hm : b.get? id = some m) :
    (∃ n, id ∈ net.nodes ∧ a.get? id = some n ∧ m.kind = n.kind.redirect table.apply ∧
      m.bounds = n.bounds) ∨
    ∃ (old : NodeId) (n : Node α) (kind : OverrideKind), old ∈ net.nodes ∧ a.get? old = some n ∧
      m.kind = .plain ∧ kind.addedBounds n.bounds = some m.bounds := by
  obtain ⟨l, i, c', hc', hmem⟩ := mem_nodes_iff.1 hid
  rcases Nat.lt_or_ge id a.size with hlt | hge
  · obtain ⟨n, m', hn, hm', hkind, hbounds⟩ := h.node id hid hlt
    cases hm.symm.trans hm'
    obtain ⟨c, hc, hold⟩ := h.mem_chain hc' hmem hlt
    exact .inl ⟨n, mem_nodes hc hold, hn, hkind, hbounds⟩
  · have hnew : ∀ c, chainAt net.layers l i = some c → id ∉ c :=
      fun c hc hold => absurd (hheld id (mem_nodes hc hold)) (Nat.not_lt.2 hge)
    cases hkey : ov.contains (l, i) with
    | false => exact absurd hmem (hnew c' ((h.kept l i hkey).symm.trans hc'))
    | true =>
      obtain ⟨kind, c, c'', -, hc, hc'', hrep⟩ := h.replaced l i hkey
      cases hc'.symm.trans hc''
      obtain ⟨head, tail, n, hhead, htail, hn, ⟨-, rfl, -⟩ | ⟨bounds, new, m', hadded, rfl, -, -,
        hm', hkind, rfl⟩⟩ := hrep
      · rw [List.mem_singleton.1 hmem] at hnew
        exact absurd (List.mem_of_head? hhead) (hnew c hc)
      · rcases List.mem_cons.1 hmem with rfl | hmem
        · exact absurd (List.mem_of_head? hhead) (hnew c hc)
        · cases List.mem_singleton.1 hmem
          cases hm.symm.trans hm'
          exact .inr ⟨tail, n, kind, mem_nodes hc (List.mem_of_getLast? htail), hn, hkind, hadded⟩

/-- Overriding neurons keeps a network exportable. -/
theorem Exportable.override [DefiniteSigns α] (h : net.Exportable a)
    (hheld : ∀ id ∈ net.nodes, id < a.size) (hover : (net.override ov).Yields a net' b) :
    net'.Exportable b := by
  obtain ⟨table, halt, hwell⟩ := override_yields hover h.nodup hheld
  refine ⟨hwell.nodup, ?_, ?_⟩
  · rw [layerCount, halt.length]
    exact h.deep
  · intro id hid m hm
    rw [Node.Definite, Node.numbers]
    rcases halt.node_or_new hheld hid hm with
      ⟨n, hold, hn, hkind, hbounds⟩ | ⟨old, n, kind, hold, hn, hkind, hadded⟩
    · rw [hkind, hbounds, NodeKind.numbers_redirect]
      exact h.definite id hold n hn
    · rw [hkind, NodeKind.numbers, List.append_nil]
      refine definite_addedBounds ?_ hadded
      exact fun x hx => h.definite old hold n hn x (List.mem_append_left _ hx)

end

end Network

end PiecewiseNet
