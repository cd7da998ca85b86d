import PiecewiseNet.Proofs.Network.Overriding
import PiecewiseNet.Proofs.Network.Sharing
import PiecewiseNet.Proofs.Network.Splicing

/-!
# Joined networks

If an altered network agrees with its base up to a boundary layer, joining the two gives a copy of
the altered network. The copy has the nodes of the base where the two agree, and the altered nodes
elsewhere.

## Main definitions

- `Network.Splices`: a boundary layer is spliced from two networks.
- `Network.staying`: the altered nodes that stay in a join.

## Main statements

- `Network.AgreesBefore.exists_splices`: splicing the boundary layer.
- `Network.Splices.copy`: the spliced network is a copy of the altered one.
- `Network.join_steps`: what a join does, step by step.
- `Network.AgreesBefore.join_yields`, `Network.AgreesBefore.exists_join`: joining the networks.
-/

namespace PiecewiseNet

/-- The neurons of layers put together from the first layers of one list, one layer, and the later
layers of another list. -/
theorem chainAt_spliced {layers layers' : List Layer} {layer : Layer} {boundary : Nat}
    (h : boundary ≤ layers.length) (l n : Nat) :
    chainAt (layers.take boundary ++ [layer] ++ layers'.drop (boundary + 1)) l n =
      if l < boundary then chainAt layers l n
      else if l = boundary then layer[n]? else chainAt layers' l n := by
  have hlen : (layers.take boundary).length = boundary := by rw [List.length_take]; omega
  rw [List.append_assoc, chainAt]
  by_cases hlt : l < boundary
  · rw [if_pos hlt, List.getElem?_append_left (by omega), List.getElem?_take, if_pos hlt, chainAt]
  · rw [if_neg hlt, List.getElem?_append_right (by omega), hlen]
    by_cases heq : l = boundary
    · subst heq
      simp
    · obtain ⟨k, rfl⟩ : ∃ k, l = boundary + 1 + k := ⟨l - (boundary + 1), by omega⟩
      have hsub : boundary + 1 + k - boundary = k + 1 := by omega
      rw [if_neg heq, hsub, List.singleton_append, List.getElem?_cons_succ, List.getElem?_drop,
        chainAt]

variable {α : Type}

namespace Network

variable {base altered : Network} {ov : Overrides} {boundary : Nat} {g : NodeId → NodeId}
  {a b : Arena α} {id : NodeId}

/-- The nodes from a layer on are those of the neurons from this layer on. -/
theorem mem_tailNodes_iff {net : Network} {k : Nat} : id ∈ JoinedNetworks.tailNodes net k ↔
    ∃ l n c, k ≤ l ∧ chainAt net.layers l n = some c ∧ id ∈ c := by
  have hat : ∀ l n, chainAt (net.layers.drop k) l n = chainAt net.layers (k + l) n := by
    intro l n
    rw [chainAt, List.getElem?_drop, chainAt]
  show id ∈ nodes ⟨net.layers.drop k⟩ ↔ _
  rw [mem_nodes_iff]
  simp only [hat]
  constructor
  · rintro ⟨l, n, c, hc, hid⟩
    exact ⟨k + l, n, c, by omega, hc, hid⟩
  · rintro ⟨l, n, c, hl, hc, hid⟩
    refine ⟨l - k, n, c, ?_, hid⟩
    rwa [Nat.add_sub_cancel' hl]

/-! ## Splicing -/

/-- The boundary neurons of two networks, in pairs. -/
def boundaryPairs (base altered : Network) (boundary : Nat) : List (Chain × Chain) :=
  (base.layers[boundary]?.getD []).zip (altered.layers[boundary]?.getD [])

theorem getElem?_boundaryPairs {k : Nat} {p : Chain × Chain} :
    (base.boundaryPairs altered boundary)[k]? = some p ↔
      chainAt base.layers boundary k = some p.1 ∧ chainAt altered.layers boundary k = some p.2 := by
  rw [boundaryPairs, List.getElem?_zip_eq_some, chainAt_eq_getElem?_getD, chainAt_eq_getElem?_getD]

/-- A boundary layer spliced from two networks. -/
def Splices (base altered : Network) (ov : Overrides) (boundary : Nat) (g : NodeId → NodeId)
    (s : Boundary) : Prop :=
  Spliced (fun k => ov.contains (boundary, k)) 0 (base.boundaryPairs altered boundary) g
    Substitution.empty s

/-- Networks that agree up to the boundary can be spliced. -/
theorem AgreesBefore.exists_splices (h : base.AgreesBefore altered ov boundary g a) :
    ∃ s, spliceChains (α := α) (fun k => ov.contains (boundary, k)) 0
      (base.boundaryPairs altered boundary) Substitution.empty = .ok s ∧
        base.Splices altered ov boundary g s := by
  have hpairs : ∀ k p, (base.boundaryPairs altered boundary)[k]? = some p →
      p.2 ≠ [] ∧ p.1.head? = p.2.head?.map g ∧
        (ov.contains (boundary, 0 + k) = false → p.1 = p.2.map g) := by
    intro k p hp
    obtain ⟨hd, hc⟩ := getElem?_boundaryPairs.1 hp
    obtain ⟨d, hd', hhead⟩ := h.heads k p.2 hc
    rw [hd] at hd'
    cases hd'
    refine ⟨h.altered_wellFormed.chains_ne_nil _ _ _ hc, hhead, ?_⟩
    intro hkey
    rw [Nat.zero_add] at hkey
    have hkept := h.kept k hkey
    rw [hd, hc, Option.map_some] at hkept
    exact Option.some.inj hkept
  exact exists_spliceChains Substitution.empty hpairs

/-- The nodes of the boundary layer whose place a base node takes are the shared ones. -/
theorem AgreesBefore.mem_sharedNodes_iff (h : base.AgreesBefore altered ov boundary g a) {l n : Nat}
    {c : Chain} (hc : chainAt altered.layers l n = some c) (hid : id ∈ c) :
    id ∈ sharedNodes (fun k => ov.contains (boundary, k)) 0 (base.boundaryPairs altered boundary) ↔
      l = boundary ∧ altered.Shared ov boundary id := by
  have hnd := h.altered_wellFormed.nodup
  rw [PiecewiseNet.mem_sharedNodes_iff]
  simp only [Nat.zero_add]
  constructor
  · rintro ⟨k, p, hp, hmem⟩
    obtain ⟨-, hc'⟩ := getElem?_boundaryPairs.1 hp
    have hid' : id ∈ p.2 := by
      split at hmem
      · exact List.mem_of_mem_take hmem
      · exact hmem
    obtain ⟨rfl, rfl, rfl⟩ := place_unique hnd hc hc' hid hid'
    refine ⟨rfl, (shared_iff hnd hc hid).2 (.inr ⟨rfl, ?_⟩)⟩
    intro hkey
    rw [if_pos hkey] at hmem
    cases hp₂ : p.2 with
    | nil => simp [hp₂] at hid
    | cons i t =>
      rw [hp₂] at hmem
      rw [List.mem_singleton.1 hmem]
      rfl
  · rintro ⟨rfl, hshared⟩
    obtain ⟨d, hd, -⟩ := h.heads n c hc
    refine ⟨n, (d, c), getElem?_boundaryPairs.2 ⟨hd, hc⟩, ?_⟩
    rcases (shared_iff hnd hc hid).1 hshared with hlt | ⟨-, hhead⟩
    · exact absurd hlt (Nat.lt_irrefl _)
    · split
      · rename_i hkey
        obtain ⟨t, rfl⟩ := List.head?_eq_some_iff.1 (hhead hkey)
        simp
      · exact hid

/-- The nodes of the altered network that stay in a join. -/
def staying (altered : Network) (boundary : Nat) (s : Boundary) : List NodeId :=
  s.retained ++ (altered.layers.drop (boundary + 1)).flatten.flatten

namespace Splices

variable {s : Boundary} (hs : base.Splices altered ov boundary g s)
  (h : base.AgreesBefore altered ov boundary g a)

include hs h

/-- From the boundary on, the table leads where sharing leads. -/
theorem table_apply {l n : Nat} {c : Chain} (hc : chainAt altered.layers l n = some c)
    (hid : id ∈ c) (hl : boundary ≤ l) :
    s.table.apply id = altered.sharing ov boundary g id := by
  rw [hs.table]
  by_cases hshared : altered.Shared ov boundary id
  · have heq : l = boundary := by
      rcases (shared_iff h.altered_wellFormed.nodup hc hid).1 hshared with hlt | ⟨heq, -⟩
      · omega
      · exact heq
    rw [if_pos ((h.mem_sharedNodes_iff hc hid).2 ⟨heq, hshared⟩), sharing_of_shared hshared]
  · rw [if_neg fun hmem => hshared ((h.mem_sharedNodes_iff hc hid).1 hmem).2,
      sharing_of_not_shared hshared, Substitution.apply_empty]

/-- Before the boundary, the table changes nothing. -/
theorem table_apply_before {l n : Nat} {c : Chain} (hc : chainAt altered.layers l n = some c)
    (hid : id ∈ c) (hl : l < boundary) : s.table.apply id = id := by
  rw [hs.table, if_neg fun hmem => Nat.ne_of_lt hl ((h.mem_sharedNodes_iff hc hid).1 hmem).1,
    Substitution.apply_empty]

/-- The spliced layers are those of the altered network with counterparts for shared nodes. -/
theorem layers_eq (hlt : boundary < base.layers.length) :
    base.layers.take boundary ++ [s.chains] ++ altered.layers.drop (boundary + 1) =
      altered.redirect (altered.sharing ov boundary g) := by
  refine layers_ext ?_ ?_
  · simp only [List.length_append, List.length_take, List.length_drop, List.length_singleton,
      redirect, List.length_map, h.length]
    omega
  · intro l n
    rw [chainAt_spliced hlt.le, chainAt_redirect]
    rcases Nat.lt_trichotomy l boundary with hl | rfl | hl
    · rw [if_pos hl, h.map_sharing_before hl]
    · rw [if_neg (Nat.lt_irrefl _), if_pos rfl, hs.chains]
      cases hc : chainAt altered.layers l n with
      | none =>
        rw [Option.map_none, Option.map_eq_none_iff, Option.eq_none_iff_forall_ne_some]
        intro p hp
        rw [(getElem?_boundaryPairs.1 hp).2] at hc
        cases hc
      | some c =>
        obtain ⟨d, hd, hhead⟩ := h.heads n c hc
        rw [(getElem?_boundaryPairs (p := (d, c))).2 ⟨hd, hc⟩, Option.map_some, Nat.zero_add]
        cases hkey : ov.contains (l, n) with
        | false => rw [← hc, h.map_sharing_kept hkey, hd, if_neg Bool.false_ne_true]
        | true =>
          cases hcc : c with
          | nil => exact absurd hcc (h.altered_wellFormed.chains_ne_nil _ _ _ hc)
          | cons i t =>
            subst hcc
            obtain ⟨bs, rfl⟩ := List.head?_eq_some_iff.1 hhead
            rw [if_pos rfl, Option.map_some, h.map_sharing_overridden hkey hc]
            rfl
    · rw [if_neg (Nat.not_lt.2 hl.le), if_neg (Nat.ne_of_gt hl), h.map_sharing_after hl]

/-- The nodes that stay are those that are not shared. -/
theorem mem_staying_iff :
    id ∈ altered.staying boundary s ↔ id ∈ altered.nodes ∧ ¬altered.Shared ov boundary id := by
  have hnd := h.altered_wellFormed.nodup
  rw [staying, List.mem_append, hs.retained]
  simp only [Nat.zero_add]
  constructor
  · rintro (⟨k, p, hp, hkey, hid⟩ | hlater)
    · obtain ⟨-, hc⟩ := getElem?_boundaryPairs.1 hp
      cases hp₂ : p.2 with
      | nil => simp [hp₂] at hid
      | cons i t =>
        rw [hp₂] at hc hid
        have hid' : id ∈ t := hid
        exact ⟨mem_nodes hc (List.mem_cons_of_mem _ hid'),
          not_shared_of_mem_tail hnd hc hkey hid'⟩
    · obtain ⟨l, n, c, hl, hc, hid⟩ := mem_tailNodes_iff.1 hlater
      exact ⟨mem_nodes hc hid, not_shared_of_lt hnd hc hid (by omega)⟩
  · rintro ⟨hmem, hnot⟩
    obtain ⟨l, n, c, hc, hid⟩ := mem_nodes_iff.1 hmem
    rw [shared_iff hnd hc hid, not_or, not_and] at hnot
    rcases Nat.lt_or_ge boundary l with hlt | hge
    · exact .inr (mem_tailNodes_iff.2 ⟨l, n, c, hlt, hc, hid⟩)
    · obtain rfl : l = boundary := by omega
      have hnothead := hnot.2 rfl
      obtain ⟨d, hd, -⟩ := h.heads n c hc
      have hkey : ov.contains (l, n) = true := by
        by_contra hkey
        exact hnothead fun hkey' => absurd hkey' hkey
      refine .inl ⟨n, (d, c), getElem?_boundaryPairs.2 ⟨hd, hc⟩, hkey, ?_⟩
      cases c with
      | nil => cases hid
      | cons i t =>
        rcases List.mem_cons.1 hid with rfl | hid
        · exact absurd (fun _ => rfl) hnothead
        · exact hid

theorem nodup_staying (hlt : boundary < base.layers.length) :
    (altered.staying boundary s).Nodup := by
  have hlt' : boundary < altered.layers.length := by rw [h.length]; exact hlt
  refine h.altered_wellFormed.nodup.sublist ?_
  have hsplit : altered.nodes = (altered.layers.take boundary).flatten.flatten ++
      (altered.layers[boundary].flatten ++
        (altered.layers.drop (boundary + 1)).flatten.flatten) := by
    rw [nodes]
    conv_lhs => rw [← List.take_append_drop boundary altered.layers,
      List.drop_eq_getElem_cons hlt', List.flatten_append, List.flatten_append, List.flatten_cons,
      List.flatten_append]
  rw [hsplit, staying]
  refine (List.Sublist.append ?_ (List.Sublist.refl _)).trans (List.sublist_append_right _ _)
  refine hs.sublist.trans ?_
  refine List.Sublist.flatten ?_
  have hsize : (altered.layers[boundary]?.getD []).length ≤
      (base.layers[boundary]?.getD []).length := h.size.le
  rw [boundaryPairs, List.map_snd_zip hsize, List.getElem?_eq_getElem hlt', Option.getD_some]

/-- Nodes that stay read what the table leads to; all others are as before. -/
theorem get?_redirected {u : PUnit} (hlt : boundary < base.layers.length)
    (hredirect : Edit.Yields ((altered.staying boundary s).forM (Edit.redirect s.table)) a u b) :
    (∀ id, id ∈ altered.nodes → ¬altered.Shared ov boundary id →
      b.get? id = (a.get? id).map (·.redirect s.table.apply)) ∧
      ∀ id, (id ∈ altered.nodes → altered.Shared ov boundary id) → b.get? id = a.get? id := by
  obtain ⟨-, -, hget⟩ := Edit.redirectAll_yields hredirect (hs.nodup_staying h hlt)
  refine ⟨?_, ?_⟩
  · intro id hid hnot
    rw [hget, if_pos ((hs.mem_staying_iff h).2 ⟨hid, hnot⟩)]
  · intro id hid
    rw [hget, if_neg]
    intro hstay
    obtain ⟨hmem, hnot⟩ := (hs.mem_staying_iff h).1 hstay
    exact hnot (hid hmem)

/-- Once the nodes that stay are redirected, the spliced network is a copy of the altered one, as
far as these nodes read nothing before the boundary. -/
theorem copy {u : PUnit} (hlt : boundary < base.layers.length)
    (hredirect : Edit.Yields ((altered.staying boundary s).forM (Edit.redirect s.table)) a u b)
    (hreads : ∀ id ∈ altered.nodes, ¬altered.Shared ov boundary id → ∀ r, a.Reads id r →
      ∀ l n c, chainAt altered.layers l n = some c → r ∈ c → boundary ≤ l) :
    altered.Copy a (altered.sharing ov boundary g)
      ⟨altered.redirect (altered.sharing ov boundary g)⟩ b := by
  obtain ⟨hstay, hother⟩ := hs.get?_redirected h hlt hredirect
  refine ⟨rfl, h.sharing_injOn, ?_⟩
  intro id hid
  by_cases hshared : altered.Shared ov boundary id
  · -- The counterpart is a node of the base, which is not changed.
    have hbase := h.mem_base hshared
    have hsame : b.get? (g id) = a.get? (g id) :=
      hother _ fun hmem => absurd hbase (h.disjoint _ hmem)
    have hmirrors := (h.mirrors id hshared).of_get?_eq rfl hsame
    refine hmirrors.congr (sharing_of_shared hshared) ?_
    intro r hr
    exact sharing_of_shared (h.closed id hshared r hr)
  · obtain ⟨n, hn⟩ := Arena.exists_get? (h.altered_wellFormed.held id hid)
    refine ⟨n, n.redirect s.table.apply, hn, ?_, ?_, rfl⟩
    · rw [sharing_of_not_shared hshared, hstay id hid hshared, hn, Option.map_some]
    · refine NodeKind.redirect_congr ?_
      intro r hr
      have hread := (Arena.reads_iff hn).2 hr
      obtain ⟨l, i, c, hc, hrc⟩ := mem_nodes_iff.1 (h.altered_wellFormed.closed id hid r hread)
      exact hs.table_apply h hc hrc (hreads id hid hshared r hread l i c hc hrc)

/-- In a well-formed join the nodes that stay read nothing before the boundary. -/
theorem reads_of_wellFormed {u : PUnit} (hlt : boundary < base.layers.length)
    (hredirect : Edit.Yields ((altered.staying boundary s).forM (Edit.redirect s.table)) a u b)
    (hwell : WellFormed ⟨altered.redirect (altered.sharing ov boundary g)⟩ b) :
    ∀ id ∈ altered.nodes, ¬altered.Shared ov boundary id → ∀ r, a.Reads id r →
      ∀ l n c, chainAt altered.layers l n = some c → r ∈ c → boundary ≤ l := by
  intro id hid hnot r hr l n c hc hrc
  obtain ⟨hstay, -⟩ := hs.get?_redirected h hlt hredirect
  by_contra hl
  obtain ⟨m, hm⟩ := Arena.exists_get? (h.altered_wellFormed.held id hid)
  have hm' : b.get? id = some (m.redirect s.table.apply) := by
    rw [hstay id hid hnot, hm, Option.map_some]
  -- The node still reads `r`, which then is a node of the join.
  have hread : b.Reads id r := by
    rw [Arena.reads_iff hm', Node.references, Node.redirect, NodeKind.references_redirect,
      List.mem_map]
    exact ⟨r, (Arena.reads_iff hm).1 hr, hs.table_apply_before h hc hrc (by omega)⟩
  have hidmem : id ∈ nodes ⟨altered.redirect (altered.sharing ov boundary g)⟩ := by
    rw [Copy.nodes_redirect, List.mem_map]
    exact ⟨id, hid, sharing_of_not_shared hnot⟩
  have hrmem := hwell.closed id hidmem r hread
  rw [Copy.nodes_redirect, List.mem_map] at hrmem
  obtain ⟨x, hx, heq⟩ := hrmem
  by_cases hshared : altered.Shared ov boundary x
  · rw [sharing_of_shared hshared] at heq
    exact h.disjoint r (mem_nodes hc hrc) (heq ▸ h.mem_base hshared)
  · rw [sharing_of_not_shared hshared] at heq
    exact hshared (heq ▸ ⟨l, n, c, hc, hrc, .inl (by omega)⟩)

end Splices

/-! ## Joining -/

/-- The layer of the first override is the least of all. -/
theorem boundary_le {i : Nat} {kind : OverrideKind}
    (hfirst : ov.entries.head? = some ((boundary, i), kind)) {l n : Nat}
    (hkey : ov.contains (l, n) = true) : boundary ≤ l := by
  have hmem := OrderedMap.contains_eq_true_iff.1 hkey
  have hasc := ov.ascending
  obtain ⟨es, hes⟩ := List.head?_eq_some_iff.1 hfirst
  rw [hes, List.map_cons] at hmem hasc
  rcases List.mem_cons.1 hmem with heq | hmem
  · cases heq
    exact Nat.le_refl _
  · have hbefore := (List.pairwise_cons.1 hasc).1 _ hmem
    simp only [Key.before, decide_eq_true_eq] at hbefore
    omega

/-- What a join does: it splices the layer of the first override, lets the nodes that stay read the
nodes of the base, and checks the spliced network. -/
theorem join_steps {j : JoinedNetworks} (hj : (join base altered ov).Yields a j b) :
    ∃ boundary i kind s, ov.entries.head? = some ((boundary, i), kind) ∧
      boundary < base.layers.length ∧ altered.layers.length = base.layers.length ∧
      altered.layerSize boundary = base.layerSize boundary ∧
      spliceChains (α := α) (fun i => ov.contains (boundary, i)) 0
        ((base.layers[boundary]?.getD []).zip (altered.layers[boundary]?.getD []))
        Substitution.empty = .ok s ∧
      Edit.Yields ((altered.staying boundary s).forM (Edit.redirect s.table)) a PUnit.unit b ∧
      j = ⟨base, ⟨base.layers.take boundary ++ [s.chains] ++ altered.layers.drop (boundary + 1)⟩,
        boundary⟩ ∧
      j.altered.WellFormed b := by
  unfold join at hj
  split at hj
  · exact absurd hj Edit.not_yields_throw
  · rename_i boundary i kind hfirst
    split at hj
    · exact absurd hj Edit.not_yields_throw
    · rename_i hlt
      split at hj
      · exact absurd hj Edit.not_yields_throw
      · rename_i hshapes
        obtain ⟨hcount, hsize⟩ : altered.layerCount = base.layerCount ∧
            altered.layerSize boundary = base.layerSize boundary := by
          simpa [not_or] using hshapes
        obtain ⟨s, c, hofExcept, h₁⟩ := Edit.yields_bind.1 hj
        obtain ⟨hsplice, rfl⟩ := Edit.yields_ofExcept.1 hofExcept
        obtain ⟨u, d, hredirect, h₂⟩ := Edit.yields_bind.1 h₁
        obtain ⟨net, e, hreading, h₃⟩ := Edit.yields_bind.1 h₂
        obtain ⟨hnew, rfl⟩ := Edit.yields_reading.1 hreading
        obtain ⟨rfl, rfl⟩ := Edit.yields_pure.1 h₃
        obtain ⟨rfl, hwell⟩ := new_eq_ok_iff.1 hnew
        exact ⟨boundary, i, kind, s, hfirst, Nat.lt_of_not_le hlt, hcount, hsize, hsplice,
          hredirect, rfl, hwell⟩

/-- A join has a boundary, which is a layer of the base. -/
theorem exists_boundary {j : JoinedNetworks} (hj : (join base altered ov).Yields a j b) :
    ∃ boundary i kind, ov.entries.head? = some ((boundary, i), kind) ∧
      boundary < base.layers.length := by
  obtain ⟨boundary, i, kind, s, hfirst, hlt, -⟩ := join_steps hj
  exact ⟨boundary, i, kind, hfirst, hlt⟩

namespace AgreesBefore

variable (h : base.AgreesBefore altered ov boundary g a)

include h

/-- Joining a base with an altered network gives a copy of the altered one that shares the nodes of
the base up to the boundary. No other node changes. -/
theorem join_yields {j : JoinedNetworks} {i : Nat} {kind : OverrideKind}
    (hfirst : ov.entries.head? = some ((boundary, i), kind))
    (hj : (join base altered ov).Yields a j b) :
    j.base = base ∧ j.boundary = boundary ∧
      altered.Copy a (altered.sharing ov boundary g) j.altered b ∧
      (∀ id, id ∉ altered.nodes → b.get? id = a.get? id) ∧ j.altered.WellFormed b := by
  obtain ⟨boundary', i', kind', s', hfirst', hlt, -, -, hsplice, hredirect, rfl, hwell⟩ :=
    join_steps hj
  cases hfirst.symm.trans hfirst'
  obtain ⟨s, hs, hsplices⟩ := h.exists_splices
  obtain rfl : s = s' := Except.ok.inj (hs.symm.trans hsplice)
  rw [hsplices.layers_eq h hlt] at hwell ⊢
  refine ⟨rfl, rfl, hsplices.copy h hlt hredirect
    (hsplices.reads_of_wellFormed h hlt hredirect hwell), ?_, hwell⟩
  intro id hid
  exact (hsplices.get?_redirected h hlt hredirect).2 id fun hmem => absurd hmem hid

/-- If the nodes behind the boundary read nothing before it, the networks can be joined. -/
theorem exists_join {i : Nat} {kind : OverrideKind}
    (hfirst : ov.entries.head? = some ((boundary, i), kind))
    (hlt : boundary < base.layers.length)
    (hreads : ∀ id ∈ altered.nodes, ¬altered.Shared ov boundary id → ∀ r, a.Reads id r →
      ∀ l n c, chainAt altered.layers l n = some c → r ∈ c → boundary ≤ l) :
    ∃ j b, (join base altered ov).Yields a j b := by
  obtain ⟨s, hs, hsplices⟩ := h.exists_splices
  have hheld : ∀ id ∈ altered.staying boundary s, (a.get? id).isSome := by
    intro id hid
    have hmem := ((hsplices.mem_staying_iff h).1 hid).1
    exact Option.isSome_iff_exists.2 (Arena.exists_get? (h.altered_wellFormed.held id hmem))
  obtain ⟨b, hredirect⟩ := Edit.exists_redirectAll (s := s.table) hheld
  have hcopy := hsplices.copy h hlt hredirect hreads
  have hnew : Network.new (base.layers.take boundary ++ [s.chains] ++
      altered.layers.drop (boundary + 1)) b =
        .ok ⟨altered.redirect (altered.sharing ov boundary g)⟩ := by
    rw [hsplices.layers_eq h hlt]
    exact new_eq_ok_iff.2 ⟨rfl, hcopy.wellFormed h.altered_wellFormed⟩
  refine ⟨⟨base, ⟨altered.redirect (altered.sharing ov boundary g)⟩, boundary⟩, b, ?_⟩
  unfold join
  rw [hfirst]
  dsimp only
  have hle : ¬base.layerCount ≤ boundary := Nat.not_le.2 hlt
  have hshape : ¬(altered.layerCount ≠ base.layerCount ∨
      altered.layerSize boundary ≠ base.layerSize boundary) := by
    rintro (hne | hne)
    · exact hne h.length
    · exact hne h.size
  rw [if_neg hle, if_neg hshape]
  exact Edit.yields_bind.2 ⟨s, a, Edit.yields_ofExcept.2 ⟨hs, rfl⟩, Edit.yields_bind.2
    ⟨_, b, hredirect, Edit.yields_bind.2 ⟨_, b, Edit.yields_reading.2 ⟨hnew, rfl⟩,
      Edit.yields_pure.2 ⟨rfl, rfl⟩⟩⟩⟩

end AgreesBefore

end Network

end PiecewiseNet
