import PiecewiseNet.Proofs.Network.Duplication
import PiecewiseNet.Proofs.Network.Trimming

/-!
# Clipped copies

A clipped copy of a network is a copy of what the range keeps of it, with the heads of the first
kept layer freed.

## Main statements

- `Network.severLayer_yields`: severing the chains of a layer.
- `Network.chainAt_truncateLast`: cutting the chains of the last layer.
- `Network.clip_yields`: clipping a network in place.
- `Network.duplicateAndClip_yields`: clipping a copy of a network.
-/

namespace PiecewiseNet

@[simp] theorem chainAt_cons_zero (layer : Layer) (layers : List Layer) (n : Nat) :
    chainAt (layer :: layers) 0 n = layer[n]? := rfl

@[simp] theorem chainAt_cons_succ (layer : Layer) (layers : List Layer) (l n : Nat) :
    chainAt (layer :: layers) (l + 1) n = chainAt layers l n := rfl

variable {α : Type}

namespace Network

variable {net net' : Network} {a b : Arena α} {cut : Nat} {chains chains' : Layer}
  {table table' : Substitution} {r : ClipRange} {suffix : String}

/-! ## The first layer -/

theorem mem_boundary {chain : Chain} {id : NodeId} (hc : chain ∈ chains)
    (hid : chain[cut]? = some id) : id ∈ chains.flatten :=
  List.mem_flatten.2 ⟨chain, hc, List.mem_of_getElem? hid⟩

/-- A map that moves at most the node at the cut leaves the nodes behind it. -/
theorem map_drop_of_fixed {chain : Chain} {boundary : NodeId} {f : NodeId → NodeId}
    (hnd : chain.Nodup) (hcut : chain[cut]? = some boundary)
    (hf : ∀ id ∈ chain, id ≠ boundary → f id = id) :
    (chain.drop (cut + 1)).map f = chain.drop (cut + 1) := by
  refine (List.map_congr_left ?_).trans (List.map_id _)
  intro id hid
  refine hf id (List.mem_of_mem_drop hid) ?_
  rintro rfl
  obtain ⟨hlt, hget⟩ := List.getElem?_eq_some_iff.1 hcut
  rw [← List.take_append_drop (cut + 1) chain] at hnd
  refine (List.nodup_append.1 hnd).2.2 id ?_ id hid rfl
  rw [List.mem_take_iff_getElem]
  exact ⟨cut, by omega, hget⟩

/-- Severing the chains of a layer adds an input for each of them, which takes the place of the node
at the cut. -/
theorem severLayer_yields (h : (severLayer cut chains table).Yields a (chains', table') b)
    (hnd : chains.flatten.Nodup) (hheld : ∀ id ∈ chains.flatten, id < a.size)
    (hfix : ∀ id ∈ chains.flatten, table.apply id = id) :
    a.Records b (·.severed "_bdr") (chains.filterMap (·[cut]?)) table table' ∧
      (∀ c ∈ chains, cut < c.length) ∧
      chains' = chains.map fun c => (c.drop cut).map table'.apply := by
  induction chains generalizing a table chains' with
  | nil =>
    obtain ⟨heq, rfl⟩ := Edit.yields_pure.1 h
    cases heq
    exact ⟨.nil, by simp, rfl⟩
  | cons chain chains ih =>
    rw [severLayer] at h
    rw [List.flatten_cons] at hnd hheld hfix
    obtain ⟨hc, hnd, hdisj⟩ := List.nodup_append.1 hnd
    obtain ⟨hheldc, hheld⟩ := List.forall_mem_append.1 hheld
    obtain ⟨hfixc, hfix⟩ := List.forall_mem_append.1 hfix
    cases hcut : chain[cut]? with
    | none =>
      rw [hcut] at h
      exact absurd h Edit.not_yields_throw
    | some boundary =>
      rw [hcut] at h
      obtain ⟨input, d, hsever, h⟩ := Edit.yields_bind.1 h
      obtain ⟨⟨rest, table₁⟩, e, hrest, h⟩ := Edit.yields_bind.1 h
      obtain ⟨heq, rfl⟩ := Edit.yields_pure.1 h
      cases heq
      obtain ⟨n, hn, rfl, rfl⟩ := Edit.yields_sever.1 hsever
      obtain ⟨hlt, hget⟩ := List.getElem?_eq_some_iff.1 hcut
      have hmem : boundary ∈ chain := List.mem_of_getElem? hcut
      have hne : ∀ id ∈ chains.flatten, id ≠ boundary := fun id hid heq =>
        hdisj boundary hmem id hid heq.symm
      obtain ⟨hrec, hlong, rfl⟩ := ih hrest hnd
        (fun id hid => by rw [Arena.size_push]; exact Nat.lt_succ_of_lt (hheld id hid))
        (fun id hid => by rw [Substitution.apply_insert, if_neg (hne id hid), hfix id hid])
      have hboundary : ∀ id ∈ chains.filterMap (·[cut]?), id ∈ chains.flatten := by
        intro id hid
        obtain ⟨c', hc', hid'⟩ := List.mem_filterMap.1 hid
        exact mem_boundary hc' hid'
      have hnot : ∀ id ∈ chain, id ∉ chains.filterMap (·[cut]?) := fun id hid hid' =>
        hdisj id hid id (hboundary id hid') rfl
      refine ⟨?_, List.forall_mem_cons.2 ⟨hlt, hlong⟩, ?_⟩
      · rw [List.filterMap_cons, hcut]
        exact .cons hn hrec (hnot boundary hmem) fun id hid => hheld id (hboundary id hid)
      · have hself : table'.apply boundary = a.size := by
          rw [hrec.other _ (hnot boundary hmem), Substitution.apply_insert, if_pos rfl]
        have htail := map_drop_of_fixed (f := table'.apply) hc hcut fun id hid hne => by
          rw [hrec.other id (hnot id hid), Substitution.apply_insert, if_neg hne, hfixc id hid]
        rw [List.map_cons, List.drop_eq_getElem_cons hlt, hget, List.map_cons, hself, htail]

/-- The chains of a layer can be severed if they are long enough. -/
theorem exists_severLayer (table : Substitution) (hheld : ∀ id ∈ chains.flatten, id < a.size)
    (hlong : ∀ c ∈ chains, cut < c.length) :
    ∃ p b, (severLayer cut chains table).Yields a p b := by
  induction chains generalizing a table with
  | nil => exact ⟨([], table), a, Edit.yields_pure.2 ⟨rfl, rfl⟩⟩
  | cons chain chains ih =>
    obtain ⟨hlt, hlong⟩ := List.forall_mem_cons.1 hlong
    rw [List.flatten_cons] at hheld
    obtain ⟨hheldc, hheld⟩ := List.forall_mem_append.1 hheld
    obtain ⟨n, hn⟩ := Arena.exists_get? (hheldc chain[cut] (List.getElem_mem hlt))
    have hheld' : ∀ id ∈ chains.flatten, id < (a.push (n.severed "_bdr")).size := by
      intro id hid
      rw [Arena.size_push]
      exact Nat.lt_succ_of_lt (hheld id hid)
    obtain ⟨⟨rest, table₁⟩, b, hrest⟩ := ih (table.insert chain[cut] a.size) hheld' hlong
    refine ⟨((a.size :: chain.drop (cut + 1)) :: rest, table₁), b, ?_⟩
    rw [severLayer, List.getElem?_eq_getElem hlt]
    exact Edit.yields_bind.2 ⟨a.size, _, Edit.yields_sever.2 ⟨n, hn, rfl, rfl⟩,
      Edit.yields_bind.2 ⟨(rest, table₁), b, hrest, Edit.yields_pure.2 ⟨rfl, rfl⟩⟩⟩

/-! ## The last layer -/

theorem truncateLayer_eq_ok_iff {l l' : Layer} :
    truncateLayer (α := α) cut l = .ok l' ↔
      (∀ c ∈ l, cut < c.length) ∧ l' = l.map (·.take (cut + 1)) := by
  induction l generalizing l' with
  | nil => simp [truncateLayer, eq_comm]
  | cons c cs ih =>
    unfold truncateLayer
    by_cases hlen : c.length ≤ cut
    · simp [hlen]
    · rw [if_neg hlen, List.forall_mem_cons]
      cases hcs : truncateLayer (α := α) cut cs with
      | error e =>
        constructor
        · intro h
          cases h
        · rintro ⟨⟨-, hlong⟩, -⟩
          rw [ih.2 ⟨hlong, rfl⟩] at hcs
          cases hcs
      | ok rest =>
        obtain ⟨hlong, rfl⟩ := ih.1 hcs
        simp only [Except.ok.injEq]
        constructor
        · rintro rfl
          exact ⟨⟨by omega, hlong⟩, rfl⟩
        · rintro ⟨-, rfl⟩
          rfl

/-- Cutting the chains of the last layer, which are long enough, leaves the other layers as they
are. -/
theorem chainAt_truncateLast {ls ls' : List Layer} (h : truncateLast (α := α) cut ls = .ok ls') :
    ls'.length = ls.length ∧
      (∀ l n c, l + 1 = ls.length → chainAt ls l n = some c → cut < c.length) ∧
      ∀ l n, chainAt ls' l n =
        (chainAt ls l n).map fun c => if l + 1 = ls.length then c.take (cut + 1) else c := by
  induction ls generalizing ls' with
  | nil =>
    cases h
    exact ⟨rfl, by simp, fun _ _ => rfl⟩
  | cons layer ls ih =>
    cases ls with
    | nil =>
      rw [truncateLast] at h
      cases hl : truncateLayer (α := α) cut layer with
      | error e =>
        rw [hl] at h
        cases h
      | ok layer' =>
        rw [hl] at h
        cases h
        obtain ⟨hlong, rfl⟩ := truncateLayer_eq_ok_iff.1 hl
        refine ⟨rfl, ?_, ?_⟩
        · rintro (_ | l) n c hlast hc
          · exact hlong c (List.mem_of_getElem? hc)
          · simp at hlast
        · rintro (_ | l) n
          · simp
          · simp
    | cons layer₂ ls =>
      rw [truncateLast] at h
      cases hl : truncateLast (α := α) cut (layer₂ :: ls) with
      | error e =>
        rw [hl] at h
        cases h
      | ok rest =>
        rw [hl] at h
        cases h
        obtain ⟨hlen, hlong, hat⟩ := ih hl
        refine ⟨by rw [List.length_cons, List.length_cons, hlen], ?_, ?_⟩
        · rintro (_ | l) n c hlast hc
          · simp at hlast
          · exact hlong l n c (Nat.succ.inj hlast) hc
        · rintro (_ | l) n
          · simp
          · simpa using hat l n

/-- The chains of the last layer can be cut if they are long enough. -/
theorem exists_truncateLast {ls : List Layer}
    (hlong : ∀ l n c, l + 1 = ls.length → chainAt ls l n = some c → cut < c.length) :
    ∃ ls', truncateLast (α := α) cut ls = .ok ls' := by
  induction ls with
  | nil => exact ⟨[], rfl⟩
  | cons layer ls ih =>
    cases ls with
    | nil =>
      have hlayer : ∀ c ∈ layer, cut < c.length := by
        intro c hc
        obtain ⟨n, hn⟩ := List.mem_iff_getElem?.1 hc
        exact hlong 0 n c rfl hn
      rw [truncateLast, truncateLayer_eq_ok_iff.2 ⟨hlayer, rfl⟩]
      exact ⟨_, rfl⟩
    | cons layer₂ ls =>
      obtain ⟨rest, hrest⟩ := ih fun l n c hl hc => hlong (l + 1) n c (by simp [hl]) hc
      rw [truncateLast, hrest]
      exact ⟨_, rfl⟩

/-! ## Both ends -/

/-- Cutting at the end keeps the head. -/
theorem head?_keep_zero (count : Nat) (chain : Chain) :
    (r.keep count 0 chain).head? = chain[r.firstCut]? := by
  unfold ClipRange.keep
  simp only [if_true]
  split
  · rw [List.head?_take, if_neg (by omega), List.head?_drop]
  · rw [List.head?_drop]

/-- The inputs of what is kept are the nodes at the cut of the first kept layer. -/
theorem mem_inputs_trimmed_iff {first : Layer} {rest : List Layer}
    (hkept : net.keptLayers r = first :: rest) {id : NodeId} :
    id ∈ (net.trimmed r).inputs ↔ id ∈ first.filterMap (·[r.firstCut]?) := by
  simp only [mem_inputs_iff, chainAt_trimmed, hkept, chainAt_cons_zero, Option.map_eq_some_iff,
    List.mem_filterMap]
  constructor
  · rintro ⟨n, c, ⟨c₀, hc₀, rfl⟩, hid⟩
    exact ⟨c₀, List.mem_of_getElem? hc₀, by rwa [head?_keep_zero] at hid⟩
  · rintro ⟨c₀, hc₀, hid⟩
    obtain ⟨n, hn⟩ := List.mem_iff_getElem?.1 hc₀
    exact ⟨n, _, ⟨c₀, hn, rfl⟩, by rwa [head?_keep_zero]⟩

theorem nodup_keptLayers (h : net.nodes.Nodup) : nodes ⟨net.keptLayers r⟩ |>.Nodup := by
  refine nodup_nodes_iff.2 ⟨?_, ?_⟩
  · intro l n c hc
    exact nodup_chainAt h (chainAt_keptLayers hc)
  · intro l n c l' n' c' id hc hc' hid hid'
    obtain ⟨hl, hn, -⟩ :=
      place_unique h (chainAt_keptLayers hc) (chainAt_keptLayers hc') hid hid'
    exact ⟨by omega, hn⟩

theorem nodup_first {first : Layer} {rest : List Layer} (h : net.nodes.Nodup)
    (hkept : net.keptLayers r = first :: rest) : first.flatten.Nodup := by
  have hnd := nodup_keptLayers (r := r) h
  rw [nodes, hkept, List.flatten_cons, List.flatten_append] at hnd
  exact (List.nodup_append.1 hnd).1

theorem keptLayers_subset {first : Layer} {rest : List Layer}
    (hkept : net.keptLayers r = first :: rest) {id : NodeId} (hid : id ∈ first.flatten) :
    id ∈ net.nodes := by
  obtain ⟨c, hc, hid⟩ := List.mem_flatten.1 hid
  obtain ⟨n, hn⟩ := List.mem_iff_getElem?.1 hc
  exact mem_nodes (chainAt_keptLayers (l := 0) (by rw [hkept]; exact hn)) hid

/-- A network whose first kept layer is severed and whose last kept layer is cut. -/
structure Severed (net : Network) (r : ClipRange) (a b : Arena α) (table : Substitution)
    (layers : List Layer) : Prop where
  /-- Inputs were added for the nodes at the cut. -/
  records : a.Records b (·.severed "_bdr") (net.trimmed r).inputs Substitution.empty table
  /-- What is kept stands on the inputs in place of these nodes. -/
  layers : layers = (net.trimmed r).redirect table.apply
  /-- The chains of the last kept layer reach up to the position that is kept last. -/
  full : ∀ l n c, l + 1 = (net.trimmed r).layerCount →
    chainAt (net.trimmed r).layers l n = some c → c.length = r.lastCut + 1

theorem severed_of_yields {first first' : Layer} {rest layers : List Layer}
    (hnd : net.nodes.Nodup) (hheld : ∀ id ∈ net.nodes, id < a.size)
    (hkept : net.keptLayers r = first :: rest)
    (hsever : (severLayer r.firstCut first Substitution.empty).Yields a (first', table) b)
    (htruncate : truncateLast (α := α) r.lastCut (first' :: rest) = .ok layers) :
    net.Severed r a b table layers := by
  have hndkept := nodup_keptLayers (r := r) hnd
  obtain ⟨hrec, -, rfl⟩ := severLayer_yields hsever (nodup_first hnd hkept)
    (fun id hid => hheld id (keptLayers_subset hkept hid)) (fun _ _ => rfl)
  obtain ⟨hlen, hlong, hat⟩ := chainAt_truncateLast htruncate
  have hmem : ∀ id, id ∈ (net.trimmed r).inputs ↔ id ∈ first.filterMap (·[r.firstCut]?) :=
    fun _ => mem_inputs_trimmed_iff hkept
  have hlayers : layers = (net.trimmed r).redirect table.apply := by
    refine layers_ext ?_ ?_
    · rw [hlen, redirect, trimmed, hkept, List.length_map, List.length_mapIdx, List.length_cons,
        List.length_cons]
    · intro l n
      rw [hat, chainAt_redirect, chainAt_trimmed, hkept]
      cases l with
      | zero =>
        simp only [chainAt_cons_zero, List.getElem?_map, List.length_cons]
        cases first[n]? with
        | none => rfl
        | some c =>
          simp only [Option.map_some, ClipRange.keep, if_true]
          split <;> simp only [List.map_take]
      | succ l =>
        simp only [chainAt_cons_succ, List.length_cons]
        cases hc : chainAt rest l n with
        | none => rfl
        | some c =>
          -- The nodes of later layers stay as they are.
          have hcfix : c.map table.apply = c := by
            refine (List.map_congr_left ?_).trans (List.map_id _)
            intro id hid
            rw [hrec.other id]
            · rfl
            · intro hboundary
              obtain ⟨c₀, hc₀, hid₀⟩ := List.mem_filterMap.1 hboundary
              obtain ⟨n₀, hn₀⟩ := List.mem_iff_getElem?.1 hc₀
              have hat₀ : chainAt (net.keptLayers r) 0 n₀ = some c₀ := by rw [hkept]; exact hn₀
              have hat : chainAt (net.keptLayers r) (l + 1) n = some c := by rw [hkept]; exact hc
              have hplace := place_unique hndkept hat₀ hat (List.mem_of_getElem? hid₀) hid
              omega
          simp only [Option.map_some, ClipRange.keep, Nat.add_eq_zero_iff, Nat.one_ne_zero,
            and_false, if_false, Option.some.injEq]
          split
          · rw [List.map_take, hcfix]
          · rw [hcfix]
  refine ⟨⟨hrec.grows, fun id hid => hrec.other id fun h => hid ((hmem id).2 h),
    fun id hid => hrec.fresh id ((hmem id).1 hid),
    fun i hi j hj => hrec.injOn i ((hmem i).1 hi) j ((hmem j).1 hj),
    fun id hid => hrec.node id ((hmem id).1 hid)⟩, hlayers, ?_⟩
  intro l n c hl hc
  have hcut := hat l n
  rw [hlayers, chainAt_redirect, hc, Option.map_some, eq_comm, Option.map_eq_some_iff] at hcut
  obtain ⟨c₀, hc₀, heq⟩ := hcut
  have hcount : layers.length = (net.trimmed r).layerCount := by
    rw [hlayers, redirect, List.length_map, layerCount]
  rw [← hcount, hlen] at hl
  have hlt := hlong l n c₀ hl hc₀
  have hsame := congrArg List.length heq
  rw [if_pos hl, List.length_take, List.length_map] at hsame
  omega

namespace Severed

variable {table : Substitution} {layers : List Layer}

theorem injOn (h : net.Severed r a b table layers) (hheld : ∀ id ∈ net.nodes, id < a.size) :
    ∀ i ∈ net.nodes, ∀ j ∈ net.nodes, table.apply i = table.apply j → i = j := by
  have hother : ∀ i, i ∉ (net.trimmed r).inputs → table.apply i = i := h.records.other
  intro i hi j hj hij
  by_cases hi' : i ∈ (net.trimmed r).inputs <;> by_cases hj' : j ∈ (net.trimmed r).inputs
  · exact h.records.injOn i hi' j hj' hij
  · have hge := h.records.fresh i hi'
    rw [hij, hother j hj'] at hge
    exact absurd (hheld j hj) (Nat.not_lt.2 hge)
  · have hge := h.records.fresh j hj'
    rw [← hij, hother i hi'] at hge
    exact absurd (hheld i hi) (Nat.not_lt.2 hge)
  · rwa [hother i hi', hother j hj'] at hij

theorem nodes_eq (h : net.Severed r a b table layers) :
    layers.flatten.flatten = (net.trimmed r).nodes.map table.apply := by
  rw [h.layers]
  exact Copy.nodes_redirect _ _

theorem nodup (h : net.Severed r a b table layers) (hnd : net.nodes.Nodup)
    (hheld : ∀ id ∈ net.nodes, id < a.size) : layers.flatten.flatten.Nodup := by
  rw [h.nodes_eq, List.nodup_iff_pairwise_ne, List.pairwise_map]
  refine (nodup_trimmed hnd).imp_of_mem ?_
  intro i j hi hj hne heq
  exact hne (h.injOn hheld i (nodes_trimmed_subset hi) j (nodes_trimmed_subset hj) heq)

/-- What is kept is in the arena. -/
theorem held (h : net.Severed r a b table layers) (hheld : ∀ id ∈ net.nodes, id < a.size) :
    ∀ id ∈ layers.flatten.flatten, (b.get? id).isSome := by
  rw [h.nodes_eq, List.forall_mem_map]
  intro id hid
  by_cases hinput : id ∈ (net.trimmed r).inputs
  · obtain ⟨n, -, hn⟩ := h.records.node id hinput
    rw [hn]
    rfl
  · have hlt := hheld id (nodes_trimmed_subset hid)
    obtain ⟨n, hn⟩ := Arena.exists_get? hlt
    rw [h.records.other id hinput, Substitution.apply_empty, h.records.grows.get? id hlt, hn]
    rfl

/-- Once what is kept reads the inputs, it is a copy of what the range keeps. -/
theorem copy {c : Arena α} {u : PUnit} (h : net.Severed r a b table layers)
    (hnd : net.nodes.Nodup) (hheld : ∀ id ∈ net.nodes, id < a.size)
    (hredirect : Edit.Yields (layers.flatten.flatten.forM (Edit.redirect table)) b u c) :
    (net.trimmed r).Copy (a.freed (net.trimmed r).inputs) table.apply ⟨layers⟩ c ∧
      a.size ≤ c.size ∧ ∀ j < a.size, j ∉ net.nodes → c.get? j = a.get? j := by
  obtain ⟨hsize, -, hget⟩ := Edit.redirectAll_yields hredirect (h.nodup hnd hheld)
  have hother : ∀ i, i ∉ (net.trimmed r).inputs → table.apply i = i := h.records.other
  refine ⟨⟨h.layers, ?_, ?_⟩, ?_, ?_⟩
  · intro i hi j hj
    exact h.injOn hheld i (nodes_trimmed_subset hi) j (nodes_trimmed_subset hj)
  · intro id hid
    have hmem : table.apply id ∈ layers.flatten.flatten := by
      rw [h.nodes_eq]
      exact List.mem_map_of_mem hid
    have hlt := hheld id (nodes_trimmed_subset hid)
    by_cases hinput : id ∈ (net.trimmed r).inputs
    · obtain ⟨n, hn, hsevered⟩ := h.records.node id hinput
      refine ⟨{ n with kind := .plain }, (n.severed "_bdr").redirect table.apply, ?_, ?_, rfl, rfl⟩
      · rw [Arena.get?_freed, hn, Option.map_some, if_pos hinput]
      · rw [hget, if_pos hmem, hsevered, Option.map_some]
    · obtain ⟨n, hn⟩ := Arena.exists_get? hlt
      refine ⟨n, n.redirect table.apply, ?_, ?_, rfl, rfl⟩
      · rw [Arena.get?_freed, hn, Option.map_some, if_neg hinput]
      · rw [hget, if_pos hmem, hother id hinput, h.records.grows.get? id hlt, hn, Option.map_some]
  · rw [hsize]
    exact h.records.grows.size
  · intro j hj hjnet
    have hnot : j ∉ layers.flatten.flatten := by
      rw [h.nodes_eq, List.mem_map]
      rintro ⟨id, hid, rfl⟩
      by_cases hinput : id ∈ (net.trimmed r).inputs
      · exact absurd hj (Nat.not_lt.2 (h.records.fresh id hinput))
      · rw [hother id hinput] at hjnet
        exact hjnet (nodes_trimmed_subset hid)
    rw [hget, if_neg hnot, h.records.grows.get? j hj]

end Severed

/-- A network is clipped by severing its first kept layer, cutting its last kept layer and letting
what is kept read the inputs. -/
theorem exists_severed_of_clip (h : (net.clip r).Yields a net' b) (hnd : net.nodes.Nodup)
    (hheld : ∀ id ∈ net.nodes, id < a.size) :
    ∃ table c u, net.Severed r a c table net'.layers ∧
      Edit.Yields (net'.layers.flatten.flatten.forM (Edit.redirect table)) c u b ∧
      net'.WellFormed b ∧ r.firstLayer ≤ r.resolveLast net.layerCount ∧
      r.resolveLast net.layerCount < net.layerCount := by
  unfold clip at h
  dsimp only at h
  split at h
  · exact absurd h Edit.not_yields_throw
  · rename_i hlast
    split at h
    · exact absurd h Edit.not_yields_throw
    · rename_i hfirst
      split at h
      · exact absurd h Edit.not_yields_throw
      · rename_i first rest hkept
        obtain ⟨⟨first', table⟩, c, hsever, h₁⟩ := Edit.yields_bind.1 h
        obtain ⟨layers, d, hofExcept, h₂⟩ := Edit.yields_bind.1 h₁
        obtain ⟨htruncate, rfl⟩ := Edit.yields_ofExcept.1 hofExcept
        obtain ⟨u, e, hredirect, h₃⟩ := Edit.yields_bind.1 h₂
        obtain ⟨hnew, rfl⟩ := Edit.yields_reading.1 h₃
        obtain ⟨rfl, hwell⟩ := new_eq_ok_iff.1 hnew
        exact ⟨table, d, u, severed_of_yields hnd hheld hkept hsever htruncate, hredirect, hwell,
          by omega, by omega⟩

/-- A clipped network is a copy of what the range keeps. -/
theorem clip_yields (h : (net.clip r).Yields a net' b) (hnd : net.nodes.Nodup)
    (hheld : ∀ id ∈ net.nodes, id < a.size) :
    ∃ f, (net.trimmed r).Copy (a.freed (net.trimmed r).inputs) f net' b ∧
      (∀ i ∈ net.nodes, ∀ j ∈ net.nodes, f i = f j → i = j) ∧
      (∀ i, f i = i ∨ a.size ≤ f i) ∧ a.size ≤ b.size ∧
      (∀ j < a.size, j ∉ net.nodes → b.get? j = a.get? j) ∧ net'.WellFormed b ∧
      r.resolveLast net.layerCount < net.layerCount := by
  obtain ⟨table, c, u, hsevered, hredirect, hwell, -, hlast⟩ := exists_severed_of_clip h hnd hheld
  obtain ⟨hcopy, hsize, hold⟩ := hsevered.copy hnd hheld hredirect
  refine ⟨table.apply, hcopy, hsevered.injOn hheld, ?_, hsize, hold, hwell, hlast⟩
  intro i
  by_cases hi : i ∈ (net.trimmed r).inputs
  · exact .inr (hsevered.records.fresh i hi)
  · exact .inl (hsevered.records.other i hi)

/-! ## Clipped copies -/

/-- What a range keeps of a copy is a copy of what it keeps of the original. -/
theorem Copy.trimmed {f : NodeId → NodeId} (h : net.Copy a f net' b) (r : ClipRange) :
    (net.trimmed r).Copy (a.freed (net.trimmed r).inputs) f (net'.trimmed r)
      (b.freed (net'.trimmed r).inputs) := by
  have hnet' : net' = ⟨net.redirect f⟩ := by rw [← h.layers]
  have hinputs : (net'.trimmed r).inputs = (net.trimmed r).inputs.map f := by
    rw [hnet', trimmed_redirect, inputs_redirect]
  refine ⟨by rw [hnet', trimmed_redirect], ?_, ?_⟩
  · intro i hi j hj
    exact h.injOn i (nodes_trimmed_subset hi) j (nodes_trimmed_subset hj)
  · intro id hid
    obtain ⟨n, m, hn, hm, hkind, hbounds⟩ := h.mirrors id (nodes_trimmed_subset hid)
    have hiff : f id ∈ (net'.trimmed r).inputs ↔ id ∈ (net.trimmed r).inputs := by
      rw [hinputs, List.mem_map]
      constructor
      · rintro ⟨i, hi, hij⟩
        rwa [← h.injOn i (nodes_trimmed_subset (inputs_subset_nodes hi)) id
          (nodes_trimmed_subset hid) hij]
      · intro hi
        exact ⟨id, hi, rfl⟩
    by_cases hinput : id ∈ (net.trimmed r).inputs
    · refine ⟨{ n with kind := .plain }, { m with kind := .plain }, ?_, ?_, rfl, hbounds⟩
      · rw [Arena.get?_freed, hn, Option.map_some, if_pos hinput]
      · rw [Arena.get?_freed, hm, Option.map_some, if_pos (hiff.2 hinput)]
    · refine ⟨n, m, ?_, ?_, hkind, hbounds⟩
      · rw [Arena.get?_freed, hn, Option.map_some, if_neg hinput]
      · rw [Arena.get?_freed, hm, Option.map_some, if_neg fun h => hinput (hiff.1 h)]

/-- A range that was cut out lies in the network, and has at least two layers. -/
theorem range_of_duplicateAndClip (h : (net.duplicateAndClip r suffix).Yields a net' b)
    (hnd : net.nodes.Nodup) (hheld : ∀ id ∈ net.nodes, id < a.size) :
    r.firstLayer < r.resolveLast net.layerCount ∧
      r.resolveLast net.layerCount < net.layerCount := by
  unfold duplicateAndClip at h
  dsimp only at h
  split at h
  · exact absurd h Edit.not_yields_throw
  · rename_i hrange
    obtain ⟨dup, c, hdup, hclip⟩ := Edit.yields_bind.1 h
    obtain ⟨f, hcopy, -, -, hdupwell⟩ := duplicate_yields hdup hnd hheld
    obtain ⟨-, -, -, -, -, -, -, hlast⟩ := clip_yields hclip hdupwell.nodup hdupwell.held
    rw [hcopy.layerCount_eq] at hlast
    exact ⟨by omega, hlast⟩

/-- A clipped copy is a copy on new nodes of what the range keeps. -/
theorem duplicateAndClip_yields (h : (net.duplicateAndClip r suffix).Yields a net' b)
    (hnet : net.WellFormed a) :
    ∃ f, (net.trimmed r).Copy (a.freed (net.trimmed r).inputs) f net' b ∧
      (∀ id ∈ (net.trimmed r).nodes, a.size ≤ f id) ∧ a.GrowsTo b ∧
      (net.trimmed r).WellFormed (a.freed (net.trimmed r).inputs) ∧ net'.WellFormed b ∧
      2 ≤ net'.layerCount := by
  unfold duplicateAndClip at h
  dsimp only at h
  split at h
  · exact absurd h Edit.not_yields_throw
  · rename_i hrange
    obtain ⟨dup, c, hdup, hclip⟩ := Edit.yields_bind.1 h
    obtain ⟨f, hcopy, hfresh, hgrows, hdupwell⟩ := duplicate_yields hdup hnet.nodup hnet.held
    obtain ⟨g, hcopy', hinj, hg, hsize, hold, hwell, hlast⟩ :=
      clip_yields hclip hdupwell.nodup hdupwell.held
    have hboth := (hcopy.trimmed r).trans hcopy'
    have hnew : ∀ id ∈ net.nodes, a.size ≤ g (f id) := by
      intro id hid
      rcases hg (f id) with heq | hge
      · rw [heq]
        exact hfresh id hid
      · exact hgrows.size.trans hge
    refine ⟨fun i => g (f i), hboth, fun id hid => hnew id (nodes_trimmed_subset hid), ?_, ?_,
      hwell, ?_⟩
    · refine ⟨hgrows.size.trans hsize, ?_⟩
      intro j hj
      have hjdup : j ∉ dup.nodes := by
        rw [hcopy.nodes_eq, List.mem_map]
        rintro ⟨id, hid, rfl⟩
        exact absurd hj (Nat.not_lt.2 (hfresh id hid))
      rw [hold j (Nat.lt_of_lt_of_le hj hgrows.size) hjdup, hgrows.get? j hj]
    · refine hboth.wellFormed_of_copy hwell ?_
      intro id hid t ht s hs hts
      have hread := (Arena.reads_freed_iff.1 ht).2
      have htnet := hnet.closed id (nodes_trimmed_subset hid) t hread
      have hsnet := nodes_trimmed_subset hs
      exact hcopy.injOn t htnet s hsnet
        (hinj _ (hcopy.mem_nodes htnet) _ (hcopy.mem_nodes hsnet) hts)
    · rw [hcopy.layerCount_eq] at hlast
      rw [hboth.layerCount_eq, layerCount, trimmed, List.length_mapIdx, keptLayers,
        List.length_take, List.length_drop]
      have hcount : net.layers.length = net.layerCount := rfl
      omega

end Network

end PiecewiseNet
