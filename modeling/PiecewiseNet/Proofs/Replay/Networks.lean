import PiecewiseNet.Override
import PiecewiseNet.Clip
import PiecewiseNet.Proofs.Replay.Edits

/-!
# Builders of networks run again

The functions that copy, clip and override networks change nothing but nodes that they added, or
that an earlier function of the same run added. Run again later, they build the same network on
nodes further up.

## Main definitions

- `Network.moved`: the same network on other nodes.
- `Replay.FreshNetwork`: all nodes of a network were added by the first run.

## Main statements

- `Replay.repeats_new`: a network is accepted exactly when the shifted one is.
- `Replay.repeats_duplicateAndClip`: cutting a range out of a copy.
- `Replay.repeats_override`: overriding a network that was built by the run.
-/

namespace PiecewiseNet

variable {α : Type}

/-! ## Layers over other nodes -/

/-- The same layers on other nodes. -/
def redirectLayers (f : NodeId → NodeId) (ls : List Layer) : List Layer :=
  ls.map (List.map (List.map f))

theorem flatten_redirectLayers (f : NodeId → NodeId) (ls : List Layer) :
    (redirectLayers f ls).flatten.flatten = ls.flatten.flatten.map f := by
  simp only [redirectLayers, List.map_flatten]

/-- A node of a neuron of a layer is a node of the layers. -/
theorem mem_flatten_flatten {ls : List Layer} {l : Layer} {c : Chain} {id : NodeId} (hl : l ∈ ls)
    (hc : c ∈ l) (hid : id ∈ c) : id ∈ ls.flatten.flatten :=
  List.mem_flatten.2 ⟨c, List.mem_flatten.2 ⟨l, hl, hc⟩, hid⟩

/-- Fewer layers have fewer nodes. -/
theorem flatten_flatten_subset {ls ls' : List Layer} (h : ls ⊆ ls') :
    ls.flatten.flatten ⊆ ls'.flatten.flatten := by
  intro id hid
  obtain ⟨c, hc, hid⟩ := List.mem_flatten.1 hid
  obtain ⟨l, hl, hc⟩ := List.mem_flatten.1 hc
  exact mem_flatten_flatten (h hl) hc hid

theorem redirectLayers_redirectLayers (f g : NodeId → NodeId) (ls : List Layer) :
    redirectLayers g (redirectLayers f ls) = redirectLayers (fun id => g (f id)) ls := by
  simp [redirectLayers, Function.comp_def]

namespace Network

/-- The same network on other nodes. -/
def moved (net : Network) (f : NodeId → NodeId) : Network :=
  ⟨redirectLayers f net.layers⟩

variable {net : Network} {f : NodeId → NodeId}

@[simp] theorem layers_moved : (net.moved f).layers = redirectLayers f net.layers := rfl

@[simp] theorem layerCount_moved : (net.moved f).layerCount = net.layerCount :=
  List.length_map ..

theorem getD_layers_moved (l : Nat) :
    (net.moved f).layers[l]?.getD [] = (net.layers[l]?.getD []).map (List.map f) := by
  simp only [layers_moved, redirectLayers, List.getElem?_map]
  cases net.layers[l]? <;> rfl

@[simp] theorem layerSize_moved (l : Nat) : (net.moved f).layerSize l = net.layerSize l := by
  rw [layerSize, getD_layers_moved, List.length_map, layerSize]

theorem nodes_moved : (net.moved f).nodes = net.nodes.map f :=
  Copy.nodes_redirect net f

/-- A node of a neuron of a layer, which may not exist, is a node of the network. -/
theorem mem_nodes_of_mem_layer {l : Nat} {c : Chain} {id : NodeId}
    (hc : c ∈ net.layers[l]?.getD []) (hid : id ∈ c) : id ∈ net.nodes := by
  cases hl : net.layers[l]? with
  | none => simp [hl] at hc
  | some layer =>
    rw [hl, Option.getD_some] at hc
    exact mem_flatten_flatten (List.mem_of_getElem? hl) hc hid

/-- A network whose nodes are not moved is not changed. -/
theorem moved_of_eq (h : ∀ id ∈ net.nodes, f id = id) : net.moved f = net := by
  obtain ⟨ls⟩ := net
  simp only [moved, redirectLayers, Network.mk.injEq]
  refine (List.map_congr_left ?_).trans (List.map_id _)
  intro l hl
  refine (List.map_congr_left ?_).trans (List.map_id _)
  intro c hc
  refine (List.map_congr_left ?_).trans (List.map_id _)
  intro id hid
  exact h id (mem_flatten_flatten hl hc hid)

/-- Cutting chains does not look at their nodes. -/
theorem truncateLayer_map (cut : Nat) (l : Layer) :
    truncateLayer (α := α) cut (l.map (List.map f)) =
      (truncateLayer cut l).map (List.map (List.map f)) := by
  induction l with
  | nil => rfl
  | cons c l ih =>
    unfold truncateLayer
    simp only [List.map_cons, List.length_map]
    split
    · rfl
    · rw [ih]
      cases truncateLayer (α := α) cut l with
      | error e => rfl
      | ok rest => simp [Except.map]

theorem truncateLast_redirect (cut : Nat) (ls : List Layer) :
    truncateLast (α := α) cut (redirectLayers f ls) =
      (truncateLast cut ls).map (redirectLayers f) := by
  induction ls using truncateLast.induct (α := α) cut with
  | case1 => rfl
  | case2 l e hl =>
    have h := truncateLayer_map (α := α) (f := f) cut l
    rw [hl] at h
    simp only [redirectLayers, List.map_cons, List.map_nil, truncateLast, h, hl]
    rfl
  | case3 l l' hl =>
    have h := truncateLayer_map (α := α) (f := f) cut l
    rw [hl] at h
    simp only [redirectLayers, List.map_cons, List.map_nil, truncateLast, h, hl]
    rfl
  | case4 l m ls e hrest ih =>
    simp only [redirectLayers, List.map_cons] at ih
    simp only [redirectLayers, List.map_cons, truncateLast, ih, hrest]
    rfl
  | case5 l m ls rest hrest ih =>
    simp only [redirectLayers, List.map_cons] at ih
    simp only [redirectLayers, List.map_cons, truncateLast, ih, hrest]
    rfl

theorem truncateLayer_subset {cut : Nat} {l l' : Layer}
    (h : truncateLayer (α := α) cut l = .ok l') : l'.flatten ⊆ l.flatten := by
  induction l generalizing l' with
  | nil =>
    cases h
    exact List.Subset.refl _
  | cons c l ih =>
    unfold truncateLayer at h
    split at h
    · cases h
    · split at h
      · cases h
      · rename_i rest hrest
        cases h
        rw [List.flatten_cons, List.flatten_cons]
        exact List.append_subset.2 ⟨fun id hid => List.mem_append_left _ (List.mem_of_mem_take hid),
          fun id hid => List.mem_append_right _ (ih hrest hid)⟩

theorem truncateLast_subset {cut : Nat} {ls ls' : List Layer}
    (h : truncateLast (α := α) cut ls = .ok ls') : ls'.flatten.flatten ⊆ ls.flatten.flatten := by
  induction ls using truncateLast.induct (α := α) cut generalizing ls' with
  | case1 =>
    cases h
    exact List.Subset.refl _
  | case2 l e hl =>
    rw [truncateLast, hl] at h
    cases h
  | case3 l l' hl =>
    rw [truncateLast, hl] at h
    cases h
    simpa using truncateLayer_subset hl
  | case4 l m ls e hrest ih =>
    rw [truncateLast, hrest] at h
    cases h
  | case5 l m ls rest hrest ih =>
    rw [truncateLast, hrest] at h
    cases h
    rw [List.flatten_cons, List.flatten_cons, List.flatten_append, List.flatten_append]
    exact List.append_subset.2 ⟨List.subset_append_left _ _,
      fun id hid => List.mem_append_right _ (ih hrest hid)⟩

end Network

namespace Replay

open Network

variable {p : Replay α} {net : Network} {suffix : String} {l : Layer} {ls : List Layer}

/-- All nodes of the network were added by the first run. -/
def FreshNetwork (p : Replay α) (net : Network) : Prop :=
  ∀ id ∈ net.nodes, p.Fresh id

/-- Two runs on the nodes of a well-formed network. -/
def ofNetwork {a b : Arena α} (hnet : net.WellFormed a) (h : a.GrowsTo b) : Replay α :=
  ⟨a, b, net.nodes, h, hnet.held, hnet.closed⟩

/-! ## Acceptance -/

/-- The nodes that are known to the runs have the same kind and the same bounds in both. -/
theorem Matches.mirrors {a b : Arena α} (h : p.Matches a b) {id : NodeId} (hid : p.Known id)
    (hlt : id < a.size) : a.Mirrors b p.shift id := by
  obtain ⟨n, hn⟩ := Arena.exists_get? hlt
  refine ⟨n, n.redirect p.shift, hn, ?_, rfl, rfl⟩
  rw [h.get? id hid, hn, Option.map_some]

/-- A network on known nodes is well-formed exactly when the shifted one is. -/
theorem Matches.wellFormed_moved_iff {a b : Arena α} (h : p.Matches a b)
    (hnet : ∀ id ∈ net.nodes, p.Known id) :
    (net.moved p.shift).WellFormed b ↔ net.WellFormed a := by
  have hcopy : (∀ id ∈ net.nodes, id < a.size) → net.Copy a p.shift (net.moved p.shift) b :=
    fun hheld => ⟨rfl, fun i _ j _ hij => p.shift_injective hij,
      fun id hid => h.mirrors (hnet id hid) (hheld id hid)⟩
  constructor
  · intro hwell
    refine (hcopy ?_).wellFormed_of_copy hwell fun id _ r _ s _ hrs => p.shift_injective hrs
    intro id hid
    have hheld := hwell.held (p.shift id) (by rw [nodes_moved]; exact List.mem_map_of_mem hid)
    obtain ⟨m, hm⟩ := Arena.exists_get? hheld
    rw [h.get? id (hnet id hid), Option.map_eq_some_iff] at hm
    obtain ⟨n, hn, -⟩ := hm
    exact Arena.lt_size_of_get? hn
  · intro hwell
    exact (hcopy hwell.held).wellFormed hwell

/-- Building a network from layers of known nodes. -/
theorem Matches.new_alike {a b : Arena α} (h : p.Matches a b)
    (hls : ∀ id ∈ ls.flatten.flatten, p.Known id) :
    Alike (·.moved p.shift) (fun net => net.layers = ls) (Network.new ls a)
      (Network.new (redirectLayers p.shift ls) b) := by
  have hiff : WellFormed ⟨redirectLayers p.shift ls⟩ b ↔ WellFormed ⟨ls⟩ a :=
    h.wellFormed_moved_iff hls
  cases hnew : Network.new ls a with
  | ok net =>
    obtain ⟨rfl, hwell⟩ := new_eq_ok_iff.1 hnew
    rw [new_eq_ok_iff.2 ⟨rfl, hiff.2 hwell⟩]
    exact .ok rfl
  | error e =>
    cases hnew' : Network.new (redirectLayers p.shift ls) b with
    | ok net' =>
      obtain ⟨rfl, hwell⟩ := new_eq_ok_iff.1 hnew'
      rw [new_eq_ok_iff.2 ⟨rfl, hiff.1 hwell⟩] at hnew
      cases hnew
    | error e' => exact .error e e'

theorem repeats_new (hls : ∀ id ∈ ls.flatten.flatten, p.Fresh id) :
    p.Repeats (·.moved p.shift) p.FreshNetwork (Edit.reading (Network.new (α := α) ls))
      (Edit.reading (Network.new (redirectLayers p.shift ls))) := by
  refine .reading fun a b h => (h.new_alike fun id hid => .inr (hls id hid)).mono ?_
  rintro net rfl
  exact hls

/-! ## Copying -/

theorem repeats_copyNodes {ids : List NodeId} (hids : ∀ id ∈ ids, p.Known id)
    (table : Substitution) :
    p.Repeats (·.redirect p.shift)
      (fun t => ∀ id, id ∈ ids ∨ p.Fresh (table.apply id) → p.Fresh (t.apply id))
      (copyNodes (α := α) suffix ids table)
      (copyNodes suffix (ids.map p.shift) (table.redirect p.shift)) := by
  induction ids generalizing table with
  | nil =>
    refine .pure ?_ rfl
    rintro id (hid | hid)
    · cases hid
    · exact hid
  | cons id ids ih =>
    obtain ⟨hid, hids⟩ := List.forall_mem_cons.1 hids
    refine .bind (.copyNode hid suffix) ?_
    intro copy hcopy
    rw [← Substitution.redirect_insert p.shift_injective]
    refine (ih hids _).mono ?_
    intro t ht j hj
    refine ht j ?_
    rw [Substitution.apply_insert]
    by_cases hjid : j = id
    · rw [if_pos hjid]
      exact .inr hcopy
    · rw [if_neg hjid]
      exact hj.imp_left fun hj => (List.mem_cons.1 hj).resolve_left hjid

theorem repeats_duplicate (hnet : ∀ id ∈ net.nodes, p.Known id) (suffix : String) :
    p.Repeats (·.moved p.shift) p.FreshNetwork (net.duplicate (α := α) suffix)
      ((net.moved p.shift).duplicate suffix) := by
  unfold duplicate
  rw [nodes_moved]
  refine .bind (repeats_copyNodes hnet Substitution.empty) ?_
  intro table htable
  have hfresh : ∀ id ∈ net.nodes.map table.apply, p.Fresh id :=
    List.forall_mem_map.2 fun id hid => htable id (.inl hid)
  have hmap : (net.nodes.map p.shift).map (table.redirect p.shift).apply =
      (net.nodes.map table.apply).map p.shift := by
    rw [List.map_map, List.map_map]
    exact List.map_congr_left fun id _ => Substitution.apply_redirect p.shift_injective table id
  have hlayers : (net.moved p.shift).redirect (table.redirect p.shift).apply =
      redirectLayers p.shift (net.redirect table.apply) := by
    show redirectLayers _ (redirectLayers _ _) = redirectLayers _ (redirectLayers _ _)
    rw [redirectLayers_redirectLayers, redirectLayers_redirectLayers]
    congr 1
    funext id
    exact Substitution.apply_redirect p.shift_injective table id
  rw [← Edit.forM_map_redirect table, ← Edit.forM_map_redirect (table.redirect p.shift), hmap,
    hlayers]
  refine .bind (repeats_redirectAll hfresh table) fun _ _ => repeats_new ?_
  have hnodes : (net.redirect table.apply).flatten.flatten = net.nodes.map table.apply :=
    flatten_redirectLayers table.apply net.layers
  rw [hnodes]
  exact hfresh

/-! ## Clipping -/

theorem repeats_severLayer (hl : ∀ id ∈ l.flatten, p.Fresh id) (cut : Nat) (table : Substitution) :
    p.Repeats (Prod.map (List.map (List.map p.shift)) (·.redirect p.shift))
      (fun r => ∀ id ∈ r.1.flatten, p.Fresh id)
      (severLayer (α := α) cut l table)
      (severLayer cut (l.map (List.map p.shift)) (table.redirect p.shift)) := by
  induction l generalizing table with
  | nil => exact .pure (by simp) rfl
  | cons chain l ih =>
    rw [List.flatten_cons, List.forall_mem_append] at hl
    obtain ⟨hchain, hl⟩ := hl
    simp only [List.map_cons, severLayer, List.getElem?_map, List.length_map]
    cases hcut : chain[cut]? with
    | none => exact .throw _ _
    | some boundary =>
      have hboundary : p.Fresh boundary := hchain boundary (List.mem_of_getElem? hcut)
      refine .bind (.sever (.inr hboundary) "_bdr") ?_
      intro input hinput
      rw [← Substitution.redirect_insert p.shift_injective]
      refine .bind (ih hl _) ?_
      rintro ⟨rest, table'⟩ hrest
      refine .pure ?_ ?_
      · intro id hid
        rw [List.flatten_cons, List.mem_append, List.mem_cons] at hid
        rcases hid with (rfl | hid) | hid
        · exact hinput
        · exact hchain id (List.mem_of_mem_drop hid)
        · exact hrest id hid
      · simp only [Prod.map_apply, List.map_cons, List.map_drop]

theorem repeats_clip (hnet : p.FreshNetwork net) (r : ClipRange) :
    p.Repeats (·.moved p.shift) p.FreshNetwork (net.clip (α := α) r)
      ((net.moved p.shift).clip r) := by
  unfold clip
  simp only [layerCount_moved]
  by_cases hlast : net.layerCount ≤ r.resolveLast net.layerCount
  · simp only [if_pos hlast]
    exact .throw _ _
  simp only [if_neg hlast]
  by_cases hfirst : r.resolveLast net.layerCount < r.firstLayer
  · simp only [if_pos hfirst]
    exact .throw _ _
  simp only [if_neg hfirst, layers_moved, redirectLayers, ← List.map_drop, ← List.map_take]
  have hkept : ∀ id ∈ ((net.layers.drop r.firstLayer).take
      (r.resolveLast net.layerCount - r.firstLayer + 1)).flatten.flatten, p.Fresh id := by
    intro id hid
    exact hnet id (flatten_flatten_subset
      (fun l hl => List.mem_of_mem_drop (List.mem_of_mem_take hl)) hid)
  cases hlayers : (net.layers.drop r.firstLayer).take
      (r.resolveLast net.layerCount - r.firstLayer + 1) with
  | nil => exact .throw _ _
  | cons first rest =>
    rw [hlayers, List.flatten_cons, List.flatten_append, List.forall_mem_append] at hkept
    refine .bind (repeats_severLayer hkept.1 r.firstCut Substitution.empty) ?_
    rintro ⟨first', table⟩ hfirst'
    have hcons : (first'.map (List.map p.shift) :: rest.map (List.map (List.map p.shift))) =
        redirectLayers p.shift (first' :: rest) := rfl
    refine .bind (g := redirectLayers p.shift)
      (P := fun ls => ∀ id ∈ ls.flatten.flatten, p.Fresh id) (.ofExcept (.of_eq_map ?_ ?_)) ?_
    · exact truncateLast_redirect r.lastCut (first' :: rest)
    · intro ls hls id hid
      have hmem := truncateLast_subset hls hid
      rw [List.flatten_cons, List.flatten_append, List.mem_append] at hmem
      exact hmem.elim (hfirst' id) (hkept.2 id)
    · intro ls hls
      simp only [Prod.map_apply, flatten_redirectLayers]
      exact .bind (repeats_redirectAll hls table) fun _ _ => repeats_new hls

/-- Cutting a range out of a copy of a network on known nodes. -/
theorem repeats_duplicateAndClip (hnet : ∀ id ∈ net.nodes, p.Known id) (r : ClipRange)
    (suffix : String) :
    p.Repeats (·.moved p.shift) p.FreshNetwork (net.duplicateAndClip (α := α) r suffix)
      ((net.moved p.shift).duplicateAndClip r suffix) := by
  unfold duplicateAndClip
  simp only [layerCount_moved]
  by_cases hlast : r.resolveLast net.layerCount ≤ r.firstLayer
  · simp only [if_pos hlast]
    exact .throw _ _
  · simp only [if_neg hlast]
    exact .bind (repeats_duplicate hnet suffix) fun copy hcopy => repeats_clip hcopy r

/-! ## Overriding -/

section

variable [Scalar α]

theorem repeats_replacement (kind : OverrideKind) {head tail : NodeId} (hhead : p.Fresh head)
    (htail : p.Fresh tail) :
    p.Repeats (List.map p.shift) (fun c => ∀ id ∈ c, p.Fresh id)
      (replacement (α := α) kind head tail)
      (replacement kind (p.shift head) (p.shift tail)) := by
  have hpair : ∀ new, p.Fresh new → ∀ id ∈ [head, new], p.Fresh id := by
    intro new hnew
    rw [List.forall_mem_cons, List.forall_mem_singleton]
    exact ⟨hhead, hnew⟩
  cases kind with
  | active => exact .pure (List.forall_mem_singleton.2 hhead) rfl
  | inactive => exact .bind (.push _) fun new hnew => .pure (hpair new hnew) rfl
  | nofunc =>
    refine .bind (.node (.inr htail)) fun old _ => ?_
    exact .bind (.push _) fun new hnew => .pure (hpair new hnew) rfl

theorem repeats_overrideChain (kind : OverrideKind) {c : Chain} (hc : ∀ id ∈ c, p.Fresh id)
    (table : Substitution) :
    p.Repeats (Prod.map (List.map p.shift) (·.redirect p.shift)) (fun r => ∀ id ∈ r.1, p.Fresh id)
      (overrideChain (α := α) kind c table)
      (overrideChain kind (c.map p.shift) (table.redirect p.shift)) := by
  unfold overrideChain
  simp only [List.head?_map, List.getLast?_map]
  cases hhead : c.head? with
  | none => exact .throw _ _
  | some head =>
    cases htail : c.getLast? with
    | none => exact .throw _ _
    | some tail =>
      have hhead' : p.Fresh head := hc head (List.mem_of_head? hhead)
      have htail' : p.Fresh tail := hc tail (List.mem_of_getLast? htail)
      refine .bind (repeats_replacement kind hhead' htail') ?_
      intro chain hchain
      have hnew : p.Fresh (chain.getLast?.getD head) := by
        cases hlast : chain.getLast? with
        | none => exact hhead'
        | some new => exact hchain new (List.mem_of_getLast? hlast)
      have hshift : (chain.map p.shift).getLast?.getD (p.shift head) =
          p.shift (chain.getLast?.getD head) := by
        rw [List.getLast?_map]
        cases chain.getLast? <;> rfl
      simp only [hshift]
      refine .bind (.node (.inr htail')) ?_
      intro old _
      have htable : (if p.shift (chain.getLast?.getD head) = p.shift tail then
            table.redirect p.shift
          else (table.redirect p.shift).insert (p.shift tail)
            (p.shift (chain.getLast?.getD head))) =
          (if chain.getLast?.getD head = tail then table
            else table.insert tail (chain.getLast?.getD head)).redirect p.shift := by
        simp only [p.shift_injective.eq_iff]
        split
        · rfl
        · rw [Substitution.redirect_insert p.shift_injective]
      rw [htable]
      have hlabel : (old.redirect p.shift).label = old.label := rfl
      rw [hlabel]
      cases old.label with
      | none =>
        exact .bind (g := fun u => u) (P := fun _ => True) (.pure trivial rfl) fun _ _ =>
          .pure (x := (chain, _)) hchain rfl
      | some text =>
        exact .bind (.update hnew fun _ => rfl) fun _ _ => .pure (x := (chain, _)) hchain rfl

theorem repeats_overrideChains (es : List ((Nat × Nat) × OverrideKind))
    (hls : ∀ id ∈ ls.flatten.flatten, p.Fresh id) (table : Substitution) :
    p.Repeats (Prod.map (redirectLayers p.shift) (·.redirect p.shift))
      (fun r => ∀ id ∈ r.1.flatten.flatten, p.Fresh id)
      (overrideChains (α := α) es ls table)
      (overrideChains es (redirectLayers p.shift ls) (table.redirect p.shift)) := by
  induction es generalizing ls table with
  | nil => exact .pure hls rfl
  | cons e es ih =>
    obtain ⟨⟨i, j⟩, kind⟩ := e
    unfold overrideChains
    simp only [redirectLayers, List.getElem?_map, List.length_map]
    cases hl : ls[i]? with
    | none => exact .throw _ _
    | some l =>
      simp only [Option.map_some, List.getElem?_map, List.length_map]
      cases hc : l[j]? with
      | none => exact .throw _ _
      | some c =>
        have hmem : ∀ id ∈ c, p.Fresh id := fun id hid =>
          hls id (mem_flatten_flatten (List.mem_of_getElem? hl) (List.mem_of_getElem? hc) hid)
        refine .bind (repeats_overrideChain kind hmem table) ?_
        rintro ⟨c', table'⟩ hc'
        have hset : (ls.map (List.map (List.map p.shift))).set i
            ((l.map (List.map p.shift)).set j (c'.map p.shift)) =
            redirectLayers p.shift (ls.set i (l.set j c')) := by
          simp only [redirectLayers, List.map_set]
        simp only [Prod.map_apply, hset]
        refine ih ?_ table'
        intro id hid
        rcases mem_nodes_set hl hc hid with hid | hid
        · exact hc' id hid
        · exact hls id hid

/-- Overriding a network whose nodes the run added. -/
theorem repeats_override (hnet : p.FreshNetwork net) (ov : Overrides) :
    p.Repeats (·.moved p.shift) p.FreshNetwork (net.override (α := α) ov)
      ((net.moved p.shift).override ov) := by
  unfold override
  refine .bind (repeats_overrideChains ov.entries hnet Substitution.empty) ?_
  rintro ⟨ls, table⟩ hls
  simp only [Prod.map_apply, flatten_redirectLayers]
  exact .bind (repeats_redirectAll hls table) fun _ _ => repeats_new hls

end

end Replay

end PiecewiseNet
