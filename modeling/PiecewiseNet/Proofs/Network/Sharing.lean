import PiecewiseNet.Override
import PiecewiseNet.Proofs.Network.Copies

/-!
# Networks that agree up to a boundary

Up to a boundary layer, an altered network may be the same as its base, but on other nodes. The
nodes where the two agree are shared: in a join they give way to the nodes of the base.

## Main definitions

- `Network.Shared`: a node of the altered network lies where the two agree.
- `Network.AgreesBefore`: a base and an altered network agree up to a boundary.
- `Network.sharing`: from the shared nodes to those of the base.

## Main statements

- `Network.AgreesBefore.inputs_eq`: the inputs of the base.
- `Network.AgreesBefore.sharing_injOn`: distinct nodes are not confused.
-/

namespace PiecewiseNet

variable {α : Type}

namespace Network

variable {base altered : Network} {ov : Overrides} {boundary : Nat} {g : NodeId → NodeId}
  {a : Arena α} {id : NodeId}

/-- The node lies before the boundary, or in the boundary layer, where only the heads of overridden
neurons count. -/
def Shared (net : Network) (ov : Overrides) (boundary : Nat) (id : NodeId) : Prop :=
  ∃ l n c, chainAt net.layers l n = some c ∧ id ∈ c ∧
    (l < boundary ∨ l = boundary ∧ (ov.contains (l, n) = true → c.head? = some id))

/-- Up to a boundary, a base and an altered network on other nodes are the same. -/
structure AgreesBefore (base altered : Network) (ov : Overrides) (boundary : Nat)
    (g : NodeId → NodeId) (a : Arena α) : Prop where
  base_wellFormed : base.WellFormed a
  altered_wellFormed : altered.WellFormed a
  disjoint : ∀ id ∈ altered.nodes, id ∉ base.nodes
  length : altered.layers.length = base.layers.length
  size : altered.layerSize boundary = base.layerSize boundary
  /-- The layers before the boundary are the same. -/
  before : ∀ l n, l < boundary →
    chainAt base.layers l n = (chainAt altered.layers l n).map (List.map g)
  /-- The neurons of the boundary layer without an override are the same. -/
  kept : ∀ n, ov.contains (boundary, n) = false →
    chainAt base.layers boundary n = (chainAt altered.layers boundary n).map (List.map g)
  /-- The heads of the boundary layer are the same. -/
  heads : ∀ n c, chainAt altered.layers boundary n = some c →
    ∃ d, chainAt base.layers boundary n = some d ∧ d.head? = c.head?.map g
  /-- Distinct nodes have distinct counterparts. -/
  injOn : ∀ i, altered.Shared ov boundary i → ∀ j, altered.Shared ov boundary j → g i = g j → i = j
  /-- A shared node is the same as its counterpart. -/
  mirrors : ∀ id, altered.Shared ov boundary id → a.Mirrors a g id
  /-- Shared nodes read shared nodes. -/
  closed : ∀ id, altered.Shared ov boundary id → ∀ r, a.Reads id r → altered.Shared ov boundary r

/-- From the shared nodes to their counterparts in the base; other nodes stay. -/
noncomputable def sharing (altered : Network) (ov : Overrides) (boundary : Nat)
    (g : NodeId → NodeId) (id : NodeId) : NodeId :=
  open Classical in if altered.Shared ov boundary id then g id else id

theorem sharing_of_shared (h : altered.Shared ov boundary id) :
    altered.sharing ov boundary g id = g id :=
  if_pos h

theorem sharing_of_not_shared (h : ¬altered.Shared ov boundary id) :
    altered.sharing ov boundary g id = id :=
  if_neg h

theorem Shared.mem_nodes (h : altered.Shared ov boundary id) : id ∈ altered.nodes := by
  obtain ⟨l, n, c, hc, hid, -⟩ := h
  exact Network.mem_nodes hc hid

/-- Whether a node is shared is seen from its place. -/
theorem shared_iff (hnd : altered.nodes.Nodup) {l n : Nat} {c : Chain}
    (hc : chainAt altered.layers l n = some c) (hid : id ∈ c) :
    altered.Shared ov boundary id ↔
      l < boundary ∨ l = boundary ∧ (ov.contains (l, n) = true → c.head? = some id) := by
  constructor
  · rintro ⟨l', n', c', hc', hid', h⟩
    obtain ⟨rfl, rfl, rfl⟩ := place_unique hnd hc hc' hid hid'
    exact h
  · intro h
    exact ⟨l, n, c, hc, hid, h⟩

/-- Behind the head of an overridden neuron of the boundary layer nothing is shared. -/
theorem not_shared_of_mem_tail (hnd : altered.nodes.Nodup) {n : Nat} {h : NodeId} {t : Chain}
    (hc : chainAt altered.layers boundary n = some (h :: t))
    (hkey : ov.contains (boundary, n) = true) (hid : id ∈ t) : ¬altered.Shared ov boundary id := by
  rw [shared_iff hnd hc (List.mem_cons_of_mem _ hid)]
  rintro (hlt | ⟨-, hhead⟩)
  · exact absurd hlt (Nat.lt_irrefl _)
  · obtain rfl : h = id := Option.some.inj (hhead hkey)
    exact (List.nodup_cons.1 (nodup_chainAt hnd hc)).1 hid

/-- Behind the boundary nothing is shared. -/
theorem not_shared_of_lt (hnd : altered.nodes.Nodup) {l n : Nat} {c : Chain}
    (hc : chainAt altered.layers l n = some c) (hid : id ∈ c) (hl : boundary < l) :
    ¬altered.Shared ov boundary id := by
  rw [shared_iff hnd hc hid]
  omega

namespace AgreesBefore

variable (h : base.AgreesBefore altered ov boundary g a)

include h

/-- The counterpart of a shared node lies at the same place in the base. -/
theorem exists_chainAt_base {l n : Nat} {c : Chain} (hc : chainAt altered.layers l n = some c)
    (hid : id ∈ c) (hshared : altered.Shared ov boundary id) :
    ∃ d, chainAt base.layers l n = some d ∧ g id ∈ d := by
  rcases (shared_iff h.altered_wellFormed.nodup hc hid).1 hshared with hlt | ⟨rfl, hhead⟩
  · refine ⟨c.map g, ?_, List.mem_map_of_mem hid⟩
    rw [h.before l n hlt, hc, Option.map_some]
  · cases hkey : ov.contains (l, n) with
    | false =>
      refine ⟨c.map g, ?_, List.mem_map_of_mem hid⟩
      rw [h.kept n hkey, hc, Option.map_some]
    | true =>
      obtain ⟨d, hd, hfirst⟩ := h.heads n c hc
      rw [hhead hkey, Option.map_some] at hfirst
      exact ⟨d, hd, List.mem_of_head? hfirst⟩

theorem mem_base (hid : altered.Shared ov boundary id) : g id ∈ base.nodes := by
  obtain ⟨l, n, c, hc, hidc⟩ := mem_nodes_iff.1 hid.mem_nodes
  obtain ⟨d, hd, hmem⟩ := h.exists_chainAt_base hc hidc hid
  exact Network.mem_nodes hd hmem

/-- Up to the boundary the neurons of the base have the counterparts of the altered heads. -/
theorem head?_base {l : Nat} (hl : l ≤ boundary) (n : Nat) :
    (chainAt base.layers l n).map List.head? =
      (chainAt altered.layers l n).map fun c => c.head?.map (altered.sharing ov boundary g) := by
  have hhead : ∀ c, chainAt altered.layers l n = some c →
      c.head?.map (altered.sharing ov boundary g) = c.head?.map g := by
    intro c hc
    cases hfirst : c.head? with
    | none => rfl
    | some id =>
      have hshared : altered.Shared ov boundary id := by
        refine ⟨l, n, c, hc, List.mem_of_head? hfirst, ?_⟩
        rcases Nat.lt_or_ge l boundary with hlt | hge
        · exact .inl hlt
        · exact .inr ⟨by omega, fun _ => hfirst⟩
      rw [Option.map_some, Option.map_some, sharing_of_shared hshared]
  rcases Nat.lt_or_ge l boundary with hlt | hge
  · rw [h.before l n hlt]
    cases hc : chainAt altered.layers l n with
    | none => rfl
    | some c => rw [Option.map_some, Option.map_some, Option.map_some, List.head?_map, hhead c hc]
  · obtain rfl : l = boundary := by omega
    cases hc : chainAt altered.layers l n with
    | none =>
      cases hd : chainAt base.layers l n with
      | none => rfl
      | some d =>
        have hn := exists_chainAt_iff.1 ⟨d, hd⟩
        rw [← h.size] at hn
        obtain ⟨c, hc'⟩ := exists_chainAt_iff.2 hn
        rw [hc] at hc'
        cases hc'
    | some c =>
      obtain ⟨d, hd, hfirst⟩ := h.heads n c hc
      rw [hd, Option.map_some, Option.map_some, hhead c hc, hfirst]

/-- The inputs of the base are the counterparts of the altered inputs. -/
theorem inputs_eq : base.inputs = altered.inputs.map (altered.sharing ov boundary g) :=
  inputs_eq_map fun n => h.head?_base (Nat.zero_le _) n

theorem sharing_injOn : ∀ i ∈ altered.nodes, ∀ j ∈ altered.nodes,
    altered.sharing ov boundary g i = altered.sharing ov boundary g j → i = j := by
  intro i hi j hj hij
  by_cases hi' : altered.Shared ov boundary i <;> by_cases hj' : altered.Shared ov boundary j
  · rw [sharing_of_shared hi', sharing_of_shared hj'] at hij
    exact h.injOn i hi' j hj' hij
  · rw [sharing_of_shared hi', sharing_of_not_shared hj'] at hij
    exact absurd (hij ▸ h.mem_base hi') (h.disjoint j hj)
  · rw [sharing_of_not_shared hi', sharing_of_shared hj'] at hij
    exact absurd (hij ▸ h.mem_base hj') (h.disjoint i hi)
  · rwa [sharing_of_not_shared hi', sharing_of_not_shared hj'] at hij

/-! ### Neurons under sharing -/

theorem map_sharing_before {l n : Nat} (hl : l < boundary) :
    (chainAt altered.layers l n).map (List.map (altered.sharing ov boundary g)) =
      chainAt base.layers l n := by
  rw [h.before l n hl]
  cases hc : chainAt altered.layers l n with
  | none => rfl
  | some c =>
    refine congrArg some (List.map_congr_left fun id hid => ?_)
    exact sharing_of_shared ⟨l, n, c, hc, hid, .inl hl⟩

theorem map_sharing_kept {n : Nat} (hkey : ov.contains (boundary, n) = false) :
    (chainAt altered.layers boundary n).map (List.map (altered.sharing ov boundary g)) =
      chainAt base.layers boundary n := by
  rw [h.kept n hkey]
  cases hc : chainAt altered.layers boundary n with
  | none => rfl
  | some c =>
    refine congrArg some (List.map_congr_left fun id hid => ?_)
    refine sharing_of_shared ⟨boundary, n, c, hc, hid, .inr ⟨rfl, ?_⟩⟩
    rw [hkey]
    intro hfalse
    cases hfalse

theorem map_sharing_overridden {n : Nat} {i : NodeId} {t : Chain}
    (hkey : ov.contains (boundary, n) = true)
    (hc : chainAt altered.layers boundary n = some (i :: t)) :
    (i :: t).map (altered.sharing ov boundary g) = g i :: t := by
  have hi : altered.Shared ov boundary i :=
    ⟨boundary, n, i :: t, hc, List.mem_cons_self .., .inr ⟨rfl, fun _ => rfl⟩⟩
  have ht : t.map (altered.sharing ov boundary g) = t := by
    refine (List.map_congr_left ?_).trans (List.map_id _)
    intro id hid
    exact sharing_of_not_shared (not_shared_of_mem_tail h.altered_wellFormed.nodup hc hkey hid)
  rw [List.map_cons, ht, sharing_of_shared hi]

theorem map_sharing_after {l n : Nat} (hl : boundary < l) :
    (chainAt altered.layers l n).map (List.map (altered.sharing ov boundary g)) =
      chainAt altered.layers l n := by
  cases hc : chainAt altered.layers l n with
  | none => rfl
  | some c =>
    refine congrArg some ((List.map_congr_left fun id hid => ?_).trans (List.map_id c))
    exact sharing_of_not_shared (not_shared_of_lt h.altered_wellFormed.nodup hc hid hl)

end AgreesBefore

end Network

end PiecewiseNet
