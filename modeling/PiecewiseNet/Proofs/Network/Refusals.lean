import PiecewiseNet.Proofs.Network.Clipping
import PiecewiseNet.Proofs.Network.Joining
import PiecewiseNet.Proofs.Network.Reduction
import PiecewiseNet.Proofs.Refusals
import PiecewiseNet.StateCheck

/-!
# Refused changes to networks

A change to a network that passed its check, and a query about it, either succeeds or is refused
with a reason: no node is missing, no neuron is empty, and there is a last layer.

## Main definitions

- `Network.Filled`: no neuron is empty, and all nodes are in the arena.

## Main statements

- `Network.orderly_duplicateAndClip`, `Network.orderly_override`: changes to a network.
- `orderly_compareExact`, `orderly_compareMinimum`, `orderly_joinedQuery`, `orderly_stateCheck`:
  queries about networks.
-/

namespace PiecewiseNet

variable {α : Type}

namespace Network

variable {net : Network} {a : Arena α} {layers : List Layer} {c : Chain} {table : Substitution}

/-- No neuron is empty, and all nodes are in the arena. -/
def Filled (layers : List Layer) (a : Arena α) : Prop :=
  ∀ l n c, chainAt layers l n = some c → c ≠ [] ∧ ∀ id ∈ c, id < a.size

theorem WellFormed.filled (h : net.WellFormed a) : Filled net.layers a :=
  fun l n c hc => ⟨h.chains_ne_nil l n c hc, fun _ hid => h.held _ (mem_nodes hc hid)⟩

theorem Filled.held (h : Filled layers a) : ∀ id ∈ layers.flatten.flatten, id < a.size := by
  intro id hmem
  obtain ⟨l, n, c, hc, hid⟩ := (mem_nodes_iff : id ∈ nodes ⟨layers⟩ ↔ _).1 hmem
  exact (h l n c hc).2 id hid

/-- Building a network from the nodes of the arena, in which others are read first. -/
theorem orderly_rebuilt {ids : List NodeId} (hids : ∀ id ∈ ids, id < a.size)
    (table : Substitution) (layers : List Layer) :
    Edit.Orderly (do ids.forM (Edit.redirect table); Edit.reading (Network.new layers)) a
      fun net b => net = ⟨layers⟩ ∧ net.WellFormed b :=
  (Edit.orderly_redirectAll hids table).bind fun _ _ _ _ =>
    (Edit.Orderly.reading orderly_new).mono fun _ _ _ hnew => hnew.2 ▸ new_eq_ok_iff.1 hnew.1

/-! ## Copying and clipping -/

/-- A network that passed its check can be copied. -/
theorem orderly_duplicate (h : net.WellFormed a) (suffix : String) :
    (net.duplicate suffix).Orderly a fun net' b => net'.WellFormed b := by
  obtain ⟨net', b, hyields⟩ := exists_duplicate suffix h
  obtain ⟨f, -, -, hgrows, hwell⟩ := duplicate_yields hyields h.nodup h.held
  exact .of_yields hyields hgrows.size hwell

theorem orderly_severLayer {cut : Nat} {l : Layer} (h : ∀ id ∈ l.flatten, id < a.size) :
    (severLayer cut l table).Orderly a fun _ _ => True := by
  induction l generalizing a table with
  | nil => exact .pure trivial
  | cons c l ih =>
    rw [List.flatten_cons, List.forall_mem_append] at h
    unfold severLayer
    split
    · exact .throw fun m hm => by cases hm
    · rename_i boundary hcut
      refine (Edit.orderly_sever (h.1 _ (List.mem_of_getElem? hcut)) "_bdr").bind ?_
      intro input b hsize _
      refine (ih fun id hid => Nat.lt_of_lt_of_le (h.2 id hid) hsize).bind ?_
      exact fun _ _ _ _ => .pure trivial

theorem orderly_clip (h : net.WellFormed a) (r : ClipRange) :
    (net.clip r).Orderly a fun net' b => net'.WellFormed b := by
  unfold clip
  dsimp only
  split
  · exact .throw fun m hm => by cases hm
  · rename_i hlast
    split
    · exact .throw fun m hm => by cases hm
    · rename_i hfirst
      have hlength : (net.keptLayers r).length = _ :=
        length_keptLayers (Nat.not_lt.1 hfirst) (Nat.not_le.1 hlast)
      split
      · rename_i hkept
        rw [keptLayers, hkept] at hlength
        cases hlength
      · rename_i first rest hkept
        have hheld : ∀ id ∈ first.flatten, id < a.size := fun id hid =>
          h.held id (keptLayers_subset (r := r) hkept hid)
        refine (orderly_severLayer hheld).of_run.bind ?_
        rintro ⟨first', table⟩ b hsize ⟨hsever, -⟩
        refine (Edit.Orderly.ofExcept orderly_truncateLast).bind ?_
        rintro layers b - ⟨htruncate, rfl⟩
        have hsevered := severed_of_yields h.nodup h.held hkept hsever htruncate
        have hlayers : ∀ id ∈ layers.flatten.flatten, id < b.size := by
          intro id hid
          obtain ⟨n, hn⟩ := Option.isSome_iff_exists.1 (hsevered.held h.held id hid)
          exact Arena.lt_size_of_get? hn
        exact (orderly_rebuilt hlayers table layers).mono fun net' d _ hnew => hnew.2

/-- A range of a network that passed its check is cut out of a copy, or refused. -/
theorem orderly_duplicateAndClip (h : net.WellFormed a) (r : ClipRange) (suffix : String) :
    (net.duplicateAndClip r suffix).Orderly a fun net' b => net'.WellFormed b := by
  unfold duplicateAndClip
  dsimp only
  split
  · exact .throw fun m hm => by cases hm
  · exact (orderly_duplicate h suffix).bind fun copy b _ hcopy => orderly_clip hcopy r

/-! ## Overriding -/

section

variable [Scalar α]

/-- Any neuron with nodes of the arena can be overridden. -/
theorem orderly_overrideChain (kind : OverrideKind) (table : Substitution) (hne : c ≠ [])
    (hheld : ∀ id ∈ c, id < a.size) :
    (overrideChain kind c table).Orderly a fun p b => p.1 ≠ [] ∧ ∀ id ∈ p.1, id < b.size := by
  obtain ⟨⟨c', table'⟩, b, hyields⟩ := exists_overrideChain kind table hne hheld
  obtain ⟨head, tail, d, hhead, htail, hreplaced, -, hsize, -⟩ := overrideChain_steps hyields
  have hheadlt : head < a.size := hheld head (List.mem_of_head? hhead)
  obtain ⟨n, hn⟩ := Arena.exists_get? (hheld tail (List.mem_of_getLast? htail))
  rcases replacement_yields hreplaced hn with ⟨-, rfl, rfl⟩ | ⟨bounds, -, rfl, rfl⟩
  · refine .of_yields hyields (Nat.le_of_eq hsize.symm) ⟨by simp, ?_⟩
    simpa [hsize] using hheadlt
  · rw [Arena.size_push] at hsize
    refine .of_yields hyields (hsize ▸ Nat.le_succ _) ⟨by simp, ?_⟩
    simpa [hsize] using Nat.lt_succ_of_lt hheadlt

omit [Scalar α] in
theorem Filled.set {b : Arena α} {layer : Layer} {l n : Nat} {c' : Chain} (h : Filled layers a)
    (hl : layers[l]? = some layer) (hn : layer[n]? = some c') (hsize : a.size ≤ b.size)
    (hc : c ≠ [] ∧ ∀ id ∈ c, id < b.size) : Filled (layers.set l (layer.set n c)) b := by
  intro l' n' d hd
  rcases chainAt_set_cases hl hn hd with ⟨-, rfl⟩ | ⟨-, hd⟩
  · exact hc
  · obtain ⟨hne, hheld⟩ := h l' n' d hd
    exact ⟨hne, fun id hid => Nat.lt_of_lt_of_le (hheld id hid) hsize⟩

theorem orderly_overrideChains {es : List ((Nat × Nat) × OverrideKind)} (h : Filled layers a) :
    (overrideChains es layers table).Orderly a fun p b => Filled p.1 b := by
  induction es generalizing layers a table with
  | nil => exact .pure h
  | cons e es ih =>
    obtain ⟨⟨l, n⟩, kind⟩ := e
    unfold overrideChains
    split
    · exact .throw fun m hm => by cases hm
    · rename_i layer hl
      split
      · exact .throw fun m hm => by cases hm
      · rename_i c hn
        obtain ⟨hne, hheld⟩ := h l n c (chainAt_eq_some_iff.2 ⟨layer, hl, hn⟩)
        refine (orderly_overrideChain kind table hne hheld).bind ?_
        rintro ⟨c', table'⟩ b hsize hc'
        exact ih (h.set hl hn hsize hc')

/-- Overrides of a network that passed its check are applied, or refused. -/
theorem orderly_override (h : net.WellFormed a) (ov : Overrides) :
    (net.override ov).Orderly a fun net' b => net'.WellFormed b := by
  refine (orderly_overrideChains h.filled).bind ?_
  rintro ⟨layers, table⟩ b - hfilled
  exact (orderly_rebuilt hfilled.held table layers).mono fun net' c _ hnew => hnew.2

end

/-! ## Outputs -/

theorem orderly_layer {l : Nat} : Orderly (net.layer (α := α) l) := by
  unfold layer
  split <;> simp

theorem orderly_chain {l n : Nat} : Orderly (net.chain (α := α) l n) := by
  refine orderly_layer.bind fun layer _ => ?_
  split <;> simp

/-- A network with a layer keeps some of its outputs, or is refused. -/
theorem orderly_keepOutputs (hne : net.layers ≠ []) (is : List Nat) :
    Orderly (net.keepOutputs is a) := by
  unfold keepOutputs
  split
  · rename_i hlast
    exact absurd (List.getLast?_eq_none_iff.1 hlast) hne
  · split
    · rename_i h
      exact orderly_pickChains.pass h
    · exact orderly_new

/-- Every output neuron that is not empty has a tail. -/
theorem WellFormed.orderly_output (h : net.WellFormed a) (i : Nat) :
    Orderly (net.output (α := α) i) := by
  refine orderly_layer.bind fun layer hlayer => ?_
  split
  · simp
  · rename_i c hc
    split
    · exact .ok _
    · rename_i hlast
      have hat : net.layers[net.layerCount - 1]? = some layer := by
        unfold Network.layer at hlayer
        split at hlayer <;> simp_all
      exact absurd (List.getLast?_eq_none_iff.1 hlast)
        (h.chains_ne_nil _ i c (chainAt_eq_some_iff.2 ⟨layer, hat, hc⟩))

theorem orderly_reading_keepOutputs (hne : net.layers ≠ []) (is : List Nat) :
    (Edit.reading (net.keepOutputs is)).Orderly a fun net' b => net'.WellFormed b :=
  (Edit.Orderly.reading (orderly_keepOutputs hne is)).mono fun net' b _ hkept => by
    obtain ⟨-, cs, -, -, hwell⟩ := keepOutputs_eq_ok_iff.1 hkept.1
    exact hkept.2 ▸ hwell

end Network

open Network

/-! ## Joining -/

variable {a : Arena α} {base altered : Network} {ov : Overrides}

/-- Neurons that are not empty can be spliced. -/
theorem orderly_spliceChains {isOverridden : Nat → Bool} {i : Nat} {pairs : List (Chain × Chain)}
    {table : Substitution} (h : ∀ p ∈ pairs, p.1 ≠ [] ∧ p.2 ≠ []) :
    Orderly (spliceChains (α := α) isOverridden i pairs table) := by
  induction pairs generalizing i table with
  | nil => exact .ok _
  | cons p pairs ih =>
    obtain ⟨hp, hpairs⟩ := List.forall_mem_cons.1 h
    obtain ⟨_ | ⟨b, bs⟩, _ | ⟨c, cs⟩⟩ := p
    · exact absurd rfl hp.1
    · exact absurd rfl hp.1
    · exact absurd rfl hp.2
    · rw [spliceChains]
      split
      · split
        · rename_i herror
          exact (ih hpairs).pass herror
        · exact .ok _
      · dsimp only
        split
        · rename_i herror
          exact (ih hpairs).pass herror
        · exact .ok _

/-- Networks that passed their checks are joined, or the join is refused. -/
theorem orderly_join (hbase : base.WellFormed a) (haltered : altered.WellFormed a) :
    (join base altered ov).Orderly a fun j b => j.base = base ∧ j.altered.WellFormed b := by
  unfold join
  split
  · exact .throw fun m hm => by cases hm
  · rename_i boundary i kind _
    split
    · exact .throw fun m hm => by cases hm
    · split
      · exact .throw fun m hm => by cases hm
      · have hmem : ∀ p ∈ base.boundaryPairs altered boundary, ∃ n,
            chainAt base.layers boundary n = some p.1 ∧
              chainAt altered.layers boundary n = some p.2 := by
          intro p hp
          obtain ⟨n, hn⟩ := List.mem_iff_getElem?.1 hp
          exact ⟨n, getElem?_boundaryPairs.1 hn⟩
        have hpairs : ∀ p ∈ base.boundaryPairs altered boundary, p.1 ≠ [] ∧ p.2 ≠ [] := by
          intro p hp
          obtain ⟨n, hd, hc⟩ := hmem p hp
          exact ⟨hbase.chains_ne_nil _ n _ hd, haltered.chains_ne_nil _ n _ hc⟩
        refine (Edit.Orderly.ofExcept (orderly_spliceChains hpairs)).bind ?_
        rintro s a - ⟨hs, rfl⟩
        have hstay : ∀ id ∈ altered.staying boundary s, id < a.size := by
          intro id hid
          refine haltered.held id ?_
          rcases List.mem_append.1 hid with hid | hid
          · obtain ⟨p, hp, hid⟩ := (mem_of_spliceChains hs).2 id hid
            obtain ⟨n, -, hc⟩ := hmem p hp
            exact mem_nodes hc hid
          · obtain ⟨l, n, c, -, hc, hid⟩ := mem_tailNodes_iff.1 hid
            exact mem_nodes hc hid
        refine (Edit.orderly_redirectAll hstay s.table).bind fun _ b _ _ => ?_
        refine (Edit.Orderly.reading orderly_new).bind ?_
        rintro net _ - ⟨hnew, rfl⟩
        exact .pure ⟨rfl, (new_eq_ok_iff.1 hnew).2⟩

/-! ## Queries -/

theorem orderly_finished (q : Query α) : (finished q).Orderly a fun _ _ => True :=
  (Edit.Orderly.reading Query.orderly_checkIntegrity).bind fun _ _ _ _ => .pure trivial

theorem orderly_newQuery (nodes inputs outputs : List NodeId) (es : List (Equation α)) :
    Edit.Orderly (do finished (← Edit.ofExcept (Query.new nodes inputs outputs es))) a
      fun _ _ => True :=
  (Edit.Orderly.ofExcept Query.orderly_new).bind fun q _ _ _ => orderly_finished q

theorem orderly_joinedQuery (hbase : base.WellFormed a) (haltered : altered.WellFormed a) :
    (joinedQuery base altered ov).Orderly a fun _ _ => True :=
  (orderly_join hbase haltered).bind fun _ _ _ _ => orderly_newQuery _ _ _ _

variable [Scalar α]

theorem orderly_compareExact (hbase : base.WellFormed a) (haltered : altered.WellFormed a)
    (d : Direction) (i : Nat) (margin : α) :
    (compareExact base altered ov d i margin).Orderly a fun _ _ => True := by
  refine (orderly_join hbase haltered).bind ?_
  rintro ⟨_, joined, boundary⟩ b - ⟨rfl, hjoined⟩
  refine (orderly_reading_keepOutputs hbase.layers_ne_nil [i]).bind fun kept c _ hkept => ?_
  refine (orderly_reading_keepOutputs hjoined.layers_ne_nil [i]).bind fun kept' c' _ hkept' => ?_
  refine (Edit.Orderly.ofExcept (hkept.orderly_output 0)).bind fun o _ _ _ => ?_
  refine (Edit.Orderly.ofExcept (hkept'.orderly_output 0)).bind fun m _ _ _ => ?_
  exact orderly_newQuery _ _ _ _

theorem orderly_compareMinimum (hbase : base.WellFormed a) (haltered : altered.WellFormed a)
    (i counter : Nat) (margin : α) :
    (compareMinimum base altered ov i counter margin).Orderly a fun _ _ => True := by
  unfold compareMinimum
  split
  · exact .throw fun m hm => by cases hm
  · refine (orderly_join hbase haltered).bind ?_
    rintro ⟨_, joined, boundary⟩ b - ⟨rfl, hjoined⟩
    refine (Edit.Orderly.ofExcept (hbase.orderly_output i)).bind fun winner c _ _ => ?_
    refine (orderly_reading_keepOutputs hjoined.layers_ne_nil [i, counter]).bind
      fun kept d _ hkept => ?_
    refine (Edit.Orderly.ofExcept (hkept.orderly_output 0)).bind fun loser _ _ _ => ?_
    refine (Edit.Orderly.ofExcept (hkept.orderly_output 1)).bind fun rival _ _ _ => ?_
    exact orderly_newQuery _ _ _ _

theorem orderly_stateCheck {net : Network} (hnet : net.WellFormed a) (neuron : Nat) (phase : Phase)
    (strict : Bool) (margin : α) : Orderly (stateCheck net neuron phase strict margin a) := by
  refine (orderly_keepOutputs hnet.layers_ne_nil [neuron]).bind fun kept _ => ?_
  refine orderly_chain.bind fun c _ => ?_
  split
  · refine Query.orderly_new.bind fun q _ => ?_
    exact Query.orderly_checkIntegrity.bind fun _ _ => .ok _
  · simp

end PiecewiseNet
