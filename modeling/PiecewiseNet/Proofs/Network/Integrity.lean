import PiecewiseNet.Proofs.Dependence
import PiecewiseNet.Proofs.Network.Places

/-!
# Integrity of networks

What the integrity check of a network establishes.

## Main definitions

- `Network.WellFormed`: what the check asks for.
- `Network.ReadsFrom`: nodes read their own neuron and layers that are near to their own.

## Main statements

- `Network.accepted_iff`: a network is accepted exactly when it is well-formed.
- `Network.WellFormed.induction`: a property that passes from what a node reads to the node holds
  of all nodes.
- `Network.WellFormed.reads_from`: a node reads its own neuron up to itself, and otherwise layers
  near to its own.
- `Network.WellFormed.reads_before`, `Network.wellFormed_of_reads_before`: a network is well-formed
  when its nodes read what is listed before them.
-/

namespace PiecewiseNet

namespace Network

variable {α : Type} {net : Network} {a : Arena α} {id : NodeId}

/-- There is a layer and no neuron is empty; every node is in the arena and listed once, and reads
nodes listed before it. -/
structure WellFormed (net : Network) (a : Arena α) : Prop where
  layers_ne_nil : net.layers ≠ []
  chains_ne_nil : ∀ l n c, chainAt net.layers l n = some c → c ≠ []
  /-- The nodes are in the arena. -/
  held : ∀ id ∈ net.nodes, id < a.size
  nodup : net.nodes.Nodup
  /-- What the nodes read are nodes of the network. -/
  closed : ∀ id ∈ net.nodes, ∀ r, a.Reads id r → r ∈ net.nodes
  irrefl : ∀ id ∈ net.nodes, ¬a.Reads id id
  /-- No node reads one that is listed behind it. -/
  ordered : net.nodes.Pairwise fun x y => ¬a.Reads x y

/-- A node reads its own neuron, and otherwise layers that are near to its own. -/
def ReadsFrom (near : Nat → Nat → Prop) (net : Network) (a : Arena α) : Prop :=
  ∀ layer c id, net.Lies layer c id → ∀ target ∈ references a id,
    target ∈ c ∨ ∃ earlier d, near earlier layer ∧ net.Lies earlier d target

theorem readsEarlier_iff : net.ReadsEarlier a ↔ net.ReadsFrom (· < ·) a := Iff.rfl

theorem readsPrevious_iff : net.ReadsPrevious a ↔ net.ReadsFrom (fun e l => e + 1 = l) a := Iff.rfl

/-! ## The check -/

theorem checkChain_eq_ok_iff {seen seen' : List NodeId} {c : Chain} :
    checkChain a seen c = .ok seen' ↔
      (∀ id ∈ c, id < a.size) ∧ c.Nodup ∧ (∀ id ∈ c, id ∉ seen) ∧ seen' = c.reverse ++ seen := by
  induction c generalizing seen with
  | nil => simp [checkChain, eq_comm]
  | cons id c ih =>
    unfold checkChain
    by_cases hheld : id < a.size
    · by_cases hseen : id ∈ seen
      · simp [Arena.holds, hheld, hseen]
      · simp only [Arena.holds, hheld, decide_true, Bool.not_true, Bool.false_eq_true, if_false,
          List.contains_iff_mem, hseen, ih, List.mem_cons, forall_eq_or_imp, List.nodup_cons,
          List.reverse_cons, List.append_assoc, List.singleton_append, not_or, true_and,
          not_false_eq_true]
        constructor
        · rintro ⟨hc, hnd, hnew, rfl⟩
          exact ⟨hc, ⟨fun hid => (hnew id hid).1 rfl, hnd⟩, fun j hj => (hnew j hj).2, rfl⟩
        · rintro ⟨hc, ⟨hid, hnd⟩, hnew, rfl⟩
          exact ⟨hc, hnd, fun j hj => ⟨fun hji => hid (hji ▸ hj), hnew j hj⟩, rfl⟩
    · simp [Arena.holds, hheld]

theorem checkLayer_eq_ok_iff {layer neuron : Nat} {seen seen' : List NodeId} {l : Layer} :
    checkLayer a layer neuron seen l = .ok seen' ↔
      (∀ c ∈ l, c ≠ []) ∧ (∀ id ∈ l.flatten, id < a.size) ∧ l.flatten.Nodup ∧
        (∀ id ∈ l.flatten, id ∉ seen) ∧ seen' = l.flatten.reverse ++ seen := by
  induction l generalizing neuron seen with
  | nil => simp [checkLayer, eq_comm]
  | cons c l ih =>
    unfold checkLayer
    by_cases hne : c = []
    · simp [hne]
    · rw [if_neg (by simpa using hne)]
      simp only [List.flatten_cons, List.forall_mem_cons, List.forall_mem_append,
        List.nodup_append, List.reverse_append, List.append_assoc]
      cases hc : checkChain a seen c with
      | error e =>
        constructor
        · intro h
          cases h
        · rintro ⟨-, ⟨hheld, -⟩, ⟨hnd, -⟩, ⟨hnew, -⟩, -⟩
          rw [checkChain_eq_ok_iff.2 ⟨hheld, hnd, hnew, rfl⟩] at hc
          cases hc
      | ok seen₁ =>
        obtain ⟨hheld, hnd, hnew, rfl⟩ := checkChain_eq_ok_iff.1 hc
        simp only [ih, List.mem_append, List.mem_reverse, not_or]
        constructor
        · rintro ⟨hchains, hheld', hnd', hnew', rfl⟩
          exact ⟨⟨hne, hchains⟩, ⟨hheld, hheld'⟩,
            ⟨hnd, hnd', fun x hx y hy hxy => (hnew' y hy).1 (hxy ▸ hx)⟩,
            ⟨hnew, fun j hj => (hnew' j hj).2⟩, rfl⟩
        · rintro ⟨⟨-, hchains⟩, ⟨-, hheld'⟩, ⟨-, hnd', hdisj⟩, ⟨-, hnew'⟩, rfl⟩
          exact ⟨hchains, hheld', hnd', fun j hj => ⟨fun hjc => hdisj j hjc j hj rfl, hnew' j hj⟩,
            rfl⟩

theorem checkLayers_eq_ok_iff {layer : Nat} {seen seen' : List NodeId} {ls : List Layer} :
    checkLayers a layer seen ls = .ok seen' ↔
      (∀ l ∈ ls, ∀ c ∈ l, c ≠ []) ∧ (∀ id ∈ ls.flatten.flatten, id < a.size) ∧
        ls.flatten.flatten.Nodup ∧ (∀ id ∈ ls.flatten.flatten, id ∉ seen) ∧
        seen' = ls.flatten.flatten.reverse ++ seen := by
  induction ls generalizing layer seen with
  | nil => simp [checkLayers, eq_comm]
  | cons l ls ih =>
    unfold checkLayers
    simp only [List.flatten_cons, List.flatten_append, List.forall_mem_cons,
      List.forall_mem_append, List.nodup_append, List.reverse_append, List.append_assoc]
    cases hl : checkLayer a layer 0 seen l with
    | error e =>
      constructor
      · intro h
        cases h
      · rintro ⟨⟨hchains, -⟩, ⟨hheld, -⟩, ⟨hnd, -⟩, ⟨hnew, -⟩, -⟩
        rw [checkLayer_eq_ok_iff.2 ⟨hchains, hheld, hnd, hnew, rfl⟩] at hl
        cases hl
    | ok seen₁ =>
      obtain ⟨hchains, hheld, hnd, hnew, rfl⟩ := checkLayer_eq_ok_iff.1 hl
      simp only [ih, List.mem_append, List.mem_reverse, not_or]
      constructor
      · rintro ⟨hchains', hheld', hnd', hnew', rfl⟩
        exact ⟨⟨hchains, hchains'⟩, ⟨hheld, hheld'⟩,
          ⟨hnd, hnd', fun x hx y hy hxy => (hnew' y hy).1 (hxy ▸ hx)⟩,
          ⟨hnew, fun j hj => (hnew' j hj).2⟩, rfl⟩
      · rintro ⟨⟨-, hchains'⟩, ⟨-, hheld'⟩, ⟨-, hnd', hdisj⟩, ⟨-, hnew'⟩, rfl⟩
        exact ⟨hchains', hheld', hnd', fun j hj => ⟨fun hjc => hdisj j hjc j hj rfl, hnew' j hj⟩,
          rfl⟩

theorem checkTargets_eq_ok_iff {all earlier targets : List NodeId} :
    checkTargets a all earlier id targets = .ok () ↔ targets ⊆ earlier := by
  induction targets with
  | nil => simp [checkTargets]
  | cons target targets ih =>
    unfold checkTargets
    rw [List.cons_subset]
    by_cases hmem : target ∈ earlier
    · simp [hmem, ih]
    · by_cases hall : target ∈ all <;> simp [hmem, hall]

/-- The nodes read what was there before, or nodes listed before them. -/
theorem checkOrder_eq_ok_iff {all earlier ids : List NodeId} :
    checkOrder a all earlier ids = .ok () ↔
      ∀ pre id post, ids = pre ++ id :: post → ∀ r, a.Reads id r → r ∈ earlier ∨ r ∈ pre := by
  induction ids generalizing earlier with
  | nil => simp [checkOrder]
  | cons id ids ih =>
    unfold checkOrder
    rw [← references]
    cases ht : checkTargets a all earlier id (references a id) with
    | error e =>
      constructor
      · intro h
        cases h
      · intro h
        have hsub : references a id ⊆ earlier := by
          intro r hr
          simpa using h [] id ids rfl r hr
        rw [checkTargets_eq_ok_iff.2 hsub] at ht
        cases ht
    | ok u =>
      have hsub := checkTargets_eq_ok_iff.1 ht
      simp only [ih]
      constructor
      · intro h pre j post hsplit r hr
        cases pre with
        | nil =>
          obtain ⟨rfl, rfl⟩ := List.cons.inj hsplit
          exact .inl (hsub hr)
        | cons i pre =>
          obtain ⟨rfl, rfl⟩ := List.cons.inj hsplit
          have := h pre j post rfl r hr
          simp only [List.mem_cons] at this ⊢
          tauto
      · rintro h pre j post rfl r hr
        have := h (id :: pre) j post rfl r hr
        simp only [List.mem_cons] at this ⊢
        tauto

/-- A relation holds along a list when every element has it to those behind it. -/
theorem pairwise_of_split {r : NodeId → NodeId → Prop} {ids : List NodeId}
    (h : ∀ pre x post, ids = pre ++ x :: post → ∀ y ∈ post, r x y) : ids.Pairwise r := by
  induction ids with
  | nil => exact .nil
  | cons id ids ih =>
    refine .cons (h [] id ids rfl) (ih ?_)
    rintro pre x post rfl
    exact h (id :: pre) x post rfl

/-- Nodes that are listed once read earlier ones only exactly when what they read is listed, and is
neither the node itself nor a later one. -/
theorem reads_before_iff {ids : List NodeId} (hnd : ids.Nodup) :
    (∀ pre id post, ids = pre ++ id :: post → ∀ r, a.Reads id r → r ∈ pre) ↔
      (∀ id ∈ ids, ∀ r, a.Reads id r → r ∈ ids) ∧ (∀ id ∈ ids, ¬a.Reads id id) ∧
        ids.Pairwise fun x y => ¬a.Reads x y := by
  constructor
  · intro h
    refine ⟨?_, ?_, ?_⟩
    · intro id hid r hr
      obtain ⟨pre, post, rfl⟩ := List.append_of_mem hid
      exact List.mem_append_left _ (h pre id post rfl r hr)
    · intro id hid hself
      obtain ⟨pre, post, rfl⟩ := List.append_of_mem hid
      have hpre := h pre id post rfl id hself
      exact (List.nodup_append.1 hnd).2.2 id hpre id (List.mem_cons_self ..) rfl
    · refine pairwise_of_split ?_
      rintro pre x post rfl y hy hread
      exact (List.nodup_append.1 hnd).2.2 y (h pre x post rfl y hread) y
        (List.mem_cons_of_mem _ hy) rfl
  · rintro ⟨hclosed, hirrefl, hpair⟩ pre id post rfl r hr
    rcases List.mem_append.1 (hclosed id (by simp) r hr) with hpre | hpost
    · exact hpre
    · rcases List.mem_cons.1 hpost with rfl | hpost
      · exact absurd hr (hirrefl r (by simp))
      · have := (List.pairwise_append.1 hpair).2.1
        exact absurd hr ((List.pairwise_cons.1 this).1 r hpost)

theorem checkIntegrity_eq_ok_iff :
    net.checkIntegrity a = .ok () ↔
      net.layers ≠ [] ∧ (∀ l ∈ net.layers, ∀ c ∈ l, c ≠ []) ∧ (∀ id ∈ net.nodes, id < a.size) ∧
        net.nodes.Nodup ∧
        ∀ pre id post, net.nodes = pre ++ id :: post → ∀ r, a.Reads id r → r ∈ pre := by
  unfold checkIntegrity
  by_cases hne : net.layers = []
  · simp [hne]
  · rw [if_neg (by simpa using hne)]
    cases hl : checkLayers a 0 [] net.layers with
    | error e =>
      constructor
      · intro h
        cases h
      · rintro ⟨-, hchains, hheld, hnd, -⟩
        rw [checkLayers_eq_ok_iff.2 ⟨hchains, hheld, hnd, by simp, rfl⟩] at hl
        cases hl
    | ok seen =>
      obtain ⟨hchains, hheld, hnd, -, -⟩ := checkLayers_eq_ok_iff.1 hl
      simp only [checkOrder_eq_ok_iff, List.not_mem_nil, false_or]
      exact ⟨fun h => ⟨hne, hchains, hheld, hnd, h⟩, fun h => h.2.2.2.2⟩

/-- A network is accepted exactly when it is well-formed. -/
theorem accepted_iff : net.Accepted a ↔ net.WellFormed a := by
  have hchains : (∀ l ∈ net.layers, ∀ c ∈ l, c ≠ []) ↔
      ∀ l n c, chainAt net.layers l n = some c → c ≠ [] := by
    simp only [chainAt_eq_some_iff]
    constructor
    · rintro h l n c ⟨layer, hl, hn⟩
      exact h layer (List.mem_of_getElem? hl) c (List.mem_of_getElem? hn)
    · intro h layer hlayer c hc
      obtain ⟨l, hl⟩ := List.mem_iff_getElem?.1 hlayer
      obtain ⟨n, hn⟩ := List.mem_iff_getElem?.1 hc
      exact h l n c ⟨layer, hl, hn⟩
  rw [Accepted, checkIntegrity_eq_ok_iff, hchains]
  constructor
  · rintro ⟨hne, hc, hheld, hnd, hreads⟩
    obtain ⟨hclosed, hirrefl, hpair⟩ := (reads_before_iff hnd).1 hreads
    exact ⟨hne, hc, hheld, hnd, hclosed, hirrefl, hpair⟩
  · rintro ⟨hne, hc, hheld, hnd, hclosed, hirrefl, hpair⟩
    exact ⟨hne, hc, hheld, hnd, (reads_before_iff hnd).2 ⟨hclosed, hirrefl, hpair⟩⟩

/-- A network that was built has the given layers and is well-formed. -/
theorem new_eq_ok_iff {layers : List Layer} :
    Network.new layers a = .ok net ↔ net = ⟨layers⟩ ∧ net.WellFormed a := by
  rw [← accepted_iff, Accepted, Network.new]
  cases h : (⟨layers⟩ : Network).checkIntegrity a with
  | error e =>
    constructor
    · intro hok
      cases hok
    · rintro ⟨rfl, hok⟩
      rw [h] at hok
      cases hok
  | ok u =>
    constructor
    · intro hok
      cases hok
      exact ⟨rfl, h⟩
    · rintro ⟨rfl, -⟩
      rfl

/-- Only the nodes of a network matter. -/
theorem WellFormed.of_get?_eq {b : Arena α} (h : net.WellFormed a)
    (hget : ∀ id ∈ net.nodes, b.get? id = a.get? id) : net.WellFormed b := by
  refine ⟨h.layers_ne_nil, h.chains_ne_nil, ?_, h.nodup, ?_, ?_, ?_⟩
  · intro id hid
    obtain ⟨n, hn⟩ := Arena.exists_get? (h.held id hid)
    exact Arena.lt_size_of_get? ((hget id hid).trans hn)
  · intro id hid r hr
    exact h.closed id hid r ((Arena.reads_congr (hget id hid)).1 hr)
  · intro id hid hself
    exact h.irrefl id hid ((Arena.reads_congr (hget id hid)).1 hself)
  · refine h.ordered.imp_of_mem ?_
    intro x y hx _ hxy hread
    exact hxy ((Arena.reads_congr (hget x hx)).1 hread)

theorem ReadsFrom.of_get?_eq {near : Nat → Nat → Prop} {b : Arena α}
    (h : net.ReadsFrom near a) (hget : ∀ id ∈ net.nodes, b.get? id = a.get? id) :
    net.ReadsFrom near b := by
  intro l c id hid t ht
  obtain ⟨n, hc, hidc⟩ := lies_iff.1 hid
  exact h l c id hid t ((Arena.reads_congr (hget id (mem_nodes hc hidc))).1 ht)

/-! ## Along the nodes -/

/-- A property that passes from what a node reads to the node holds of all nodes. -/
theorem WellFormed.induction (h : net.WellFormed a) {p : NodeId → Prop}
    (hstep : ∀ id ∈ net.nodes, (∀ r, a.Reads id r → p r) → p id) : ∀ id ∈ net.nodes, p id := by
  have hbefore := (reads_before_iff h.nodup).2 ⟨h.closed, h.irrefl, h.ordered⟩
  -- By strong induction on the number of nodes before.
  have hmain : ∀ k pre id post, pre.length = k → net.nodes = pre ++ id :: post → p id := by
    intro k
    induction k using Nat.strongRecOn with
    | ind k ih =>
      intro pre id post hlen hsplit
      refine hstep id (by simp [hsplit]) ?_
      intro r hr
      obtain ⟨pre₁, pre₂, rfl⟩ := List.append_of_mem (hbefore pre id post hsplit r hr)
      refine ih pre₁.length ?_ pre₁ r (pre₂ ++ id :: post) rfl ?_
      · rw [← hlen]
        simp
      · rw [hsplit, List.append_assoc, List.cons_append]
  intro id hid
  obtain ⟨pre, post, hsplit⟩ := List.append_of_mem hid
  exact hmain pre.length pre id post rfl hsplit

/-- A node reads nodes whose first position in the list is smaller than its own. -/
theorem WellFormed.idxOf_lt (h : net.WellFormed a) {r : NodeId} (hid : id ∈ net.nodes)
    (hr : a.Reads id r) : List.idxOf r net.nodes < List.idxOf id net.nodes := by
  obtain ⟨pre, post, hsplit⟩ := List.append_of_mem hid
  have hpre := (reads_before_iff h.nodup).2 ⟨h.closed, h.irrefl, h.ordered⟩ pre id post hsplit r hr
  have hnot : id ∉ pre := by
    have hnd := h.nodup
    rw [hsplit] at hnd
    exact fun hmem => (List.nodup_append.1 hnd).2.2 id hmem id (List.mem_cons_self ..) rfl
  rw [hsplit, List.idxOf_append_of_mem hpre, List.idxOf_append_of_notMem hnot,
    List.idxOf_cons_self]
  exact Nat.lt_of_lt_of_le (List.idxOf_lt_length_of_mem hpre) (Nat.le_add_right _ _)

/-- Of its own neuron a node reads nodes before itself. -/
theorem WellFormed.reads_own (h : net.WellFormed a) {l n : Nat} {pre post : Chain} {id r : NodeId}
    (hc : chainAt net.layers l n = some (pre ++ id :: post)) (hr : a.Reads id r)
    (hown : r ∈ pre ++ id :: post) : r ∈ pre := by
  have hpair := (pairwise_nodes_iff.1 h.ordered).1 l n _ hc
  rcases List.mem_append.1 hown with hpre | hpost
  · exact hpre
  · rcases List.mem_cons.1 hpost with rfl | hpost
    · exact absurd hr (h.irrefl r (mem_nodes hc (by simp)))
    · exact absurd hr ((List.pairwise_cons.1 (List.pairwise_append.1 hpair).2.1).1 r hpost)

/-- A node reads its own neuron up to itself, and otherwise layers near to its own. -/
theorem WellFormed.reads_from (h : net.WellFormed a) {near : Nat → Nat → Prop}
    (hf : net.ReadsFrom near a) {l n : Nat} {pre post : Chain} {id r : NodeId}
    (hc : chainAt net.layers l n = some (pre ++ id :: post)) (hr : a.Reads id r) :
    r ∈ pre ∨ ∃ l' n' c', near l' l ∧ chainAt net.layers l' n' = some c' ∧ r ∈ c' := by
  rcases hf l _ id (lies_iff.2 ⟨n, hc, by simp⟩) r hr with hown | ⟨l', c', hl', hlies⟩
  · exact .inl (h.reads_own hc hr hown)
  · obtain ⟨n', hc', hid'⟩ := lies_iff.1 hlies
    exact .inr ⟨l', n', c', hl', hc', hid'⟩

/-- A node reads its own neuron up to itself, and otherwise neurons that are listed before it. -/
theorem WellFormed.reads_before (h : net.WellFormed a) {l n : Nat} {pre post : Chain}
    {id r : NodeId} (hc : chainAt net.layers l n = some (pre ++ id :: post)) (hr : a.Reads id r) :
    r ∈ pre ∨ ∃ l' n' c', (l' < l ∨ l' = l ∧ n' < n) ∧ chainAt net.layers l' n' = some c' ∧
      r ∈ c' := by
  obtain ⟨l', n', c', hc', hr'⟩ := mem_nodes_iff.1 (h.closed id (mem_nodes hc (by simp)) r hr)
  rcases Nat.lt_trichotomy l' l with hlt | rfl | hgt
  · exact .inr ⟨l', n', c', .inl hlt, hc', hr'⟩
  · rcases Nat.lt_trichotomy n' n with hlt | rfl | hgt
    · exact .inr ⟨l', n', c', .inr ⟨rfl, hlt⟩, hc', hr'⟩
    · obtain rfl := Option.some.inj (hc.symm.trans hc')
      exact .inl (h.reads_own hc hr hr')
    · exact absurd hr ((pairwise_nodes_iff.1 h.ordered).2 l' n _ l' n' c' hc hc' (.inr ⟨rfl, hgt⟩)
        id (by simp) r hr')
  · exact absurd hr ((pairwise_nodes_iff.1 h.ordered).2 l n _ l' n' c' hc hc' (.inl hgt)
      id (by simp) r hr')

/-- Nodes that read their own neuron up to themselves, and otherwise neurons that are listed before
it, are in order. -/
theorem wellFormed_of_reads_before (hne : net.layers ≠ [])
    (hchains : ∀ l n c, chainAt net.layers l n = some c → c ≠ [])
    (hheld : ∀ id ∈ net.nodes, id < a.size) (hnd : net.nodes.Nodup)
    (hreads : ∀ l n pre id post r, chainAt net.layers l n = some (pre ++ id :: post) →
      a.Reads id r →
        r ∈ pre ∨ ∃ l' n' c', (l' < l ∨ l' = l ∧ n' < n) ∧ chainAt net.layers l' n' = some c' ∧
          r ∈ c') :
    net.WellFormed a := by
  refine ⟨hne, hchains, hheld, hnd, ?_, ?_, ?_⟩
  · intro id hid r hr
    obtain ⟨l, n, c, hc, hid⟩ := mem_nodes_iff.1 hid
    obtain ⟨pre, post, rfl⟩ := List.append_of_mem hid
    rcases hreads l n pre id post r hc hr with hpre | ⟨l', n', c', -, hc', hr'⟩
    · exact mem_nodes hc (List.mem_append_left _ hpre)
    · exact mem_nodes hc' hr'
  · intro id hid hself
    obtain ⟨l, n, c, hc, hid⟩ := mem_nodes_iff.1 hid
    obtain ⟨pre, post, rfl⟩ := List.append_of_mem hid
    rcases hreads l n pre id post id hc hself with hpre | ⟨l', n', c', hlt, hc', hr'⟩
    · exact (List.nodup_append.1 (nodup_chainAt hnd hc)).2.2 id hpre id (by simp) rfl
    · obtain ⟨rfl, rfl, -⟩ := place_unique hnd hc hc' (by simp) hr'
      omega
  · refine pairwise_nodes_iff.2 ⟨?_, ?_⟩
    · intro l n c hc
      refine pairwise_of_split ?_
      rintro pre x post rfl y hy hread
      rcases hreads l n pre x post y hc hread with hpre | ⟨l', n', c', hlt, hc', hr'⟩
      · exact (List.nodup_append.1 (nodup_chainAt hnd hc)).2.2 y hpre y
          (List.mem_cons_of_mem _ hy) rfl
      · obtain ⟨rfl, rfl, -⟩ := place_unique hnd hc hc' (by simp [hy]) hr'
        omega
    · intro l n c l' n' c' hc hc' hbefore x hx y hy hread
      obtain ⟨pre, post, rfl⟩ := List.append_of_mem hx
      rcases hreads l n pre x post y hc hread with hpre | ⟨l'', n'', c'', hlt, hc'', hr⟩
      · obtain ⟨rfl, rfl, -⟩ := place_unique hnd hc hc' (List.mem_append_left _ hpre) hy
        omega
      · obtain ⟨rfl, rfl, -⟩ := place_unique hnd hc'' hc' hr hy
        omega

/-- Nodes that read their own neuron up to themselves, and otherwise earlier layers, are in
order. -/
theorem wellFormed_of_reads_earlier (hne : net.layers ≠ [])
    (hchains : ∀ l n c, chainAt net.layers l n = some c → c ≠ [])
    (hheld : ∀ id ∈ net.nodes, id < a.size) (hnd : net.nodes.Nodup)
    (hreads : ∀ l n pre id post r, chainAt net.layers l n = some (pre ++ id :: post) →
      a.Reads id r →
        r ∈ pre ∨ ∃ l' n' c', l' < l ∧ chainAt net.layers l' n' = some c' ∧ r ∈ c') :
    net.WellFormed a := by
  refine wellFormed_of_reads_before hne hchains hheld hnd ?_
  intro l n pre id post r hc hr
  rcases hreads l n pre id post r hc hr with hpre | ⟨l', n', c', hlt, hc', hr'⟩
  · exact .inl hpre
  · exact .inr ⟨l', n', c', .inl hlt, hc', hr'⟩

end Network

end PiecewiseNet
