import PiecewiseNet.Join

/-!
# Spliced layers

Splicing the boundary layer of two networks keeps the heads of the base, and behind the head of an
overridden neuron the altered nodes. The table leads from the altered nodes that are dropped to the
nodes of the base.

## Main definitions

- `sharedNodes`: the altered nodes of a boundary layer whose place a base node takes.
- `Spliced`: what splicing gives.

## Main statements

- `exists_spliceChains`: layers that agree but for the overridden neurons can be spliced.
- `spliceChains_cons`: what splicing a neuron gives, whatever the layers.
-/

namespace PiecewiseNet

variable {α : Type} {isOverridden : Nat → Bool} {i : Nat} {pairs : List (Chain × Chain)}
  {g : NodeId → NodeId} {table : Substitution} {x : NodeId}

/-- The altered nodes of a boundary layer whose place a base node takes: the head of an overridden
neuron, and all nodes of any other one. -/
def sharedNodes (isOverridden : Nat → Bool) : Nat → List (Chain × Chain) → List NodeId
  | _, [] => []
  | i, (_, altered) :: rest =>
    (if isOverridden i then altered.take 1 else altered) ++ sharedNodes isOverridden (i + 1) rest

/-- What holds somewhere in a list holds at its first place or behind it. -/
theorem exists_getElem?_cons_iff {β : Type} {q : β} {qs : List β} {r : Nat → β → Prop} :
    (∃ k p, (q :: qs)[k]? = some p ∧ r (i + k) p) ↔
      r i q ∨ ∃ k p, qs[k]? = some p ∧ r (i + 1 + k) p := by
  have hshift : ∀ k, i + (k + 1) = i + 1 + k := by omega
  constructor
  · rintro ⟨k, p, hp, hr⟩
    cases k with
    | zero =>
      cases hp
      exact .inl hr
    | succ k => exact .inr ⟨k, p, hp, hshift k ▸ hr⟩
  · rintro (hr | ⟨k, p, hp, hr⟩)
    · exact ⟨0, q, rfl, hr⟩
    · exact ⟨k + 1, p, hp, (hshift k).symm ▸ hr⟩

theorem mem_sharedNodes_iff :
    x ∈ sharedNodes isOverridden i pairs ↔ ∃ k p, pairs[k]? = some p ∧
      x ∈ (if isOverridden (i + k) then p.2.take 1 else p.2) := by
  induction pairs generalizing i with
  | nil => simp [sharedNodes]
  | cons p pairs ih =>
    rw [sharedNodes, List.mem_append, ih,
      exists_getElem?_cons_iff (r := fun n (p : Chain × Chain) =>
        x ∈ (if isOverridden n then p.2.take 1 else p.2))]

/-- Entries that all lead where `g` leads make the table lead there. -/
theorem foldl_insert_apply {entries : List (NodeId × NodeId)} (h : ∀ p ∈ entries, p.2 = g p.1)
    (table : Substitution) (x : NodeId) :
    (entries.foldl (fun t p => t.insert p.1 p.2) table).apply x =
      if x ∈ entries.map Prod.fst then g x else table.apply x := by
  induction entries generalizing table with
  | nil => rfl
  | cons p entries ih =>
    obtain ⟨hp, h⟩ := List.forall_mem_cons.1 h
    rw [List.foldl_cons, ih h, Substitution.apply_insert, List.map_cons, hp]
    by_cases hx : x = p.1 <;> by_cases hmem : x ∈ entries.map Prod.fst <;> simp [hx, hmem]

/-- The entries for a neuron that is not overridden. -/
theorem foldl_chain_apply (a : NodeId) (as : Chain) (table : Substitution) (x : NodeId) :
    (((a :: as).zip ((a :: as).map g) ++
        [((a :: as).getLast?.getD a, ((a :: as).map g).getLast?.getD (g a))]).foldl
      (fun t p => t.insert p.1 p.2) table).apply x =
      if x ∈ a :: as then g x else table.apply x := by
  have hlast : ((a :: as).map g).getLast?.getD (g a) = g ((a :: as).getLast?.getD a) := by
    rw [List.getLast?_map]
    cases (a :: as).getLast? <;> rfl
  have hmem : (a :: as).getLast?.getD a ∈ a :: as := by
    rw [List.getLast?_eq_some_getLast (List.cons_ne_nil a as), Option.getD_some]
    exact List.getLast_mem _
  have hfst : ((a :: as).zip ((a :: as).map g)).map Prod.fst = a :: as := by
    rw [List.map_fst_zip]
    simp
  rw [foldl_insert_apply (g := g)]
  · rw [List.map_append, hfst]
    simp only [List.map_cons, List.map_nil, List.mem_append, List.mem_singleton]
    by_cases hx : x ∈ a :: as
    · simp [hx]
    · have hne : x ≠ (a :: as).getLast?.getD a := fun heq => hx (heq ▸ hmem)
      simp [hx, hne]
  · intro p hp
    rcases List.mem_append.1 hp with hp | hp
    · rw [List.zip_map_right, List.mem_map] at hp
      obtain ⟨⟨y, z⟩, hyz, rfl⟩ := hp
      obtain ⟨k, hk⟩ := List.mem_iff_getElem?.1 hyz
      rw [List.getElem?_zip_eq_some] at hk
      have hyz' : y = z := Option.some.inj (hk.1.symm.trans hk.2)
      exact congrArg g hyz'.symm
    · rw [List.mem_singleton.1 hp]
      exact hlast

/-! ## Splicing -/

/-- What splicing gives from neuron `i` on, if the two networks agree along `g` but for the
overridden neurons behind their heads. -/
structure Spliced (isOverridden : Nat → Bool) (i : Nat) (pairs : List (Chain × Chain))
    (g : NodeId → NodeId) (table : Substitution) (s : Boundary) : Prop where
  /-- Overridden neurons keep the altered nodes behind the head of the base. -/
  chains : ∀ k, s.chains[k]? = pairs[k]?.map fun p =>
    if isOverridden (i + k) then p.1.take 1 ++ p.2.drop 1 else p.1
  /-- The table leads from the nodes that are dropped to their counterparts. -/
  table : ∀ x, s.table.apply x =
    if x ∈ sharedNodes isOverridden i pairs then g x else table.apply x
  /-- What stays is listed in order. -/
  sublist : s.retained.Sublist (pairs.map Prod.snd).flatten
  /-- The altered nodes behind the heads of overridden neurons stay. -/
  retained : ∀ x, x ∈ s.retained ↔
    ∃ k p, pairs[k]? = some p ∧ isOverridden (i + k) = true ∧ x ∈ p.2.drop 1

namespace Spliced

variable {a : NodeId} {as bs : Chain} {s : Boundary}

theorem nil : Spliced isOverridden i [] g table ⟨[], table, []⟩ := by
  constructor <;> simp [sharedNodes]

theorem getElem?_cons {p : Chain × Chain} {c : Chain}
    (hc : c = if isOverridden i then p.1.take 1 ++ p.2.drop 1 else p.1)
    (h : Spliced isOverridden (i + 1) pairs g table s) (k : Nat) :
    (c :: s.chains)[k]? = (p :: pairs)[k]?.map fun p =>
      if isOverridden (i + k) then p.1.take 1 ++ p.2.drop 1 else p.1 := by
  cases k with
  | zero => rw [hc]; rfl
  | succ k => simp only [List.getElem?_cons_succ, h.chains, Nat.add_assoc, Nat.add_comm 1 k]

/-- An overridden neuron. -/
theorem cons_overridden (hover : isOverridden i = true)
    (h : Spliced isOverridden (i + 1) pairs g (table.insert a (g a)) s) :
    Spliced isOverridden i ((g a :: bs, a :: as) :: pairs) g table
      ⟨(g a :: as) :: s.chains, s.table, as ++ s.retained⟩ := by
  refine ⟨h.getElem?_cons (by rw [hover]; rfl), ?_, ?_, ?_⟩
  · intro x
    simp only [h.table, sharedNodes, hover, if_true, List.take_succ_cons, List.take_zero,
      List.singleton_append, List.mem_cons, Substitution.apply_insert]
    by_cases hx : x = a <;> by_cases hmem : x ∈ sharedNodes isOverridden (i + 1) pairs <;>
      simp [hx, hmem]
  · show (as ++ s.retained).Sublist (a :: as ++ (pairs.map Prod.snd).flatten)
    exact (List.sublist_cons_self a as).append h.sublist
  · intro x
    rw [List.mem_append, h.retained, exists_getElem?_cons_iff (r := fun n (p : Chain × Chain) =>
      isOverridden n = true ∧ x ∈ p.2.drop 1), hover]
    simp only [List.drop_succ_cons, List.drop_zero, true_and]

/-- A neuron that is not overridden. -/
theorem cons_kept (hover : isOverridden i = false)
    (h : Spliced isOverridden (i + 1) pairs g
      (((a :: as).zip ((a :: as).map g) ++
        [((a :: as).getLast?.getD a, ((a :: as).map g).getLast?.getD (g a))]).foldl
          (fun t p => t.insert p.1 p.2) table) s) :
    Spliced isOverridden i (((a :: as).map g, a :: as) :: pairs) g table
      ⟨(a :: as).map g :: s.chains, s.table, s.retained⟩ := by
  refine ⟨h.getElem?_cons (by rw [hover]; rfl), ?_, ?_, ?_⟩
  · intro x
    rw [h.table, foldl_chain_apply, sharedNodes, hover]
    simp only [List.mem_append]
    by_cases hx : x ∈ a :: as <;>
      by_cases hmem : x ∈ sharedNodes isOverridden (i + 1) pairs <;> simp [hx, hmem]
  · show s.retained.Sublist (a :: as ++ (pairs.map Prod.snd).flatten)
    exact h.sublist.trans (List.sublist_append_right _ _)
  · intro x
    rw [h.retained, exists_getElem?_cons_iff (r := fun n (p : Chain × Chain) =>
      isOverridden n = true ∧ x ∈ p.2.drop 1), hover]
    simp only [Bool.false_eq_true, false_and, false_or]

end Spliced

/-- Neurons that agree along `g` but for the overridden ones behind their heads can be spliced. -/
theorem exists_spliceChains (table : Substitution)
    (hpairs : ∀ k p, pairs[k]? = some p → p.2 ≠ [] ∧ p.1.head? = p.2.head?.map g ∧
      (isOverridden (i + k) = false → p.1 = p.2.map g)) :
    ∃ s, spliceChains (α := α) isOverridden i pairs table = .ok s ∧
      Spliced isOverridden i pairs g table s := by
  induction pairs generalizing i table with
  | nil => exact ⟨_, rfl, .nil⟩
  | cons p pairs ih =>
    obtain ⟨base, altered⟩ := p
    obtain ⟨hne, hhead, hmap⟩ := hpairs 0 _ rfl
    have hrest : ∀ k q, pairs[k]? = some q → q.2 ≠ [] ∧ q.1.head? = q.2.head?.map g ∧
        (isOverridden (i + 1 + k) = false → q.1 = q.2.map g) := by
      intro k q hq
      have := hpairs (k + 1) q hq
      rwa [Nat.add_comm k 1, ← Nat.add_assoc] at this
    cases altered with
    | nil => exact absurd rfl hne
    | cons a as =>
      cases base with
      | nil => cases hhead
      | cons b bs =>
        obtain rfl : b = g a := Option.some.inj hhead
        cases hover : isOverridden i with
        | true =>
          obtain ⟨s, hs, hspliced⟩ := ih (table.insert a (g a)) hrest
          refine ⟨_, ?_, hspliced.cons_overridden hover⟩
          simp only [spliceChains, hover, if_true, hs]
        | false =>
          obtain rfl : bs = as.map g := (List.cons.inj (hmap hover)).2
          obtain ⟨s, hs, hspliced⟩ := ih _ hrest
          refine ⟨_, ?_, hspliced.cons_kept hover⟩
          simp only [spliceChains, hover, Bool.false_eq_true, if_false]
          rw [List.map_cons] at hs
          rw [hs]
          rfl

/-! ## What splicing leaves behind -/

/-- Splicing a neuron gives a neuron with the head of the base, and keeps some altered nodes. -/
theorem spliceChains_cons {pair : Chain × Chain} {s : Boundary}
    (h : spliceChains (α := α) isOverridden i (pair :: pairs) table = .ok s) :
    ∃ c kept table' s', spliceChains (α := α) isOverridden (i + 1) pairs table' = .ok s' ∧
      s.chains = c :: s'.chains ∧ s.retained = kept ++ s'.retained ∧
      c.head? = pair.1.head? ∧ (∀ id ∈ c, id ∈ pair.1 ∨ id ∈ pair.2) ∧ kept ⊆ pair.2 := by
  obtain ⟨_ | ⟨b, bs⟩, altered⟩ := pair
  · cases h
  obtain _ | ⟨a, as⟩ := altered
  · cases h
  rw [spliceChains] at h
  split at h
  · split at h
    · cases h
    · rename_i s' hs'
      cases h
      refine ⟨b :: as, as, _, s', hs', rfl, rfl, rfl, ?_, List.subset_cons_self ..⟩
      rintro id (_ | ⟨_, hid⟩)
      · exact .inl (List.mem_cons_self ..)
      · exact .inr (List.mem_cons_of_mem _ hid)
  · dsimp only at h
    split at h
    · cases h
    · rename_i s' hs'
      cases h
      exact ⟨b :: bs, [], _, s', hs', rfl, rfl, rfl, fun id hid => .inl hid, List.nil_subset _⟩

/-- The neurons of a spliced layer have the heads of the base. -/
theorem heads_of_spliceChains {s : Boundary}
    (h : spliceChains (α := α) isOverridden i pairs table = .ok s) :
    s.chains.map List.head? = pairs.map fun p => p.1.head? := by
  induction pairs generalizing i table s with
  | nil =>
    cases h
    rfl
  | cons pair pairs ih =>
    obtain ⟨c, kept, table', s', hs', hchains, -, hhead, -⟩ := spliceChains_cons h
    rw [hchains, List.map_cons, List.map_cons, ih hs', hhead]

/-- A spliced layer has nodes of the two layers, and those that stay are nodes of the altered
one. -/
theorem mem_of_spliceChains {s : Boundary}
    (h : spliceChains (α := α) isOverridden i pairs table = .ok s) :
    (∀ id ∈ s.chains.flatten, ∃ pair ∈ pairs, id ∈ pair.1 ∨ id ∈ pair.2) ∧
      ∀ id ∈ s.retained, ∃ pair ∈ pairs, id ∈ pair.2 := by
  induction pairs generalizing i table s with
  | nil =>
    cases h
    simp
  | cons pair pairs ih =>
    obtain ⟨c, kept, table', s', hs', hchains, hretained, -, hc, hkept⟩ := spliceChains_cons h
    obtain ⟨hchains', hretained'⟩ := ih hs'
    rw [hchains, hretained, List.flatten_cons]
    constructor
    · intro id hid
      rcases List.mem_append.1 hid with hid | hid
      · exact ⟨pair, List.mem_cons_self .., hc id hid⟩
      · obtain ⟨p, hp, hid⟩ := hchains' id hid
        exact ⟨p, List.mem_cons_of_mem _ hp, hid⟩
    · intro id hid
      rcases List.mem_append.1 hid with hid | hid
      · exact ⟨pair, List.mem_cons_self .., hkept hid⟩
      · obtain ⟨p, hp, hid⟩ := hretained' id hid
        exact ⟨p, List.mem_cons_of_mem _ hp, hid⟩

end PiecewiseNet
