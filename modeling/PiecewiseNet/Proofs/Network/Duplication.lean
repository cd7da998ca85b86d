import PiecewiseNet.Proofs.Edits
import PiecewiseNet.Proofs.Network.Copies

/-!
# Duplicates of networks

A duplicate of a network is a copy of it on new nodes.

## Main definitions

- `Arena.GrowsTo`: nodes were added, and the nodes that were there are unchanged.
- `Arena.Records`: for each node of a list a node was added, and a table leads to it.

## Main statements

- `Network.copyNodes_yields`, `Network.exists_copyNodes`: copying nodes one after the other.
- `Network.duplicate_yields`, `Network.exists_duplicate`: copying a network.
-/

namespace PiecewiseNet

variable {α : Type}

namespace Arena

/-- Nodes were added, and the nodes that were there are unchanged. -/
structure GrowsTo (a b : Arena α) : Prop where
  size : a.size ≤ b.size
  get? : ∀ j < a.size, b.get? j = a.get? j

theorem GrowsTo.refl (a : Arena α) : a.GrowsTo a :=
  ⟨Nat.le_refl _, fun _ _ => rfl⟩

theorem GrowsTo.trans {a b c : Arena α} (h : a.GrowsTo b) (h' : b.GrowsTo c) : a.GrowsTo c :=
  ⟨h.size.trans h'.size, fun j hj =>
    (h'.get? j (Nat.lt_of_lt_of_le hj h.size)).trans (h.get? j hj)⟩

theorem GrowsTo.get?_eq_some {a b : Arena α} (h : a.GrowsTo b) {id : NodeId} {n : Node α}
    (hn : a.get? id = some n) : b.get? id = some n :=
  (h.get? id (lt_size_of_get? hn)).trans hn

/-- A well-formed network stays well-formed when nodes are added. -/
theorem GrowsTo.wellFormed {a b : Arena α} (h : a.GrowsTo b) {net : Network}
    (hnet : net.WellFormed a) : net.WellFormed b :=
  hnet.of_get?_eq fun id hid => h.get? id (hnet.held id hid)

/-- Replacing the node added last is adding the other one. -/
theorem set_push_size (a : Arena α) (n m : Node α) : (a.push n).set a.size m = a.push m := by
  refine congrArg Arena.mk (Array.ext_getElem? ?_)
  intro i
  by_cases hi : i = a.nodes.size
  · simp [push, size, hi]
  · simp [push, size, Array.getElem?_push, hi, Ne.symm hi]

theorem growsTo_push (a : Arena α) (n : Node α) : a.GrowsTo (a.push n) := by
  refine ⟨by rw [size_push]; omega, ?_⟩
  intro j hj
  rw [get?_push, if_neg (Nat.ne_of_lt hj)]

/-- Beside other nodes, the arena got one node for each node of a list, made from it by `g`. The
table leads to it, and elsewhere where it led before. -/
structure Records (a b : Arena α) (g : Node α → Node α) (ids : List NodeId)
    (table table' : Substitution) : Prop where
  grows : a.GrowsTo b
  /-- Elsewhere the table is unchanged. -/
  other : ∀ id, id ∉ ids → table'.apply id = table.apply id
  /-- The nodes are new. -/
  fresh : ∀ id ∈ ids, a.size ≤ table'.apply id
  /-- There is a new node for each. -/
  injOn : ∀ i ∈ ids, ∀ j ∈ ids, table'.apply i = table'.apply j → i = j
  /-- The new node is made from the old one. -/
  node : ∀ id ∈ ids, ∃ n, a.get? id = some n ∧ b.get? (table'.apply id) = some (g n)

variable {a b : Arena α} {g : Node α → Node α} {ids : List NodeId} {table table' : Substitution}

theorem Records.nil : a.Records a g [] table table :=
  ⟨.refl a, fun _ _ => rfl, by simp, by simp, by simp⟩

/-- One more node is added first. -/
theorem Records.cons {id : NodeId} {n : Node α} (hn : a.get? id = some n)
    (h : (a.push (g n)).Records b g ids (table.insert id a.size) table') (hid : id ∉ ids)
    (hheld : ∀ j ∈ ids, j < a.size) : a.Records b g (id :: ids) table table' := by
  have hself : table'.apply id = a.size := by
    rw [h.other id hid, Substitution.apply_insert, if_pos rfl]
  have hfresh : ∀ j ∈ ids, a.size < table'.apply j := by
    intro j hj
    have := h.fresh j hj
    rw [size_push] at this
    exact this
  refine ⟨(growsTo_push a (g n)).trans h.grows, ?_, ?_, ?_, ?_⟩
  · intro j hj
    rw [List.mem_cons, not_or] at hj
    rw [h.other j hj.2, Substitution.apply_insert, if_neg hj.1]
  · intro j hj
    rcases List.mem_cons.1 hj with rfl | hj
    · rw [hself]
    · exact (hfresh j hj).le
  · intro i hi j hj hij
    rcases List.mem_cons.1 hi with hi | hi <;> rcases List.mem_cons.1 hj with hj | hj
    · rw [hi, hj]
    · have hlt := hfresh j hj
      rw [← hij, hi, hself] at hlt
      exact absurd hlt (Nat.lt_irrefl _)
    · have hlt := hfresh i hi
      rw [hij, hj, hself] at hlt
      exact absurd hlt (Nat.lt_irrefl _)
    · exact h.injOn i hi j hj hij
  · intro j hj
    rcases List.mem_cons.1 hj with rfl | hj
    · refine ⟨n, hn, ?_⟩
      rw [hself, h.grows.get? a.size (by rw [size_push]; omega), get?_push, if_pos rfl]
    · obtain ⟨m, hm, hcopy⟩ := h.node j hj
      rw [get?_push, if_neg (Nat.ne_of_lt (hheld j hj))] at hm
      exact ⟨m, hm, hcopy⟩

end Arena

namespace Network

variable {net net' : Network} {a b : Arena α} {suffix : String} {ids : List NodeId}
  {table table' : Substitution}

/-- Copying distinct nodes adds one copy of each. -/
theorem copyNodes_yields (h : (copyNodes suffix ids table).Yields a table' b) (hnd : ids.Nodup)
    (hheld : ∀ id ∈ ids, id < a.size) : a.Records b (·.copied suffix) ids table table' := by
  induction ids generalizing a table with
  | nil =>
    obtain ⟨rfl, rfl⟩ := Edit.yields_pure.1 h
    exact .nil
  | cons id ids ih =>
    obtain ⟨hid, hnd⟩ := List.nodup_cons.1 hnd
    obtain ⟨-, hheld⟩ := List.forall_mem_cons.1 hheld
    obtain ⟨copy, c, hcopy, hrest⟩ := Edit.yields_bind.1 h
    obtain ⟨n, hn, rfl, rfl⟩ := Edit.yields_copyNode.1 hcopy
    refine .cons hn (ih hrest hnd ?_) hid hheld
    intro j hj
    rw [Arena.size_push]
    exact Nat.lt_succ_of_lt (hheld j hj)

/-- Nodes that are in the arena can be copied. -/
theorem exists_copyNodes (suffix : String) (table : Substitution)
    (hheld : ∀ id ∈ ids, id < a.size) :
    ∃ table' b, (copyNodes suffix ids table).Yields a table' b := by
  induction ids generalizing a table with
  | nil => exact ⟨table, a, Edit.yields_pure.2 ⟨rfl, rfl⟩⟩
  | cons id ids ih =>
    obtain ⟨hid, hheld⟩ := List.forall_mem_cons.1 hheld
    obtain ⟨n, hn⟩ := Arena.exists_get? hid
    have hheld' : ∀ j ∈ ids, j < (a.push (n.copied suffix)).size := by
      intro j hj
      rw [Arena.size_push]
      exact Nat.lt_succ_of_lt (hheld j hj)
    obtain ⟨table', b, hrest⟩ := ih (table.insert id a.size) hheld'
    exact ⟨table', b, Edit.yields_bind.2 ⟨a.size, _, Edit.yields_copyNode.2 ⟨n, hn, rfl, rfl⟩,
      hrest⟩⟩

/-- Once every node has a copy, letting the copies read copies completes the copy of the
network. -/
theorem copy_of_records {c : Arena α} {u : PUnit}
    (hrec : a.Records b (·.copied suffix) net.nodes table table')
    (h : Edit.Yields ((net.nodes.map table'.apply).forM (Edit.redirect table')) b u c)
    (hnd : net.nodes.Nodup) :
    net.Copy a table'.apply ⟨net.redirect table'.apply⟩ c ∧ a.GrowsTo c := by
  have hnd' : (net.nodes.map table'.apply).Nodup := by
    rw [List.nodup_iff_pairwise_ne, List.pairwise_map]
    refine hnd.imp_of_mem ?_
    intro i j hi hj hne heq
    exact hne (hrec.injOn i hi j hj heq)
  obtain ⟨hsize, -, hget⟩ := Edit.redirectAll_yields h hnd'
  refine ⟨⟨rfl, hrec.injOn, ?_⟩, ?_, ?_⟩
  · intro id hid
    obtain ⟨n, hn, hcopy⟩ := hrec.node id hid
    refine ⟨n, (n.copied suffix).redirect table'.apply, hn, ?_, rfl, rfl⟩
    rw [hget, if_pos (List.mem_map_of_mem hid), hcopy, Option.map_some]
  · rw [hsize]
    exact hrec.grows.size
  · intro j hj
    have hnot : j ∉ net.nodes.map table'.apply := by
      rw [List.mem_map]
      rintro ⟨id, hid, rfl⟩
      exact absurd (hrec.fresh id hid) (Nat.not_le.2 hj)
    rw [hget, if_neg hnot, hrec.grows.get? j hj]

/-- A duplicate is a copy on new nodes. -/
theorem duplicate_yields (h : (net.duplicate suffix).Yields a net' b)
    (hnd : net.nodes.Nodup) (hheld : ∀ id ∈ net.nodes, id < a.size) :
    ∃ f, net.Copy a f net' b ∧ (∀ id ∈ net.nodes, a.size ≤ f id) ∧ a.GrowsTo b ∧
      net'.WellFormed b := by
  obtain ⟨table, c, hcopies, h₁⟩ := Edit.yields_bind.1 h
  obtain ⟨u, d, hredirect, h₂⟩ := Edit.yields_bind.1 h₁
  obtain ⟨hnew, rfl⟩ := Edit.yields_reading.1 h₂
  obtain ⟨rfl, hwell⟩ := new_eq_ok_iff.1 hnew
  have hrec := copyNodes_yields hcopies hnd hheld
  rw [← Edit.forM_map_redirect] at hredirect
  obtain ⟨hcopy, hgrows⟩ := copy_of_records hrec hredirect hnd
  exact ⟨table.apply, hcopy, hrec.fresh, hgrows, hwell⟩

/-- A well-formed network has a duplicate. -/
theorem exists_duplicate (suffix : String) (hnet : net.WellFormed a) :
    ∃ net' b, (net.duplicate suffix).Yields a net' b := by
  obtain ⟨table, c, hcopies⟩ := exists_copyNodes suffix Substitution.empty hnet.held
  have hrec := copyNodes_yields hcopies hnet.nodup hnet.held
  have hheld : ∀ id ∈ net.nodes.map table.apply, (c.get? id).isSome := by
    rw [List.forall_mem_map]
    intro id hid
    obtain ⟨n, hn, hcopy⟩ := hrec.node id hid
    rw [hcopy]
    rfl
  obtain ⟨b, hredirect⟩ := Edit.exists_redirectAll (s := table) hheld
  obtain ⟨hcopy, -⟩ := copy_of_records hrec hredirect hnet.nodup
  rw [Edit.forM_map_redirect] at hredirect
  refine ⟨⟨net.redirect table.apply⟩, b,
    Edit.yields_bind.2 ⟨table, c, hcopies, Edit.yields_bind.2 ⟨_, b, hredirect, ?_⟩⟩⟩
  exact Edit.yields_reading.2 ⟨new_eq_ok_iff.2 ⟨rfl, hcopy.wellFormed hnet⟩, rfl⟩

end Network

end PiecewiseNet
