import PiecewiseNet.Proofs.Dependence
import PiecewiseNet.Proofs.QueryMembers
import PiecewiseNet.Solver.Query

/-!
# Members that inputs reach

The reachable members are found in sweeps. A sweep adds members that read a reached one, and a sweep
that adds none shows that there are no more of them. Every other sweep leaves fewer members
unreached, so there are sweeps enough.

## Main definitions

- `Settles`: sweeping until a sweep finds nothing.

## Main statements

- `exists_settles_reachable`: how soon sweeping from the inputs ends.
- `mem_reachable_iff`: the reachable members are those that depend on an input.
- `mem_syntheticInputs_iff`: the synthetic inputs are the other members whose bounds coincide.
-/

namespace PiecewiseNet

variable {α : Type} {a : Arena α} {q : Query α} {nodes ids reached : List NodeId} {id : NodeId}

theorem readsReached_iff : readsReached a reached id = true ↔ ∃ r ∈ reached, a.Reads id r := by
  simp only [readsReached, List.any_eq_true, List.contains_iff_mem, Arena.Reads,
    Network.references]
  exact exists_congr fun r => And.comm

/-! ## One sweep -/

theorem subset_sweepReached : reached ⊆ sweepReached a ids reached := by
  induction ids generalizing reached with
  | nil => exact List.Subset.refl reached
  | cons id ids ih =>
    unfold sweepReached
    split
    · exact List.Subset.trans (List.subset_cons_self id reached) ih
    · exact ih

/-- A property that passes from reached nodes to the swept nodes that read them holds of all nodes
reached by a sweep. -/
theorem forall_mem_sweepReached {p : NodeId → Prop} (hreached : ∀ id ∈ reached, p id)
    (hstep : ∀ id ∈ ids, ∀ r, p r → a.Reads id r → p id) :
    ∀ id ∈ sweepReached a ids reached, p id := by
  induction ids generalizing reached with
  | nil => exact hreached
  | cons id ids ih =>
    obtain ⟨hid, hids⟩ := List.forall_mem_cons.1 hstep
    unfold sweepReached
    split
    · rename_i hadd
      obtain ⟨r, hr, hread⟩ := readsReached_iff.1 (Bool.and_eq_true_iff.1 hadd).2
      exact ih (List.forall_mem_cons.2 ⟨hid r (hreached r hr) hread, hreached⟩) hids
    · exact ih hreached hids

/-- A sweep finds one node more, or it changes nothing and no swept node reads a reached one. -/
theorem sweepReached_cases (a : Arena α) (ids reached : List NodeId) :
    (∃ id ∈ ids, id ∉ reached ∧ id ∈ sweepReached a ids reached ∧
      reached.length < (sweepReached a ids reached).length) ∨
    (sweepReached a ids reached = reached ∧
      ∀ id ∈ ids, ∀ r ∈ reached, a.Reads id r → id ∈ reached) := by
  induction ids generalizing reached with
  | nil => exact .inr ⟨rfl, by simp⟩
  | cons id ids ih =>
    unfold sweepReached
    split
    · rename_i hadd
      have hnew : id ∉ reached := by simpa using (Bool.and_eq_true_iff.1 hadd).1
      refine .inl ⟨id, List.mem_cons_self .., hnew, ?_, ?_⟩
      · exact subset_sweepReached (List.mem_cons_self ..)
      · rcases ih (id :: reached) with ⟨-, -, -, -, hlt⟩ | ⟨heq, -⟩
        · exact Nat.lt_of_succ_lt hlt
        · rw [heq]
          exact Nat.lt_succ_self _
    · rename_i hadd
      rcases ih reached with ⟨j, hj, hnew, hmem, hlt⟩ | ⟨heq, hclosed⟩
      · exact .inl ⟨j, List.mem_cons_of_mem _ hj, hnew, hmem, hlt⟩
      · refine .inr ⟨heq, List.forall_mem_cons.2 ⟨?_, hclosed⟩⟩
        intro r hr hread
        by_contra hnot
        exact hadd (Bool.and_eq_true_iff.2
          ⟨by simpa using hnot, readsReached_iff.2 ⟨r, hr, hread⟩⟩)

/-! ## All sweeps -/

theorem subset_reachedAfter {sweeps : Nat} : reached ⊆ reachedAfter a nodes sweeps reached := by
  induction sweeps generalizing reached with
  | zero => exact List.Subset.refl reached
  | succ sweeps ih =>
    unfold reachedAfter
    dsimp only
    split
    · exact subset_sweepReached
    · exact List.Subset.trans subset_sweepReached ih

theorem forall_mem_reachedAfter {sweeps : Nat} {p : NodeId → Prop}
    (hreached : ∀ id ∈ reached, p id) (hstep : ∀ id ∈ nodes, ∀ r, p r → a.Reads id r → p id) :
    ∀ id ∈ reachedAfter a nodes sweeps reached, p id := by
  induction sweeps generalizing reached with
  | zero => exact hreached
  | succ sweeps ih =>
    unfold reachedAfter
    dsimp only
    split
    · exact forall_mem_sweepReached hreached hstep
    · exact ih (forall_mem_sweepReached hreached hstep)

/-- A sweep that finds a node leaves fewer nodes unreached. -/
theorem unreached_sweepReached_lt (hid : id ∈ nodes) (hnew : id ∉ reached)
    (hfound : id ∈ sweepReached a nodes reached) :
    (nodes.filter fun j => !(sweepReached a nodes reached).contains j).length <
      (nodes.filter fun j => !reached.contains j).length := by
  -- The nodes that are left are some of those left before, without the one that was found.
  have hfewer : (nodes.filter fun j => !(sweepReached a nodes reached).contains j) =
      (nodes.filter fun j => !reached.contains j).filter fun j =>
        !(sweepReached a nodes reached).contains j := by
    rw [List.filter_filter]
    refine List.filter_congr ?_
    intro j _
    by_cases hj : j ∈ reached
    · simp [hj, subset_sweepReached hj]
    · simp [hj]
  rw [hfewer]
  exact List.length_filter_lt_length_iff_exists.2
    ⟨id, List.mem_filter.2 ⟨hid, by simpa using hnew⟩, by simpa using hfound⟩

/-- Sweeping until a sweep finds nothing takes so many sweeps, and reaches these nodes. -/
inductive Settles (a : Arena α) (nodes : List NodeId) : List NodeId → Nat → List NodeId → Prop where
  | stop {reached : List NodeId} (h : (sweepReached a nodes reached).length = reached.length) :
      Settles a nodes reached 1 (sweepReached a nodes reached)
  | again {reached result : List NodeId} {n : Nat}
      (h : (sweepReached a nodes reached).length ≠ reached.length)
      (hrest : Settles a nodes (sweepReached a nodes reached) n result) :
      Settles a nodes reached (n + 1) result

/-- When sweeping has ended, every node that reads a reached one is reached. -/
theorem Settles.closed {n : Nat} {result : List NodeId} (h : Settles a nodes reached n result) :
    ∀ id ∈ nodes, ∀ r ∈ result, a.Reads id r → id ∈ result := by
  induction h with
  | @stop reached hstop =>
    rcases sweepReached_cases a nodes reached with ⟨-, -, -, -, hlt⟩ | ⟨heq, hclosed⟩
    · exact absurd hstop (Nat.ne_of_gt hlt)
    · rw [heq]
      exact hclosed
  | again _ _ ih => exact ih

/-- With more sweeps than there are unreached nodes sweeping comes to its end. -/
theorem exists_settles {sweeps : Nat}
    (hsweeps : (nodes.filter fun id => !reached.contains id).length < sweeps) :
    ∃ n ≤ sweeps, Settles a nodes reached n (reachedAfter a nodes sweeps reached) := by
  induction sweeps generalizing reached with
  | zero => exact absurd hsweeps (Nat.not_lt_zero _)
  | succ sweeps ih =>
    unfold reachedAfter
    dsimp only
    by_cases hstop : (sweepReached a nodes reached).length = reached.length
    · rw [if_pos (by simpa using hstop)]
      exact ⟨1, Nat.succ_le_succ (Nat.zero_le _), .stop hstop⟩
    · rw [if_neg (by simpa using hstop)]
      rcases sweepReached_cases a nodes reached with ⟨id, hid, hnew, hfound, -⟩ | ⟨heq, -⟩
      · have hfewer := unreached_sweepReached_lt hid hnew hfound
        obtain ⟨n, hn, hrest⟩ := ih (hfewer.trans_le (Nat.le_of_lt_succ hsweeps))
        exact ⟨n + 1, Nat.succ_le_succ hn, .again hstop hrest⟩
      · exact absurd (congrArg List.length heq) hstop

/-! ## Reachable members -/

theorem inputs_subset_reachable : q.inputs ⊆ reachable a q :=
  subset_reachedAfter

/-- Sweeping from the inputs ends after one sweep more than there are members, or earlier. -/
theorem exists_settles_reachable (a : Arena α) (q : Query α) :
    ∃ n ≤ q.nodes.length + 1, Settles a q.nodes q.inputs n (reachable a q) :=
  exists_settles (Nat.lt_succ_of_le (List.length_filter_le ..))

theorem reachable_subset : reachable a q ⊆ q.nodes :=
  forall_mem_reachedAfter q.inputs_subset fun _ hid _ _ _ => hid

/-- The reachable members are those that depend on an input. -/
theorem mem_reachable_iff (hq : q.checkIntegrity a = .ok ()) (hid : id ∈ q.nodes) :
    id ∈ reachable a q ↔ ∃ i ∈ q.inputs, a.DependsOn id i := by
  rw [Query.checkIntegrity_eq_ok_iff] at hq
  constructor
  · intro h
    refine forall_mem_reachedAfter (p := fun id => ∃ i ∈ q.inputs, a.DependsOn id i) ?_ ?_ id h
    · exact fun id hid => ⟨id, hid, .refl⟩
    · rintro id - r ⟨i, hi, hdep⟩ hread
      exact ⟨i, hi, .head hread hdep⟩
  · rintro ⟨i, hi, hdep⟩
    obtain ⟨n, -, hsettles⟩ := exists_settles_reachable a q
    induction hdep using Relation.ReflTransGen.head_induction_on with
    | refl => exact inputs_subset_reachable hi
    | @head id r hread _ ih =>
      obtain ⟨n, hn, hrefs⟩ := hq id hid
      exact hsettles.closed id hid r (ih (hrefs ((Arena.reads_iff hn).1 hread))) hread

/-- The synthetic inputs are the members that depend on no input and whose bounds coincide. -/
theorem mem_syntheticInputs_iff [Scalar α] (hq : q.checkIntegrity a = .ok ()) :
    id ∈ syntheticInputs a q ↔ id ∈ q.nodes ∧ (∀ i ∈ q.inputs, ¬a.DependsOn id i) ∧
      ∃ n, a.get? id = some n ∧ n.bounds.fixedValue?.isSome := by
  rw [syntheticInputs, List.mem_filter]
  refine and_congr_right fun hid => ?_
  rw [Bool.and_eq_true]
  refine and_congr ?_ ?_
  · simpa using (mem_reachable_iff hq hid).not
  · cases a.get? id <;> simp

end PiecewiseNet
