import PiecewiseNet.Proofs.Dependence
import PiecewiseNet.Proofs.Evaluation.Seeding

/-!
# Members of a query during propagation

What the values of the numbered variables say about the members of the query behind them.

## Main statements

- `ConstraintSystem.Numbers.unassignedTerms_eq_nil_iff`: when a sum over members has no open term.
- `ConstraintSystem.Numbers.open_term_cases`: what the only open term of an equality is.
- `ConstraintSystem.Stable.isSome_affine`, `ConstraintSystem.Stable.isSome_relu`: where no rule
  applies, a member has a value if the nodes it reads have one.
- `ConstraintSystem.Numbers.forward_eq`: what evaluation returns.
-/

namespace PiecewiseNet

namespace ConstraintSystem

variable {α : Type} [Scalar α] {s : ConstraintSystem α} {a : Arena α} {q : Query α} {xs : List α}
  {v v' : Assignment α}

/-- A value that a member has it keeps when a variable without a value gets one. -/
theorem Numbers.isSome_valueOf?_assign (hs : s.Numbers a q) {i : Nat} (y : α)
    (hv : v.value? i = none) {id : NodeId} (hid : id ∈ q.nodes) (hsome : (s.valueOf? v id).isSome) :
    (s.valueOf? (v.assign i y) id).isSome := by
  rw [hs.valueOf?_eq v hid] at hsome
  obtain ⟨z, hz⟩ := Option.isSome_iff_exists.1 hsome
  rw [hs.valueOf?_eq _ hid, (Assignment.extendedBy_assign y hv).value _ z hz]
  rfl

/-- When a variable gets a value, a member has the value that it had before or is the one behind
this variable. -/
theorem Numbers.valueOf?_assign_cases (hs : s.Numbers a q) {i : Nat} {id j : NodeId} {y z : α}
    (hid : q.nodes[i]? = some id) (hj : j ∈ q.nodes) (hz : s.valueOf? (v.assign i y) j = some z) :
    (j = id ∧ z = y) ∨ s.valueOf? v j = some z := by
  rw [hs.valueOf?_eq _ hj, Assignment.value?_assign] at hz
  split at hz
  · rename_i hij
    cases hz
    have hjj := getElem?_idxOf hj
    rw [← hij.1, hid] at hjj
    exact .inl ⟨(Option.some.inj hjj).symm, rfl⟩
  · exact .inr (by rw [hs.valueOf?_eq _ hj, hz])

/-- What members read are members. -/
theorem Numbers.mem_of_reads (hs : s.Numbers a q) {id r : NodeId} (hid : id ∈ q.nodes)
    (hr : a.Reads id r) : r ∈ q.nodes := by
  obtain ⟨n, hn, hsub, -⟩ := hs.members id hid
  exact hsub ((Arena.reads_iff hn).1 hr)

/-- A rectifier is about a rectifying member and the member that it reads. -/
theorem Numbers.exists_of_mem_relus (hs : s.Numbers a q) {r : Rectifier} (hr : r ∈ s.relus) :
    ∃ id n input relaxed, q.nodes[r.output]? = some id ∧ a.get? id = some n ∧
      n.kind = .relu input relaxed ∧ input ∈ q.nodes ∧ r.input = List.idxOf input q.nodes := by
  obtain ⟨i, id, n, hid, hn, hrec⟩ := (hs.relus r).1 hr
  cases hk : n.kind with
  | relu input relaxed =>
    rw [rectifierOf, hk] at hrec
    cases hrec
    have hread : a.Reads id input := by
      rw [Arena.reads_iff hn, Node.references, hk]
      exact List.mem_singleton_self input
    exact ⟨id, n, input, relaxed, hid, hn, hk,
      hs.mem_of_reads (List.mem_of_getElem? hid) hread, rfl⟩
  | plain => simp [rectifierOf, hk] at hrec
  | affine terms bias => simp [rectifierOf, hk] at hrec
  | abs input => simp [rectifierOf, hk] at hrec

omit [Scalar α] in
theorem unassignedTerms_append (v : Assignment α) (ts us : List (Nat × α)) :
    unassignedTerms v (ts ++ us) = unassignedTerms v ts ++ unassignedTerms v us := by
  simp [unassignedTerms]

/-- A sum has no open term exactly when all its nodes have values. -/
theorem Numbers.unassignedTerms_eq_nil_iff (hs : s.Numbers a q) {terms : Terms α}
    (hnodes : terms.nodes ⊆ q.nodes) :
    unassignedTerms v (terms.map fun p => (List.idxOf p.2 q.nodes, p.1)) = [] ↔
      ∀ r ∈ terms.nodes, (s.valueOf? v r).isSome := by
  have hterm : ∀ p ∈ terms, (v.value? (List.idxOf p.2 q.nodes)).isSome ↔
      (s.valueOf? v p.2).isSome := by
    intro p hp
    rw [hs.valueOf?_eq v (hnodes (List.mem_map.2 ⟨p, hp, rfl⟩))]
  rw [unassignedTerms, List.filter_eq_nil_iff]
  simp only [List.forall_mem_map, Terms.nodes, Bool.not_eq_true, Option.isNone_eq_false_iff]
  exact forall₂_congr hterm

omit [Scalar α] in
/-- What an affine member reads. -/
theorem reads_affine_iff {id : NodeId} {n : Node α} {terms : Terms α} {bias : α}
    (hn : a.get? id = some n) (hkind : n.kind = .affine terms bias) {r : NodeId} :
    a.Reads id r ↔ r ∈ terms.nodes := by
  rw [Arena.reads_iff hn, Node.references, hkind]
  rfl

/-- The terms of an affine member are members. -/
theorem Numbers.terms_subset (hs : s.Numbers a q) {id : NodeId} {n : Node α}
    {terms : Terms α} {bias : α} (hid : id ∈ q.nodes) (hn : a.get? id = some n)
    (hkind : n.kind = .affine terms bias) : terms.nodes ⊆ q.nodes := by
  obtain ⟨m, hm, hsub, -⟩ := hs.members id hid
  obtain rfl : n = m := by simpa [hn] using hm
  rw [Node.references, hkind] at hsub
  exact hsub

/-- The only open term of an equality belongs to the definition of an affine member. Either it is
the member itself, and all that it reads has values; or the member has a value, and the term is on a
node that it reads. -/
theorem Numbers.open_term_cases (hs : s.Numbers a q)
    (hnoEq : ∀ e ∈ q.equations, e.comparator ≠ .eq) {c : Constraint α} {i : Nat} {coefficient : α}
    (hc : c ∈ s.constraints) (hkind : c.kind = .eq)
    (hopen : unassignedTerms v c.terms = [(i, coefficient)]) :
    ∃ j id n terms bias, q.nodes[j]? = some id ∧ a.get? id = some n ∧
      n.kind = .affine terms bias ∧ definitionOf q.nodes j n = some c ∧ v.value? i = none ∧
      ((i = j ∧ coefficient = -1 ∧ ∀ r ∈ terms.nodes, (s.valueOf? v r).isSome) ∨
        ((s.valueOf? v id).isSome ∧ ∃ r, (coefficient, r) ∈ terms ∧ q.nodes[i]? = some r)) := by
  rcases (hs.constraints c).1 hc with ⟨j, id, n, hid, hn, hdef⟩ | ⟨e, he, rfl⟩
  · have hmem := List.mem_of_getElem? hid
    have hi : v.value? i = none := (mem_unassignedTerms.1 (hopen ▸ List.mem_singleton_self _)).2
    cases hk : n.kind with
    | affine terms bias =>
      have hnodes := hs.terms_subset hmem hn hk
      have hdef' := hdef
      rw [definitionOf, hk] at hdef'
      cases hdef'
      refine ⟨j, id, n, terms, bias, hid, hn, hk, hdef, hi, ?_⟩
      rw [unassignedTerms_append] at hopen
      cases hj : v.value? j with
      | some y =>
        have hself : unassignedTerms v [(j, (-1 : α))] = [] := by
          simp [unassignedTerms, hj]
        rw [hself, List.append_nil] at hopen
        have hterm : (i, coefficient) ∈ terms.map fun p => (List.idxOf p.2 q.nodes, p.1) :=
          (mem_unassignedTerms.1 (hopen ▸ List.mem_singleton_self _)).1
        obtain ⟨⟨_, r⟩, hr, heq⟩ := List.mem_map.1 hterm
        obtain ⟨rfl, rfl⟩ := Prod.mk.inj heq
        refine .inr ⟨?_, r, hr, getElem?_idxOf (hnodes (List.mem_map_of_mem hr))⟩
        rw [hs.valueOf?_eq v hmem, idxOf_eq q.nodes_nodup hid, hj]
        rfl
      | none =>
        have hself : unassignedTerms v [(j, (-1 : α))] = [(j, -1)] := by
          simp [unassignedTerms, hj]
        rw [hself] at hopen
        have hnone : unassignedTerms v (terms.map fun p => (List.idxOf p.2 q.nodes, p.1)) = [] := by
          have hlen := congrArg List.length hopen
          rw [List.length_append, List.length_singleton, List.length_singleton] at hlen
          exact List.length_eq_zero_iff.1 (by omega)
        have hvalues := (hs.unassignedTerms_eq_nil_iff hnodes).1 hnone
        rw [hnone, List.nil_append] at hopen
        cases hopen
        exact .inl ⟨rfl, rfl, hvalues⟩
    | plain => simp [definitionOf, hk] at hdef
    | relu r relaxed => simp [definitionOf, hk] at hdef
    | abs r => simp [definitionOf, hk] at hdef
  · exact absurd hkind (hnoEq e he)

/-- The number of a member is below the number of variables. -/
theorem Numbers.idxOf_lt_size (hs : s.Numbers a q) {id : NodeId} (hid : id ∈ q.nodes) :
    List.idxOf id q.nodes < s.size := by
  rw [size, hs.ids]
  exact List.idxOf_lt_length_of_mem hid

/-- Inputs start with a value, and so do members whose bounds coincide. -/
theorem Numbers.isSome_seed (hs : s.Numbers a q) (hlen : xs.length = q.inputs.length)
    {id : NodeId} (hid : id ∈ q.nodes) {n : Node α} (hn : a.get? id = some n)
    (h : id ∈ q.inputs ∨ n.bounds.fixedValue?.isSome) :
    ((s.seed xs).value? (List.idxOf id q.nodes)).isSome := by
  refine ConstraintSystem.isSome_seed (hs.idxOf_lt_size hid)
    (by rw [hs.inputs, List.length_map, hlen]) ?_
  rcases h with hinput | hfixed
  · rw [hs.inputs]
    exact .inl (List.mem_map.2 ⟨id, hinput, rfl⟩)
  · exact .inr ⟨n.bounds, by simp [hs.bounds, getElem?_idxOf hid, hn], hfixed⟩

/-- Where no rule applies, an affine member has a value if the nodes it reads have one. -/
theorem Stable.isSome_affine (h : s.Stable v) (hs : s.Numbers a q) {id : NodeId}
    (hid : id ∈ q.nodes) {n : Node α} (hn : a.get? id = some n) {terms : Terms α} {bias : α}
    (hk : n.kind = .affine terms bias) (hvalues : ∀ r ∈ terms.nodes, (s.valueOf? v r).isSome) :
    (v.value? (List.idxOf id q.nodes)).isSome := by
  have hclosed := (hs.unassignedTerms_eq_nil_iff (hs.terms_subset hid hn hk)).2 hvalues
  have hc := (hs.constraints _).2
    (.inl ⟨_, id, n, getElem?_idxOf hid, hn, by rw [definitionOf, hk]⟩)
  -- Otherwise the member itself is the only open term of its definition.
  by_contra hnone
  have hself : unassignedTerms v [(List.idxOf id q.nodes, (-1 : α))] =
      [(List.idxOf id q.nodes, -1)] := by
    simpa [unassignedTerms] using hnone
  refine h.constraints _ hc rfl ?_
  rw [unassignedTerms_append, hclosed, hself]
  rfl

/-- Where no rule applies, a rectifier has a value if the node it reads has one. -/
theorem Stable.isSome_relu (h : s.Stable v) (hs : s.Numbers a q) {id : NodeId}
    (hid : id ∈ q.nodes) {n : Node α} (hn : a.get? id = some n) {input : NodeId}
    {relaxed : Bool} (hk : n.kind = .relu input relaxed) (hin : input ∈ q.nodes)
    (hvalue : (s.valueOf? v input).isSome) : (v.value? (List.idxOf id q.nodes)).isSome := by
  have hr := (hs.relus _).2 ⟨_, id, n, getElem?_idxOf hid, hn, by rw [rectifierOf, hk]⟩
  refine h.relus _ hr ?_
  rwa [← hs.valueOf?_eq v hin]

/-- The members without a value are those behind the unassigned variables. -/
theorem Numbers.filter_isNone_eq (hs : s.Numbers a q) (hsize : v.size = s.size) :
    (q.nodes.filter fun id => (s.valueOf? v id).isNone) =
      v.unassigned.map fun i => q.nodes[i]?.getD 0 := by
  have hlen : v.size = q.nodes.length := by rw [hsize, size, hs.ids]
  have hnodes : q.nodes = (List.range v.size).map fun i => q.nodes[i]?.getD 0 := by
    refine List.ext_getElem (by simp [hlen]) ?_
    intro i h₁ h₂
    simp [h₁]
  conv_lhs => rw [hnodes]
  rw [List.filter_map, Assignment.unassigned]
  refine congrArg _ (List.filter_congr ?_)
  intro i hi
  have hget : q.nodes[i]? = some (q.nodes[i]?.getD 0) := by
    rw [List.mem_range, hlen] at hi
    simp [hi]
  rw [Function.comp_apply, hs.valueOf?_eq v (List.mem_of_getElem? hget),
    idxOf_eq q.nodes_nodup hget]

/-- What evaluation returns is the outcome of propagation, if no member is left without a value. -/
theorem Numbers.forward_eq (hs : s.Numbers a q) (hlen : xs.length = q.inputs.length)
    (hv : s.propagate ((s.seed xs).unassigned.length + 1) (s.seed xs) = .ok v)
    (hsize : v.size = s.size) :
    s.forward xs =
      match q.nodes.filter fun id => (s.valueOf? v id).isNone with
      | [] => .ok v
      | id :: ids => .error (.incomplete (ids.length + 1) (a.name id)) := by
  rw [forward, if_neg (by rw [hs.inputs, List.length_map, hlen]; simp)]
  simp only [hv, hs.filter_isNone_eq hsize]
  cases hu : v.unassigned with
  | nil => rfl
  | cons i is =>
    have hi : i < q.nodes.length := by
      have hmem : i ∈ v.unassigned := by rw [hu]; exact List.mem_cons_self ..
      have := (Assignment.mem_unassigned.1 hmem).1
      rwa [hsize, size, hs.ids] at this
    simp [name, hs.names, hi]

end ConstraintSystem

end PiecewiseNet
