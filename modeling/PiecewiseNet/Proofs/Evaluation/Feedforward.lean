import PiecewiseNet.Proofs.Dependence
import PiecewiseNet.Proofs.Evaluation.Forced
import PiecewiseNet.Proofs.Evaluation.Members

/-!
# Propagation on feed-forward queries

On a query without cycles and without equalities, whose only fixed members are free nodes,
propagation never solves an equation backwards. It computes every member from the members it reads,
and stops exactly at those that depend on a free node without a value.

## Main definitions

- `Query.Feedforward`: the queries in question.
- `Query.Computes`: the value of a member by recursion on its definition.
- `Query.Undetermined`: a free member without a value of its own.
- `ConstraintSystem.Forward`: the values so far are computed ones, and closed under references.

## Main statements

- `ConstraintSystem.Forward.step`: a step keeps this.
- `ConstraintSystem.forward_of_feedforward`: what propagation assigns, and what it returns.
-/

namespace PiecewiseNet

namespace Query

variable {α : Type} [Scalar α]

/-- A query that propagation evaluates forwards. -/
structure Feedforward (q : Query α) (a : Arena α) : Prop where
  /-- The members are in the arena and read members only. -/
  integrity : q.checkIntegrity a = .ok ()
  noAbs : ∀ id ∈ q.nodes, ∀ n, a.get? id = some n → ConstraintSystem.isAbs n = false
  noEq : ∀ e ∈ q.equations, e.comparator ≠ .eq
  acyclic : q.Acyclic a
  inputs_nodup : q.inputs.Nodup
  inputs_free : ∀ id ∈ q.inputs, Network.IsFree a id
  /-- Only the bounds of free nodes coincide. -/
  fixed_free : ∀ id ∈ q.nodes, ∀ n, a.get? id = some n → n.bounds.fixedValue?.isSome →
    n.kind = .plain

/-- The value of a member by recursion on its definition, given the values of the inputs. -/
inductive Computes (q : Query α) (a : Arena α) (xs : List α) : NodeId → α → Prop where
  /-- A fixed free member has its fixed value, even when it is an input. -/
  | fixed {id : NodeId} {n : Node α} {y : α} (hid : id ∈ q.nodes) (hn : a.get? id = some n)
      (hkind : n.kind = .plain) (hy : n.bounds.fixedValue? = some y) : Computes q a xs id y
  /-- Any other input has the given value. -/
  | input {id : NodeId} {n : Node α} {y : α} (hn : a.get? id = some n)
      (hkind : n.kind = .plain) (hfree : n.bounds.fixedValue? = none)
      (hy : (id, y) ∈ q.inputs.zip xs) : Computes q a xs id y
  /-- An affine member has the value of its sum, taken from the left, plus its constant. -/
  | affine {id : NodeId} {n : Node α} {terms : Terms α} {bias : α} {w : Valuation α}
      (hn : a.get? id = some n) (hkind : n.kind = .affine terms bias)
      (hw : ∀ r ∈ terms.nodes, Computes q a xs r (w r)) :
      Computes q a xs id (terms.value w + bias)
  /-- A rectifier has the positive part of what it reads. -/
  | relu {id r : NodeId} {n : Node α} {relaxed : Bool} {y : α} (hn : a.get? id = some n)
      (hkind : n.kind = .relu r relaxed) (hy : Computes q a xs r y) :
      Computes q a xs id (Scalar.positivePart y)

/-- A free member that is neither an input nor fixed. -/
def Undetermined (q : Query α) (a : Arena α) (id : NodeId) : Prop :=
  id ∉ q.inputs ∧ ∃ n, a.get? id = some n ∧ n.kind = .plain ∧ n.bounds.fixedValue? = none

omit [Scalar α] in
/-- Distinct inputs have one value each. -/
theorem zip_right_unique {ids : List NodeId} {xs : List α} (hnd : ids.Nodup) {id : NodeId}
    {y z : α} (hy : (id, y) ∈ ids.zip xs) (hz : (id, z) ∈ ids.zip xs) : y = z := by
  obtain ⟨i, hi⟩ := List.mem_iff_getElem?.1 hy
  obtain ⟨j, hj⟩ := List.mem_iff_getElem?.1 hz
  rw [List.getElem?_zip_eq_some] at hi hj
  have hij : i = j := by
    rw [← ConstraintSystem.idxOf_eq hnd hi.1, ConstraintSystem.idxOf_eq hnd hj.1]
  subst hij
  simpa [hi.2] using hj.2

/-- A member has at most one value. -/
theorem Computes.unique {q : Query α} {a : Arena α} {xs : List α} (hnd : q.inputs.Nodup)
    {id : NodeId} {y z : α} (hy : q.Computes a xs id y) (hz : q.Computes a xs id z) : y = z := by
  induction hy generalizing z with
  | fixed hid hn hkind hb =>
    cases hz with
    | fixed hid' hn' hkind' hb' => simp_all
    | input hn' hkind' hb' hz => simp_all
    | affine hn' hkind' hw' => simp_all
    | relu hn' hkind' hz => simp_all
  | input hn hkind hb hy =>
    cases hz with
    | fixed hid' hn' hkind' hb' => simp_all
    | input hn' hkind' hb' hz => exact zip_right_unique hnd hy hz
    | affine hn' hkind' hw' => simp_all
    | relu hn' hkind' hz => simp_all
  | affine hn hkind hw ih =>
    cases hz with
    | fixed hid' hn' hkind' hb' => simp_all
    | input hn' hkind' hb' hz => simp_all
    | affine hn' hkind' hw' =>
      rw [hn] at hn'
      cases hn'
      rw [hkind] at hkind'
      cases hkind'
      rw [Terms.value_congr fun r hr => ih r hr (hw' r hr)]
    | relu hn' hkind' hz => simp_all
  | relu hn hkind hy ih =>
    cases hz with
    | fixed hid' hn' hkind' hb' => simp_all
    | input hn' hkind' hb' hz => simp_all
    | affine hn' hkind' hw' => simp_all
    | relu hn' hkind' hz =>
      rw [hn] at hn'
      cases hn'
      rw [hkind] at hkind'
      cases hkind'
      rw [ih hz]

/-- A member with a computed value depends on no undetermined node. -/
theorem Computes.not_undetermined {q : Query α} {a : Arena α} {xs : List α} {id : NodeId} {y : α}
    (h : q.Computes a xs id y) : ∀ p, a.DependsOn id p → ¬q.Undetermined a p := by
  induction h with
  | @fixed id n y hid hn hkind hy =>
    rintro p hp ⟨hinput, m, hm, hk, hfree⟩
    rcases Relation.ReflTransGen.cases_head hp with rfl | ⟨r, hread, -⟩
    · simp_all
    · rw [Arena.reads_iff hn, Node.references, hkind] at hread
      cases hread
  | @input id n y hn hkind hfree hy =>
    rintro p hp ⟨hinput, hund⟩
    rcases Relation.ReflTransGen.cases_head hp with rfl | ⟨r, hread, -⟩
    · exact hinput (List.of_mem_zip hy).1
    · rw [Arena.reads_iff hn, Node.references, hkind] at hread
      cases hread
  | @affine id n terms bias w hn hkind hw ih =>
    intro p hp hund
    rcases Relation.ReflTransGen.cases_head hp with rfl | ⟨r, hread, hrest⟩
    · obtain ⟨-, m, hm, hk, -⟩ := hund
      simp_all
    · rw [Arena.reads_iff hn, Node.references, hkind] at hread
      exact ih r hread p hrest hund
  | @relu id r n relaxed y hn hkind hy ih =>
    intro p hp hund
    rcases Relation.ReflTransGen.cases_head hp with rfl | ⟨j, hread, hrest⟩
    · obtain ⟨-, m, hm, hk, -⟩ := hund
      simp_all
    · rw [Arena.reads_iff hn, Node.references, hkind] at hread
      rw [List.mem_singleton.1 hread] at hrest
      exact ih p hrest hund

end Query

namespace ConstraintSystem

variable {s : ConstraintSystem Rat} {a : Arena Rat} {q : Query Rat} {xs : List Rat}
  {v v' : Assignment Rat}

/-- Every member that has a value has the computed one, and so has every node that it reads. -/
structure Forward (s : ConstraintSystem Rat) (a : Arena Rat) (q : Query Rat) (xs : List Rat)
    (v : Assignment Rat) : Prop where
  /-- The values are computed ones. -/
  computes : ∀ id ∈ q.nodes, ∀ y, s.valueOf? v id = some y → q.Computes a xs id y
  /-- What a member with a value reads has a value too. -/
  closed : ∀ id ∈ q.nodes, (s.valueOf? v id).isSome → ∀ r, a.Reads id r → (s.valueOf? v r).isSome

/-- A computed value for a member, all of whose references have values. -/
theorem Forward.assign (h : s.Forward a q xs v) (hs : s.Numbers a q) {i : Nat} {id : NodeId}
    {y : Rat} (hid : q.nodes[i]? = some id) (hv : v.value? i = none)
    (hy : q.Computes a xs id y) (hrefs : ∀ r, a.Reads id r → (s.valueOf? v r).isSome) :
    s.Forward a q xs (v.assign i y) := by
  refine ⟨?_, ?_⟩
  · intro j hj z hz
    rcases hs.valueOf?_assign_cases hid hj hz with ⟨rfl, rfl⟩ | hold
    · exact hy
    · exact h.computes j hj z hold
  · intro j hj hsome r hr
    refine hs.isSome_valueOf?_assign y hv (hs.mem_of_reads hj hr) ?_
    obtain ⟨z, hz⟩ := Option.isSome_iff_exists.1 hsome
    rcases hs.valueOf?_assign_cases hid hj hz with ⟨rfl, rfl⟩ | hold
    · exact hrefs r hr
    · exact h.closed j hj (by rw [hold]; rfl) r hr

/-- The only open term of an equality is the member that the equality defines, since that member
cannot have got its value before the nodes it reads. -/
theorem Forward.open_term (h : s.Forward a q xs v) (hs : s.Numbers a q) (hq : q.Feedforward a)
    {c : Constraint Rat} {i : Nat} {coefficient : Rat} (hc : c ∈ s.constraints)
    (hkind : c.kind = .eq) (hopen : unassignedTerms v c.terms = [(i, coefficient)]) :
    ∃ id n terms bias, q.nodes[i]? = some id ∧ a.get? id = some n ∧ n.kind = .affine terms bias ∧
      definitionOf q.nodes i n = some c ∧ coefficient = -1 ∧ v.value? i = none ∧
      ∀ r ∈ terms.nodes, (s.valueOf? v r).isSome := by
  obtain ⟨j, id, n, terms, bias, hid, hn, hk, hdef, hi, ⟨rfl, hcoefficient, hvalues⟩ |
    ⟨hsome, r, hr, hri⟩⟩ := hs.open_term_cases hq.noEq hc hkind hopen
  · exact ⟨id, n, terms, bias, hid, hn, hk, hdef, hcoefficient, hi, hvalues⟩
  · -- All the nodes that a member with a value reads have values as well, and no term is open.
    have hread : a.Reads id r := (reads_affine_iff hn hk).2 (List.mem_map_of_mem hr)
    have hvalue := h.closed id (List.mem_of_getElem? hid) hsome r hread
    rw [hs.valueOf?_eq v (List.mem_of_getElem? hri), idxOf_eq q.nodes_nodup hri, hi] at hvalue
    cases hvalue

/-- An affine member's equality gives it the value of its sum plus its constant. -/
theorem Numbers.solution_definition (hs : s.Numbers a q) {i : Nat} {n : Node Rat}
    {terms : Terms Rat} {bias : Rat} {c : Constraint Rat} (hkind : n.kind = .affine terms bias)
    (hdef : definitionOf q.nodes i n = some c) (hv : v.value? i = none)
    (hnodes : terms.nodes ⊆ q.nodes) (hvalues : ∀ r ∈ terms.nodes, (s.valueOf? v r).isSome) :
    solution v c (-1) = terms.value (fun r => (s.valueOf? v r).getD 0) + bias := by
  have hagree : v.AgreesWith fun j => (v.value? j).getD 0 := by
    intro j y hy
    simp [hy]
  have hterms : weightedSum (fun j => (v.value? j).getD 0)
      (terms.map fun p => (List.idxOf p.2 q.nodes, p.1)) =
      terms.value fun r => (s.valueOf? v r).getD 0 := by
    refine weightedSum_map_idxOf ?_
    intro r hr
    rw [hs.valueOf?_eq v (hnodes hr)]
  rw [weightedSum_eq_add hagree, (hs.unassignedTerms_eq_nil_iff hnodes).2 hvalues] at hterms
  rw [definitionOf, hkind] at hdef
  cases hdef
  have hself : addAssigned v (assignedSum v (terms.map fun p => (List.idxOf p.2 q.nodes, p.1)))
      (i, -1) = assignedSum v (terms.map fun p => (List.idxOf p.2 q.nodes, p.1)) := by
    rw [addAssigned, hv]
  rw [solution, assignedSum, List.foldl_append, List.foldl_cons, List.foldl_nil, ← assignedSum,
    hself, ← hterms, weightedSum, List.foldl_nil, div_neg, div_one, neg_neg]
  ring

/-- A step keeps the values computed ones, and closed under references. -/
theorem Forward.step (h : s.Forward a q xs v) (hs : s.Numbers a q) (hq : q.Feedforward a)
    (hstep : s.Step v v') : s.Forward a q xs v' := by
  have hcomputed : ∀ r ∈ q.nodes, (s.valueOf? v r).isSome →
      q.Computes a xs r ((s.valueOf? v r).getD 0) := by
    intro r hr hsome
    obtain ⟨y, hy⟩ := Option.isSome_iff_exists.1 hsome
    rw [hy, Option.getD_some]
    exact h.computes r hr y hy
  cases hstep with
  | @solve c i coefficient hc hkind hopen hne =>
    obtain ⟨id, n, terms, bias, hid, hn, hk, hdef, rfl, hv, hvalues⟩ :=
      h.open_term hs hq hc hkind hopen
    have hnodes := hs.terms_subset (List.mem_of_getElem? hid) hn hk
    rw [hs.solution_definition hk hdef hv hnodes hvalues]
    refine h.assign hs hid hv (.affine hn hk ?_) ?_
    · intro r hr
      exact hcomputed r (hnodes hr) (hvalues r hr)
    · intro r hr
      exact hvalues r ((reads_affine_iff hn hk).1 hr)
  | @rectify r y hr hin hout =>
    obtain ⟨id, n, input, relaxed, hid, hn, hk, hinput, hidx⟩ := hs.exists_of_mem_relus hr
    have hvalue : s.valueOf? v input = some y := by
      rw [hs.valueOf?_eq v hinput, ← hidx]
      exact hin
    refine h.assign hs hid hout (.relu hn hk (h.computes input hinput y hvalue)) ?_
    intro j hj
    rw [Arena.reads_iff hn, Node.references, hk] at hj
    rw [List.mem_singleton.1 hj, hvalue]
    rfl

theorem Forward.steps (h : s.Forward a q xs v) (hs : s.Numbers a q) (hq : q.Feedforward a)
    (hsteps : Relation.ReflTransGen s.Step v v') : s.Forward a q xs v' := by
  induction hsteps with
  | refl => exact h
  | tail _ hstep ih => exact ih.step hs hq hstep

/-- No equality is degenerate: the term it is solved for has coefficient minus one. -/
theorem Forward.not_degenerate (h : s.Forward a q xs v) (hs : s.Numbers a q)
    (hq : q.Feedforward a) {c : Constraint Rat} {i : Nat} (hc : c ∈ s.constraints) :
    ¬Degenerate v c i := by
  rintro ⟨hkind, coefficient, hopen, hzero⟩
  obtain ⟨id, n, terms, bias, -, -, -, -, rfl, -⟩ := h.open_term hs hq hc hkind hopen
  simp at hzero

/-- The seeded values are computed ones, and closed under references: only free members are
seeded. -/
theorem forward_seed (hs : s.Numbers a q) (hq : q.Feedforward a) :
    s.Forward a q xs (s.seed xs) := by
  have hseed : ∀ id ∈ q.nodes, ∀ y, s.valueOf? (s.seed xs) id = some y →
      q.Computes a xs id y ∧ ∀ r, ¬a.Reads id r := by
    intro id hid y hy
    rw [hs.valueOf?_eq _ hid] at hy
    obtain ⟨n, hn, -, -⟩ := hs.members id hid
    have hbounds : s.bounds[List.idxOf id q.nodes]? = some n.bounds := by
      rw [hs.bounds, getElem?_idxOf hid]
      simp [hn]
    have hplain : n.kind = .plain → ∀ r, ¬a.Reads id r := by
      intro hk r hr
      rw [Arena.reads_iff hn, Node.references, hk] at hr
      cases hr
    rcases seed_eq_some hy with ⟨l, hb, heq⟩ | ⟨hmem, hfree⟩
    · rw [hbounds] at hb
      have hfix : n.bounds.fixedValue? = some y := by
        have hl : l = y := by simpa using heq
        rw [Option.some.inj hb, hl]
        simp [Interval.fixedValue?]
      have hk := hq.fixed_free id hid n hn (by rw [hfix]; rfl)
      exact ⟨.fixed hid hn hk hfix, hplain hk⟩
    · have hpair : (id, y) ∈ q.inputs.zip xs := by
        rw [hs.inputs, List.zip_map_left] at hmem
        obtain ⟨⟨j, z⟩, hjz, heq⟩ := List.mem_map.1 hmem
        simp only [Prod.map_apply, id_eq, Prod.mk.injEq] at heq
        obtain ⟨hidx, rfl⟩ := heq
        have hj := getElem?_idxOf (q.inputs_subset (List.of_mem_zip hjz).1)
        rw [hidx, getElem?_idxOf hid] at hj
        cases hj
        exact hjz
      obtain ⟨m, hm, hk⟩ := hq.inputs_free id (List.of_mem_zip hpair).1
      obtain rfl : n = m := by simpa [hn] using hm
      exact ⟨.input hn hk (hfree _ hbounds) hpair, hplain hk⟩
  refine ⟨fun id hid y hy => (hseed id hid y hy).1, ?_⟩
  intro id hid hsome r hr
  obtain ⟨y, hy⟩ := Option.isSome_iff_exists.1 hsome
  exact absurd hr ((hseed id hid y hy).2 r)

/-- A member with a value depends on no undetermined node. -/
theorem Forward.not_undetermined (h : s.Forward a q xs v) (hs : s.Numbers a q) {id p : NodeId}
    (hid : id ∈ q.nodes) (hsome : (s.valueOf? v id).isSome) (hp : a.DependsOn id p) :
    ¬q.Undetermined a p := by
  have hvalue : p ∈ q.nodes ∧ (s.valueOf? v p).isSome := by
    induction hp with
    | refl => exact ⟨hid, hsome⟩
    | @tail j r _ hread ih =>
      exact ⟨hs.mem_of_reads ih.1 hread, h.closed j ih.1 ih.2 r hread⟩
  obtain ⟨y, hy⟩ := Option.isSome_iff_exists.1 hvalue.2
  rintro ⟨hinput, n, hn, hk, hfree⟩
  cases h.computes p hvalue.1 y hy with
  | fixed hid' hn' hkind' hfix => simp_all
  | input hn' hkind' hfree' hz => exact hinput (List.of_mem_zip hz).1
  | affine hn' hkind' hw => simp_all
  | relu hn' hkind' hz => simp_all

/-- A free member starts with a value unless it is undetermined. -/
theorem isSome_seed_of_not_undetermined (hs : s.Numbers a q) (hlen : xs.length = q.inputs.length)
    {id : NodeId} (hid : id ∈ q.nodes) {n : Node Rat} (hn : a.get? id = some n)
    (hk : n.kind = .plain) (hdet : ¬q.Undetermined a id) :
    ((s.seed xs).value? (List.idxOf id q.nodes)).isSome := by
  refine hs.isSome_seed hlen hid hn ?_
  by_cases hinput : id ∈ q.inputs
  · exact .inl hinput
  · refine .inr ?_
    by_contra hnone
    exact hdet ⟨hinput, n, hn, hk, by simpa using hnone⟩

/-- Where no rule applies any more, every member that depends on no undetermined node has a
value. -/
theorem Forward.isSome_of_stable (hs : s.Numbers a q) (hq : q.Feedforward a)
    (hlen : xs.length = q.inputs.length) (hext : (s.seed xs).ExtendedBy v) (hstable : s.Stable v) :
    ∀ id ∈ q.nodes, (∀ p, a.DependsOn id p → ¬q.Undetermined a p) → (s.valueOf? v id).isSome := by
  refine hq.acyclic.induction ?_
  intro id hid ih hdet
  obtain ⟨n, hn, hsub, habs⟩ := hs.members id hid
  have hread : ∀ r ∈ n.references, (s.valueOf? v r).isSome := by
    intro r hr
    have hreads := (Arena.reads_iff hn).2 hr
    exact ih r (hsub hr) hreads fun p hp => hdet p (.head hreads hp)
  rw [hs.valueOf?_eq v hid]
  cases hk : n.kind with
  | plain =>
    obtain ⟨y, hy⟩ := Option.isSome_iff_exists.1
      (isSome_seed_of_not_undetermined hs hlen hid hn hk (hdet id .refl))
    rw [hext.value _ y hy]
    rfl
  | affine terms bias =>
    rw [Node.references, hk] at hread
    exact hstable.isSome_affine hs hid hn hk hread
  | relu input relaxed =>
    have hinput : input ∈ n.references := by
      rw [Node.references, hk]
      exact List.mem_singleton.2 rfl
    exact hstable.isSome_relu hs hid hn hk (hsub hinput) (hread input hinput)
  | abs input => simp [isAbs, hk] at habs

/-- On a feed-forward query propagation ends without failing. Its values are computed ones, and it
assigns exactly the members that do not depend on an undetermined node. -/
theorem exists_propagate (hq : q.Feedforward a) (hlen : xs.length = q.inputs.length) :
    ∃ s v, ofQuery a q = .ok s ∧
      s.propagate ((s.seed xs).unassigned.length + 1) (s.seed xs) = .ok v ∧
      s.Forward a q xs v ∧ v.size = s.size ∧
      ∀ id ∈ q.nodes, (s.valueOf? v id).isSome ↔ ∀ p, a.DependsOn id p → ¬q.Undetermined a p := by
  obtain ⟨s, hofQuery⟩ := ofQuery_ok hq.integrity hq.noAbs
  have hs := ofQuery_eq_ok hofQuery
  have hseed : s.Forward a q xs (s.seed xs) := forward_seed hs hq
  cases hv : s.propagate ((s.seed xs).unassigned.length + 1) (s.seed xs) with
  | error e =>
    obtain ⟨u, hsteps, j, c, i, hc, hdeg, -⟩ := degenerate_of_propagate hv
    exact absurd hdeg
      ((hseed.steps hs hq hsteps).not_degenerate hs hq (List.mem_of_getElem? hc))
  | ok v =>
    have hsteps := steps_of_propagate hv
    have hext := extendedBy_of_steps hsteps
    have hforward := hseed.steps hs hq hsteps
    have hstable := stable_of_propagate hs.inRange (size_seed s xs) (Nat.lt_succ_self _) hv
    refine ⟨s, v, hofQuery, hv, hforward, hext.size.trans (size_seed s xs), ?_⟩
    intro id hid
    constructor
    · intro hsome p hp
      exact hforward.not_undetermined hs hid hsome hp
    · exact Forward.isSome_of_stable hs hq hlen hext hstable id hid

/-- Where no member is undetermined, evaluation returns the computed value of every member. -/
theorem exists_forward (hq : q.Feedforward a) (hlen : xs.length = q.inputs.length)
    (hdet : ∀ id ∈ q.nodes, ¬q.Undetermined a id) :
    ∃ s v, ofQuery a q = .ok s ∧ s.forward xs = .ok v ∧
      ∀ id ∈ q.nodes, ∃ y, s.valueOf? v id = some y ∧ q.Computes a xs id y := by
  obtain ⟨s, v, hofQuery, hv, hforward, hsize, hassigned⟩ := exists_propagate hq hlen
  have hs := ofQuery_eq_ok hofQuery
  -- What a member depends on is a member.
  have hmember : ∀ id ∈ q.nodes, ∀ p, a.DependsOn id p → p ∈ q.nodes := by
    intro id hid p hp
    induction hp with
    | refl => exact hid
    | tail _ hread ih => exact hs.mem_of_reads ih hread
  have hvalues : ∀ id ∈ q.nodes, (s.valueOf? v id).isSome := by
    intro id hid
    exact (hassigned id hid).2 fun p hp => hdet p (hmember id hid p hp)
  refine ⟨s, v, hofQuery, ?_, ?_⟩
  · have hnone : (q.nodes.filter fun id => (s.valueOf? v id).isNone) = [] := by
      rw [List.filter_eq_nil_iff]
      intro id hid
      simp [Option.isSome_iff_ne_none.1 (hvalues id hid)]
    rw [hs.forward_eq hlen hv hsize, hnone]
  · intro id hid
    obtain ⟨y, hy⟩ := Option.isSome_iff_exists.1 (hvalues id hid)
    exact ⟨y, hy, hforward.computes id hid y hy⟩

/-- On a feed-forward query propagation ends without failing. It assigns exactly the members that
do not depend on an undetermined node, each with its computed value. It returns this assignment if
no member is left out, and otherwise reports how many are and which is the first. -/
theorem forward_of_feedforward (hq : q.Feedforward a) (hlen : xs.length = q.inputs.length) :
    ∃ s v, ofQuery a q = .ok s ∧
      s.propagate ((s.seed xs).unassigned.length + 1) (s.seed xs) = .ok v ∧
      (∀ id ∈ q.nodes,
        (s.valueOf? v id).isSome ↔ ∀ p, a.DependsOn id p → ¬q.Undetermined a p) ∧
      (∀ id ∈ q.nodes, ∀ y, s.valueOf? v id = some y ↔ q.Computes a xs id y) ∧
      s.forward xs =
        match q.nodes.filter fun id => (s.valueOf? v id).isNone with
        | [] => .ok v
        | id :: ids => .error (.incomplete (ids.length + 1) (a.name id)) := by
  obtain ⟨s, v, hofQuery, hv, hforward, hsize, hassigned⟩ := exists_propagate hq hlen
  have hs := ofQuery_eq_ok hofQuery
  refine ⟨s, v, hofQuery, hv, hassigned, ?_, hs.forward_eq hlen hv hsize⟩
  intro id hid y
  refine ⟨hforward.computes id hid y, ?_⟩
  intro hy
  obtain ⟨z, hz⟩ := Option.isSome_iff_exists.1 ((hassigned id hid).2 hy.not_undetermined)
  rw [hz, hy.unique hq.inputs_nodup (hforward.computes id hid z hz)]

/-- Asks for values of all nodes of the sample, of which the last one is left open. -/
def openQuery : Query Rat where
  nodes := [3, 2, 0, 1]
  inputs := [0]
  outputs := [2]
  equations := [⟨[(1, 2), (1, 3)], .ge, 1⟩]
  nodes_nodup := by decide
  inputs_subset := by decide
  outputs_subset := by decide
  terms_subset := by decide

theorem feedforward_openQuery : openQuery.Feedforward sampleArena where
  integrity := by rfl
  noAbs := by
    have h : ∀ id ∈ openQuery.nodes, ∀ n ∈ sampleArena.get? id, isAbs n = false := by decide
    exact h
  noEq := by decide
  acyclic := Query.acyclic_of_lt (by decide)
  inputs_nodup := by decide
  inputs_free := by
    intro id hid
    rw [List.mem_singleton.1 hid]
    exact ⟨_, rfl, rfl⟩
  fixed_free := by
    have h : ∀ id ∈ openQuery.nodes, ∀ n ∈ sampleArena.get? id,
        n.bounds.fixedValue?.isSome → n.kind = .plain := by decide
    exact h

/-- On input `2` the sample has the computed values, and one node without a value. -/
theorem forward_of_feedforward_openQuery :
    openQuery.Feedforward sampleArena ∧ [(2 : Rat)].length = openQuery.inputs.length ∧
      ∃ s v, ofQuery sampleArena openQuery = .ok s ∧
        s.propagate ((s.seed [2]).unassigned.length + 1) (s.seed [2]) = .ok v ∧
        (∀ id ∈ openQuery.nodes, (s.valueOf? v id).isSome ↔
          ∀ p, sampleArena.DependsOn id p → ¬openQuery.Undetermined sampleArena p) ∧
        (∀ id ∈ openQuery.nodes, ∀ y,
          s.valueOf? v id = some y ↔ openQuery.Computes sampleArena [2] id y) ∧
        s.forward [2] =
          match openQuery.nodes.filter fun id => (s.valueOf? v id).isNone with
          | [] => .ok v
          | id :: ids => .error (.incomplete (ids.length + 1) (sampleArena.name id)) :=
  ⟨feedforward_openQuery, rfl, forward_of_feedforward feedforward_openQuery rfl⟩

end ConstraintSystem

end PiecewiseNet
