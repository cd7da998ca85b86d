import PiecewiseNet.Proofs.Evaluation.Networks
import PiecewiseNet.Proofs.Evaluation.OtherInputs
import PiecewiseNet.Proofs.Network.Checking

/-!
# Completion of propagation

Where the free members are inputs, propagation never ends for want of values. Members whose bounds
coincide start with a value, so their definitions may be solved for the nodes they read, and so may
the definitions of these. Propagation ends early at such a definition only, if it is to be solved
for a node with coefficient zero.

## Main definitions

- `Query.InputDriven`: queries without cycles whose free members are inputs.
- `Query.Early`: the members that may have a value before the nodes that they read.
- `Query.Stuck`: an early member and a node that its definition cannot be solved for.
- `ConstraintSystem.Grounded`: a member with a value is early, or what it reads has values.

## Main statements

- `ConstraintSystem.Grounded.step`: a step keeps this.
- `ConstraintSystem.forward_cases`: evaluation assigns all members or reports a definition that is
  stuck.
- `Network.forward_completes_or_degenerates`: on a network it does the same for all inputs.
-/

namespace PiecewiseNet

variable {α : Type} [Scalar α]

namespace Query

/-- A query without cycles, equalities and absolute values, whose free members are inputs. -/
structure InputDriven (q : Query α) (a : Arena α) : Prop where
  /-- The members are in the arena and read members only. -/
  integrity : q.checkIntegrity a = .ok ()
  noAbs : ∀ id ∈ q.nodes, ∀ n, a.get? id = some n → ConstraintSystem.isAbs n = false
  noEq : ∀ e ∈ q.equations, e.comparator ≠ .eq
  acyclic : q.Acyclic a
  free_inputs : ∀ id ∈ q.nodes, Network.IsFree a id → id ∈ q.inputs

/-- The member may have a value before the nodes that it reads: it is an input, its bounds coincide,
or the definition of such a member is solved for it. -/
inductive Early (q : Query α) (a : Arena α) : NodeId → Prop where
  | input {id : NodeId} (h : id ∈ q.inputs) : Early q a id
  | fixed {id : NodeId} {n : Node α} (hn : a.get? id = some n)
      (h : n.bounds.fixedValue?.isSome) : Early q a id
  | solved {id reader : NodeId} {n : Node α} {terms : Terms α} {bias c : α}
      (hreader : reader ∈ q.nodes) (hearly : Early q a reader) (hn : a.get? reader = some n)
      (hkind : n.kind = .affine terms bias) (hterm : (c, id) ∈ terms) (hc : (c == 0) = false) :
      Early q a id

/-- The definition of an early member has a term with coefficient zero on a node that is neither an
input nor fixed. -/
structure Stuck (q : Query α) (a : Arena α) (id target : NodeId) : Prop where
  early : q.Early a id
  zero : ∃ n terms bias c, a.get? id = some n ∧ n.kind = .affine terms bias ∧
    (c, target) ∈ terms ∧ (c == 0) = true
  not_input : target ∉ q.inputs
  not_fixed : ∀ n, a.get? target = some n → n.bounds.fixedValue? = none

end Query

namespace ConstraintSystem

variable {s : ConstraintSystem α} {a : Arena α} {q : Query α} {xs : List α} {v v' : Assignment α}

/-- A member with a value is early, or all that it reads has values. -/
def Grounded (s : ConstraintSystem α) (a : Arena α) (q : Query α) (v : Assignment α) : Prop :=
  ∀ id ∈ q.nodes, (s.valueOf? v id).isSome →
    q.Early a id ∨ ∀ r, a.Reads id r → (s.valueOf? v r).isSome

/-- What is seeded is early. -/
theorem grounded_seed (hs : s.Numbers a q) (xs : List α) : s.Grounded a q (s.seed xs) := by
  intro id hid hsome
  obtain ⟨y, hy⟩ := Option.isSome_iff_exists.1 hsome
  rw [hs.valueOf?_eq _ hid] at hy
  obtain ⟨n, hn, -⟩ := hs.members id hid
  rcases seed_eq_some hy with ⟨l, hb, heq⟩ | ⟨hmem, -⟩
  · rw [hs.bounds, getElem?_idxOf hid, Option.bind_some, hn, Option.map_some] at hb
    refine .inl (.fixed hn ?_)
    rw [Option.some.inj hb]
    simp [Interval.fixedValue?, heq]
  · have hinput := (List.of_mem_zip hmem).1
    rw [hs.inputs] at hinput
    obtain ⟨j, hj, hidx⟩ := List.mem_map.1 hinput
    obtain rfl := (List.idxOf_inj (q.inputs_subset hj)).1 hidx
    exact .inl (.input hj)

/-- A new value for a member that is early, or all of whose references have values. -/
theorem Grounded.assign (h : s.Grounded a q v) (hs : s.Numbers a q) {i : Nat} {id : NodeId} (y : α)
    (hid : q.nodes[i]? = some id) (hv : v.value? i = none)
    (hnew : q.Early a id ∨ ∀ r, a.Reads id r → (s.valueOf? v r).isSome) :
    s.Grounded a q (v.assign i y) := by
  intro j hj hsome
  obtain ⟨z, hz⟩ := Option.isSome_iff_exists.1 hsome
  have hbefore : q.Early a j ∨ ∀ r, a.Reads j r → (s.valueOf? v r).isSome := by
    rcases hs.valueOf?_assign_cases hid hj hz with ⟨rfl, -⟩ | hold
    · exact hnew
    · exact h j hj (by rw [hold]; rfl)
  exact hbefore.imp_right fun hreads r hr =>
    hs.isSome_valueOf?_assign y hv (hs.mem_of_reads hj hr) (hreads r hr)

/-- A member with a value that reads one without is early. -/
theorem Grounded.early (h : s.Grounded a q v) (hs : s.Numbers a q) {id r : NodeId} {i : Nat}
    (hid : id ∈ q.nodes) (hsome : (s.valueOf? v id).isSome) (hr : a.Reads id r)
    (hri : q.nodes[i]? = some r) (hi : v.value? i = none) : q.Early a id := by
  refine (h id hid hsome).resolve_right fun hreads => ?_
  have hvalue := hreads r hr
  rw [hs.valueOf?_eq v (List.mem_of_getElem? hri), idxOf_eq q.nodes_nodup hri, hi] at hvalue
  cases hvalue

/-- A step gives a value to a member that is early, or all of whose references have values. -/
theorem Grounded.step (h : s.Grounded a q v) (hs : s.Numbers a q) (hq : q.InputDriven a)
    (hstep : s.Step v v') : s.Grounded a q v' := by
  cases hstep with
  | @solve c i coefficient hc hkind hopen hne =>
    obtain ⟨j, id, n, terms, bias, hid, hn, hk, -, hi, ⟨rfl, -, hvalues⟩ | ⟨hsome, r, hr, hri⟩⟩ :=
      hs.open_term_cases hq.noEq hc hkind hopen
    · exact h.assign hs _ hid hi (.inr fun r hr => hvalues r ((reads_affine_iff hn hk).1 hr))
    · -- The definition is solved backwards.
      have hmem := List.mem_of_getElem? hid
      have hread : a.Reads id r := (reads_affine_iff hn hk).2 (List.mem_map_of_mem hr)
      exact h.assign hs _ hri hi
        (.inl (.solved hmem (h.early hs hmem hsome hread hri hi) hn hk hr hne))
  | @rectify r y hr hin hout =>
    obtain ⟨id, n, input, relaxed, hid, hn, hk, hinput, hidx⟩ := hs.exists_of_mem_relus hr
    refine h.assign hs _ hid hout (.inr fun j hj => ?_)
    rw [Arena.reads_iff hn, Node.references, hk] at hj
    rw [List.mem_singleton.1 hj, hs.valueOf?_eq v hinput, ← hidx, hin]
    rfl

theorem Grounded.steps (h : s.Grounded a q v) (hs : s.Numbers a q) (hq : q.InputDriven a)
    (hsteps : Relation.ReflTransGen s.Step v v') : s.Grounded a q v' := by
  induction hsteps with
  | refl => exact h
  | tail _ hstep ih => exact ih.step hs hq hstep

/-- An equality that is degenerate is the definition of a member that is stuck. -/
theorem Grounded.stuck (hunit : ((-1 : α) == 0) = false) (h : s.Grounded a q v)
    (hs : s.Numbers a q) (hq : q.InputDriven a) (hlen : xs.length = q.inputs.length)
    (hext : (s.seed xs).ExtendedBy v) {c : Constraint α} {x : Nat} (hc : c ∈ s.constraints)
    (hdeg : Degenerate v c x) :
    ∃ i id n target, q.nodes[i]? = some id ∧ a.get? id = some n ∧
      definitionOf q.nodes i n = some c ∧ q.nodes[x]? = some target ∧ q.Stuck a id target := by
  obtain ⟨hkind, coefficient, hopen, hzero⟩ := hdeg
  obtain ⟨i, id, n, terms, bias, hid, hn, hk, hdef, hx, ⟨-, rfl, -⟩ | ⟨hsome, r, hr, hrx⟩⟩ :=
    hs.open_term_cases hq.noEq hc hkind hopen
  · rw [hunit] at hzero
    cases hzero
  · have hmem := List.mem_of_getElem? hrx
    -- A member that was seeded would have a value.
    have hunseeded : ∀ m, a.get? r = some m → ¬(r ∈ q.inputs ∨ m.bounds.fixedValue?.isSome) := by
      intro m hm hseeded
      obtain ⟨y, hy⟩ := Option.isSome_iff_exists.1 (hs.isSome_seed hlen hmem hm hseeded)
      rw [idxOf_eq q.nodes_nodup hrx] at hy
      rw [hext.value _ y hy] at hx
      cases hx
    obtain ⟨m, hm, -⟩ := hs.members r hmem
    have hread : a.Reads id r := (reads_affine_iff hn hk).2 (List.mem_map_of_mem hr)
    refine ⟨i, id, n, r, hid, hn, hdef, hrx,
      h.early hs (List.mem_of_getElem? hid) hsome hread hrx hx,
      ⟨n, terms, bias, coefficient, hn, hk, hr, hzero⟩, ?_, ?_⟩
    · exact fun hinput => hunseeded m hm (.inl hinput)
    · intro m' hm'
      have hnot := hunseeded m' hm'
      rw [not_or, Option.not_isSome_iff_eq_none] at hnot
      exact hnot.2

/-- Where no rule applies any more, every member has a value. -/
theorem isSome_of_stable (hs : s.Numbers a q) (hq : q.InputDriven a)
    (hlen : xs.length = q.inputs.length) (hext : (s.seed xs).ExtendedBy v) (hstable : s.Stable v) :
    ∀ id ∈ q.nodes, (s.valueOf? v id).isSome := by
  refine hq.acyclic.induction fun id hid ih => ?_
  obtain ⟨n, hn, hsub, habs⟩ := hs.members id hid
  have hread : ∀ r ∈ n.references, (s.valueOf? v r).isSome := fun r hr =>
    ih r (hsub hr) ((Arena.reads_iff hn).2 hr)
  rw [Node.references] at hread hsub
  rw [hs.valueOf?_eq v hid]
  cases hk : n.kind with
  | plain =>
    obtain ⟨y, hy⟩ := Option.isSome_iff_exists.1
      (hs.isSome_seed hlen hid hn (.inl (hq.free_inputs id hid ⟨n, hn, hk⟩)))
    rw [hext.value _ y hy]
    rfl
  | affine terms bias =>
    rw [hk] at hread
    exact hstable.isSome_affine hs hid hn hk hread
  | relu input relaxed =>
    rw [hk] at hread hsub
    exact hstable.isSome_relu hs hid hn hk (hsub (List.mem_singleton_self input))
      (hread input (List.mem_singleton_self input))
  | abs input => simp [isAbs, hk] at habs

/-- Evaluation gives all members values, or it reports the definition of a member that is stuck. -/
theorem forward_cases (hunit : ((-1 : α) == 0) = false) (hq : q.InputDriven a)
    (hofQuery : ofQuery a q = .ok s) (hlen : xs.length = q.inputs.length) :
    (∃ v, s.forward xs = .ok v ∧ ∀ id ∈ q.nodes, (s.valueOf? v id).isSome) ∨
      ∃ (j i : Nat) (id : NodeId) (n : Node α) (target : NodeId), q.nodes[i]? = some id ∧
        a.get? id = some n ∧ s.constraints[j]? = definitionOf q.nodes i n ∧
        q.Stuck a id target ∧ s.forward xs = .error (.degenerate j (a.name target)) := by
  have hs := ofQuery_eq_ok hofQuery
  cases hv : s.propagate ((s.seed xs).unassigned.length + 1) (s.seed xs) with
  | error e =>
    obtain ⟨u, hsteps, j, c, x, hc, hdeg, rfl⟩ := degenerate_of_propagate hv
    obtain ⟨i, id, n, target, hid, hn, hdef, hx, hstuck⟩ :=
      ((grounded_seed hs xs).steps hs hq hsteps).stuck hunit hs hq hlen
        (extendedBy_of_steps hsteps) (List.mem_of_getElem? hc) hdeg
    refine .inr ⟨j, i, id, n, target, hid, hn, hc.trans hdef.symm, hstuck, ?_⟩
    rw [forward, if_neg (by rw [hs.inputs, List.length_map, hlen]; simp)]
    simp [hv, name, hs.names, hx]
  | ok v =>
    have hext := extendedBy_of_steps (steps_of_propagate hv)
    have hvalues := isSome_of_stable hs hq hlen hext
      (stable_of_propagate hs.inRange (size_seed s xs) (Nat.lt_succ_self _) hv)
    have hnone : (q.nodes.filter fun id => (s.valueOf? v id).isNone) = [] := by
      rw [List.filter_eq_nil_iff]
      intro id hid
      simp [Option.isSome_iff_ne_none.1 (hvalues id hid)]
    refine .inl ⟨v, ?_, hvalues⟩
    rw [hs.forward_eq hlen hv (hext.size.trans (size_seed s xs)), hnone]

end ConstraintSystem

namespace Network

variable {net : Network} {a : Arena α}

omit [Scalar α] in
/-- The query of a network of affine nodes and rectifiers whose free nodes are its inputs. -/
theorem inputDriven_toQuery (hnet : net.WellFormed a) (hfree : net.FreeAtInputs a)
    (habs : ∀ id ∈ net.nodes, ∀ n, a.get? id = some n → ConstraintSystem.isAbs n = false)
    {q : Query α} (hq : net.toQuery = .ok q) : q.InputDriven a := by
  obtain ⟨q', hq', hnodes, hinputs, -, hequations⟩ := exists_toQuery hnet
  obtain rfl := Except.ok.inj (hq.symm.trans hq')
  refine ⟨hnet.checkIntegrity_toQuery hq, by rwa [hnodes], by simp [hequations], ?_, ?_⟩
  · rw [Query.Acyclic, hnodes]
    exact fun id hid => hnet.not_transGen hid
  · rw [hnodes, hinputs]
    intro id hid hidfree
    obtain ⟨l, hl, hlone⟩ := (hfree id hid).1 hidfree
    rw [inputs, hl, Option.getD_some]
    exact List.mem_filterMap.2 ⟨[id], hlone, rfl⟩

/-- On a network of affine nodes and rectifiers whose free nodes are its inputs, whatever bounds and
coefficients it has, evaluation never ends for want of values. It gives all nodes values for every
input vector, or it fails for every one with the same report: that the definition of a member which
may have a value early is to be solved for a node with coefficient zero. -/
theorem forward_completes_or_degenerates (hunit : ((-1 : α) == 0) = false)
    (hnet : net.Accepted a) (hfree : net.FreeAtInputs a)
    (habs : ∀ id ∈ net.nodes, ∀ n, a.get? id = some n → ConstraintSystem.isAbs n = false) :
    ∃ q s, net.toQuery = .ok q ∧ q.nodes = net.nodes ∧ q.inputs = net.inputs ∧
      ConstraintSystem.ofQuery a q = .ok s ∧
      ((∀ xs : List α, xs.length = net.inputs.length → ∃ v, s.forward xs = .ok v ∧
          ∀ id ∈ net.nodes, (s.valueOf? v id).isSome) ∨
        ∃ (j i : Nat) (id : NodeId) (n : Node α) (target : NodeId), net.nodes[i]? = some id ∧
          a.get? id = some n ∧ s.constraints[j]? = ConstraintSystem.definitionOf net.nodes i n ∧
          q.Stuck a id target ∧ ∀ xs : List α, xs.length = net.inputs.length →
            s.forward xs = .error (.degenerate j (a.name target))) := by
  have hwell := accepted_iff.1 hnet
  obtain ⟨q, hq, hnodes, hinputs, -⟩ := exists_toQuery hwell
  have hdriven := inputDriven_toQuery hwell hfree habs hq
  obtain ⟨s, hs⟩ := ConstraintSystem.ofQuery_ok hdriven.integrity hdriven.noAbs
  refine ⟨q, s, hq, hnodes, hinputs, hs, ?_⟩
  have hcases := fun (xs : List α) (hlen : xs.length = q.inputs.length) =>
    ConstraintSystem.forward_cases hunit hdriven hs hlen
  simp only [hnodes, hinputs] at hcases
  -- What happens on one vector of values happens on all of them.
  have hsame : ∀ xs : List α, xs.length = net.inputs.length → SameOutcome Assignment.SameDomain
      (s.forward (List.replicate net.inputs.length 0)) (s.forward xs) := fun xs hlen =>
    ConstraintSystem.forward_sameDomain (List.length_replicate.trans hlen.symm)
  rcases hcases (List.replicate net.inputs.length 0) List.length_replicate with
    ⟨v₀, hv₀, -⟩ | ⟨j, i, id, n, target, hid, hn, hdef, hstuck, herror⟩
  · refine .inl fun xs hlen => (hcases xs hlen).resolve_right ?_
    rintro ⟨j, i, id, n, target, -, -, -, -, herror⟩
    have houtcome := hsame xs hlen
    rw [hv₀, herror] at houtcome
    cases houtcome
  · refine .inr ⟨j, i, id, n, target, hid, hn, hdef, hstuck, fun xs hlen => ?_⟩
    have houtcome := hsame xs hlen
    rw [herror] at houtcome
    cases hxs : s.forward xs with
    | ok v =>
      rw [hxs] at houtcome
      cases houtcome
    | error cause =>
      rw [hxs] at houtcome
      cases houtcome
      rfl

/-- One input, one rectifier and one output. -/
def clamped : Network :=
  ⟨[[[0]], [[1, 2]], [[3]]]⟩

/-- The nodes of the network; the output has this coefficient on the rectifier, and the value of its
bounds is fixed. -/
def clampedArena (coefficient value : Rat) : Arena Rat :=
  ⟨#[{ kind := .plain, label := some "x" }, { kind := .affine [(1, 0)] 0, label := some "b" },
    { kind := .relu 1 false, label := some "f" },
    { kind := .affine [(coefficient, 2)] 0, bounds := .fixed value, label := some "y" }]⟩

/-- The output is fixed, so its definition is solved for the rectifier, and evaluation completes. -/
theorem forward_completes_or_degenerates_clamped :
    ((-1 : Rat) == 0) = false ∧ clamped.Accepted (clampedArena 2 4) ∧
      clamped.FreeAtInputs (clampedArena 2 4) ∧
      ∃ q s, clamped.toQuery = .ok q ∧ ConstraintSystem.ofQuery (clampedArena 2 4) q = .ok s ∧
        ∀ x, ∃ v, s.forward [x] = .ok v := by
  have hunit : ((-1 : Rat) == 0) = false := by decide
  have hnet : clamped.Accepted (clampedArena 2 4) := by rfl
  have hfree : clamped.FreeAtInputs (clampedArena 2 4) := by decide
  have habs : ∀ id ∈ clamped.nodes, ∀ n ∈ (clampedArena 2 4).get? id,
      ConstraintSystem.isAbs n = false := by decide
  obtain ⟨q, s, hq, -, -, hs, hall | ⟨_, _, id, _, _, hid, -, -, hstuck, -⟩⟩ :=
    forward_completes_or_degenerates hunit hnet hfree habs
  · refine ⟨hunit, hnet, hfree, q, s, hq, hs, fun x => ?_⟩
    obtain ⟨v, hv, -⟩ := hall [x] rfl
    exact ⟨v, hv⟩
  · -- No affine node has a coefficient zero.
    obtain ⟨n, terms, bias, c, hn, hkind, hterm, hzero⟩ := hstuck.zero
    have hmem : id ∈ [0, 1, 2, 3] := List.mem_of_getElem? hid
    simp only [List.mem_cons, List.not_mem_nil, or_false] at hmem
    rcases hmem with rfl | rfl | rfl | rfl
    · cases hn
      cases hkind
    · cases hn
      cases hkind
      cases List.mem_singleton.1 hterm
      exact absurd hzero (by decide)
    · cases hn
      cases hkind
    · cases hn
      cases hkind
      cases List.mem_singleton.1 hterm
      exact absurd hzero (by decide)

/-- With coefficient zero the definition cannot be solved for the rectifier. -/
theorem forward_degenerates_clamped :
    clamped.Accepted (clampedArena 0 0) ∧ clamped.FreeAtInputs (clampedArena 0 0) ∧
      (∀ id ∈ clamped.nodes, ∀ n, (clampedArena 0 0).get? id = some n →
        ConstraintSystem.isAbs n = false) ∧
      ∃ q s, clamped.toQuery = .ok q ∧ ConstraintSystem.ofQuery (clampedArena 0 0) q = .ok s ∧
        [(1 : Rat)].length = q.inputs.length ∧ s.forward [1] = .error (.degenerate 1 "f") := by
  have habs : ∀ id ∈ clamped.nodes, ∀ n ∈ (clampedArena 0 0).get? id,
      ConstraintSystem.isAbs n = false := by decide
  exact ⟨by rfl, by decide, habs, _, _, rfl, rfl, rfl, by decide +kernel⟩

end Network

end PiecewiseNet
