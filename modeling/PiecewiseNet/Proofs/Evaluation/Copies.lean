import PiecewiseNet.Proofs.Evaluation.Numbering
import PiecewiseNet.Proofs.Network.Copies
import Mathlib.Data.List.Find

/-!
# Numbered forms of copies

A numbered form does not tell which nodes of an arena it is about: a query and its copy on other
nodes have the same tables.

## Main definitions

- `ConstraintSystem.SameTables`: two systems differ in nothing but the members behind the variables.
- `ConstraintSystem.SameLowering`: two lowerings fail, or give the same tables.
- `Query.Copy`: a query asks the same as another one about other nodes.

## Main statements

- `Query.Copy.ofQuery_ok`: a copy of a query has the same tables.
- `Query.Copy.lowered_or_refused`: a query and its copy are both lowered, or both refused.
-/

namespace PiecewiseNet

variable {α : Type}

/-- The two systems have the same tables; only the members behind the variables, and their names,
may differ. -/
structure ConstraintSystem.SameTables (s s' : ConstraintSystem α) : Prop where
  size : s'.size = s.size
  inputs : s'.inputs = s.inputs
  outputs : s'.outputs = s.outputs
  bounds : s'.bounds = s.bounds
  constraints : s'.constraints = s.constraints
  relus : s'.relus = s.relus

/-- Both lowerings fail, or both succeed with the same tables. -/
inductive ConstraintSystem.SameLowering :
    Except (EvalError α) (ConstraintSystem α) → Except (EvalError α) (ConstraintSystem α) →
      Prop where
  | ok {s s' : ConstraintSystem α} (h : s.SameTables s') : SameLowering (.ok s) (.ok s')
  | error (e e' : EvalError α) : SameLowering (.error e) (.error e')

/-- A query asks the same as another one about other nodes, which are the same as the original
ones. -/
structure Query.Copy (q : Query α) (a : Arena α) (f : NodeId → NodeId) (q' : Query α)
    (b : Arena α) : Prop where
  nodes : q'.nodes = q.nodes.map f
  inputs : q'.inputs = q.inputs.map f
  outputs : q'.outputs = q.outputs.map f
  equations : q'.equations = q.equations.map (·.redirect f)
  /-- Distinct members have distinct copies. -/
  injOn : ∀ i ∈ q.nodes, ∀ j ∈ q.nodes, f i = f j → i = j
  /-- Each copy is the same as its original. -/
  mirrors : ∀ id ∈ q.nodes, a.Mirrors b f id

/-- Where distinct nodes have distinct copies, a copy has the number of its original. -/
theorem ConstraintSystem.idxOf_map {ids : List NodeId} {f : NodeId → NodeId}
    (hinj : ∀ i ∈ ids, ∀ j ∈ ids, f i = f j → i = j) {id : NodeId} (hid : id ∈ ids) :
    List.idxOf (f id) (ids.map f) = List.idxOf id ids := by
  induction ids with
  | nil => cases hid
  | cons j ids ih =>
    rw [List.map_cons, List.idxOf_cons, List.idxOf_cons]
    by_cases hj : j = id
    · simp [hj]
    · have hne : f j ≠ f id := fun heq => hj (hinj j (List.mem_cons_self ..) id hid heq)
      have hmem : id ∈ ids := (List.mem_cons.1 hid).resolve_left (Ne.symm hj)
      rw [beq_false_of_ne hj, beq_false_of_ne hne, ih ?_ hmem]
      intro i hi k hk
      exact hinj i (List.mem_cons_of_mem _ hi) k (List.mem_cons_of_mem _ hk)

/-- Where copies have the numbers of their originals, a sum over copies is numbered as the sum over
the originals. -/
theorem Terms.numbered_redirect {ts : Terms α} {f : NodeId → NodeId} (number number' : NodeId → Nat)
    (h : ∀ id ∈ ts.nodes, number' (f id) = number id) :
    (ts.redirect f).map (fun p => (number' p.2, p.1)) = ts.map fun p => (number p.2, p.1) := by
  rw [redirect, List.map_map]
  refine List.map_congr_left fun t ht => ?_
  exact congrArg (·, t.1) (h t.2 (List.mem_map_of_mem ht))

/-- What is made of numbered copies is what is made of the originals, if it only depends on what
copies have in common with their originals. -/
theorem Arena.filterMap_numbered_map {a b : Arena α} {f : NodeId → NodeId} {ids : List NodeId}
    {β : Type} {F G : Nat → Node α → Option β} (hmirrors : ∀ id ∈ ids, a.Mirrors b f id)
    (hF : ∀ id ∈ ids, ∀ i n m, a.get? id = some n → m.kind = n.kind.redirect f →
      m.bounds = n.bounds → G i m = F i n) :
    (b.numbered (ids.map f)).filterMap (fun p => G p.1 p.2) =
      (a.numbered ids).filterMap fun p => F p.1 p.2 := by
  simp only [numbered, List.zipIdx_map, List.filterMap_map, List.filterMap_filterMap]
  refine List.filterMap_congr ?_
  rintro ⟨id, i⟩ hid
  have hmem : id ∈ ids := List.fst_mem_of_mem_zipIdx hid
  obtain ⟨n, m, hn, hm, hkind, hbounds⟩ := hmirrors id hmem
  simp [hn, hm, hF id hmem i n m hn hkind hbounds]

/-- The tables of a numbered form, as lists. -/
theorem ConstraintSystem.tables_of_ofQuery [Scalar α] {a : Arena α} {q : Query α}
    {s : ConstraintSystem α} (h : ofQuery a q = .ok s) :
    s.ids = q.nodes ∧ s.inputs = q.inputs.map (List.idxOf · q.nodes) ∧
      s.outputs = q.outputs.map (List.idxOf · q.nodes) ∧
      s.bounds = (a.numbered q.nodes).map (·.2.bounds) ∧
      s.constraints = (a.numbered q.nodes).filterMap (fun p => definitionOf q.nodes p.1 p.2) ++
        q.equations.map (equationOf q.nodes) ∧
      s.relus = (a.numbered q.nodes).filterMap fun p => rectifierOf q.nodes p.1 p.2 := by
  unfold ofQuery at h
  split at h
  · cases h
  · simp only at h
    split at h
    · cases h
    · cases h
      exact ⟨rfl, rfl, rfl, rfl, rfl, rfl⟩

namespace Query.Copy

open ConstraintSystem

variable {q q' : Query α} {a b : Arena α} {f : NodeId → NodeId}

theorem filterMap_numbered (h : q.Copy a f q' b) {β : Type} {F G : Nat → Node α → Option β}
    (hF : ∀ id ∈ q.nodes, ∀ i n m, a.get? id = some n → m.kind = n.kind.redirect f →
      m.bounds = n.bounds → G i m = F i n) :
    (b.numbered q'.nodes).filterMap (fun p => G p.1 p.2) =
      (a.numbered q.nodes).filterMap fun p => F p.1 p.2 := by
  rw [h.nodes]
  exact Arena.filterMap_numbered_map h.mirrors hF

/-- A copy is an absolute value exactly when its original is one. -/
theorem isAbs_redirect {n m : Node α} (hkind : m.kind = n.kind.redirect f) : isAbs m = isAbs n := by
  unfold isAbs
  rw [hkind]
  cases n.kind <;> rfl

/-- The check of a copy passes when that of the original does. -/
theorem checkIntegrity (h : q.Copy a f q' b) (hq : q.checkIntegrity a = .ok ()) :
    q'.checkIntegrity b = .ok () := by
  rw [checkIntegrity_eq_ok_iff] at hq ⊢
  rw [h.nodes, List.forall_mem_map]
  intro id hid
  obtain ⟨n, m, hn, hm, hkind, -⟩ := h.mirrors id hid
  obtain ⟨n', hn', hrefs⟩ := hq id hid
  obtain rfl : n = n' := by simpa [hn] using hn'
  refine ⟨m, hm, ?_⟩
  rw [Node.references, hkind, NodeKind.references_redirect]
  exact List.map_subset f hrefs

/-- A copy has no absolute values when its original has none. -/
theorem noAbs (h : q.Copy a f q' b)
    (habs : ∀ id ∈ q.nodes, ∀ n, a.get? id = some n → isAbs n = false) :
    ∀ id ∈ q'.nodes, ∀ m, b.get? id = some m → isAbs m = false := by
  rw [h.nodes, List.forall_mem_map]
  intro id hid m hm
  obtain ⟨n, m', hn, hm', hkind, -⟩ := h.mirrors id hid
  obtain rfl : m = m' := by simpa [hm] using hm'
  exact (isAbs_redirect hkind).trans (habs id hid n hn)

/-- The first absolute value among the copies is the copy of the first one among the originals. -/
theorem find?_isAbs_eq (h : q.Copy a f q' b) :
    (q'.nodes.find? fun id => (b.get? id).any isAbs) =
      (q.nodes.find? fun id => (a.get? id).any isAbs).map f := by
  rw [h.nodes, List.find?_map]
  refine congrArg _ (List.find?_congr ?_)
  intro id hid
  obtain ⟨n, m, hn, hm, hkind, -⟩ := h.mirrors id hid
  simp [hn, hm, isAbs_redirect hkind]

/-- A copy of a member has the number of the member. -/
theorem idxOf_eq (h : q.Copy a f q' b) {id : NodeId} (hid : id ∈ q.nodes) :
    List.idxOf (f id) q'.nodes = List.idxOf id q.nodes := by
  rw [h.nodes]
  exact idxOf_map h.injOn hid

theorem map_idxOf_eq (h : q.Copy a f q' b) {ids : List NodeId} (hids : ids ⊆ q.nodes) :
    (ids.map f).map (List.idxOf · q'.nodes) = ids.map (List.idxOf · q.nodes) := by
  rw [List.map_map]
  exact List.map_congr_left fun id hid => h.idxOf_eq (hids hid)

/-- A sum over copies is numbered as the sum over the originals. -/
theorem numbered_terms (h : q.Copy a f q' b) {ts : Terms α} (hts : ts.nodes ⊆ q.nodes) :
    (ts.redirect f).map (fun p => (List.idxOf p.2 q'.nodes, p.1)) =
      ts.map fun p => (List.idxOf p.2 q.nodes, p.1) :=
  Terms.numbered_redirect (List.idxOf · q.nodes) (List.idxOf · q'.nodes) fun _ hid =>
    h.idxOf_eq (hts hid)

section

variable {n m : Node α} (hrefs : n.references ⊆ q.nodes) (hkind : m.kind = n.kind.redirect f)
include hrefs hkind

theorem rectifierOf_eq (h : q.Copy a f q' b) (i : Nat) :
    rectifierOf q'.nodes i m = rectifierOf q.nodes i n := by
  rw [Node.references] at hrefs
  unfold rectifierOf
  rw [hkind]
  cases hk : n.kind with
  | relu input relaxed =>
    rw [hk] at hrefs
    simp only [NodeKind.redirect, h.idxOf_eq (hrefs (List.mem_singleton.2 rfl))]
  | _ => rfl

variable [Scalar α]

theorem definitionOf_eq (h : q.Copy a f q' b) (i : Nat) :
    definitionOf q'.nodes i m = definitionOf q.nodes i n := by
  rw [Node.references] at hrefs
  unfold definitionOf
  rw [hkind]
  cases hk : n.kind with
  | affine terms bias =>
    rw [hk] at hrefs
    have hterms : terms.nodes ⊆ q.nodes := hrefs
    simp only [NodeKind.redirect, h.numbered_terms hterms]
  | _ => rfl

end

variable [Scalar α]

/-- A copy of a query has the same tables. -/
theorem ofQuery_ok (h : q.Copy a f q' b) {s : ConstraintSystem α} (hs : ofQuery a q = .ok s) :
    ∃ s', ofQuery b q' = .ok s' ∧ s.SameTables s' := by
  have hmembers : ∀ id ∈ q.nodes, ∀ n, a.get? id = some n →
      n.references ⊆ q.nodes ∧ isAbs n = false := by
    intro id hid n hn
    obtain ⟨n', hn', hrefs, habs⟩ := (ofQuery_eq_ok hs).members id hid
    obtain rfl : n = n' := by simpa [hn] using hn'
    exact ⟨hrefs, habs⟩
  have hcheck : q.checkIntegrity a = .ok () := by
    rw [checkIntegrity_eq_ok_iff]
    intro id hid
    obtain ⟨n, hn, hrefs, -⟩ := (ofQuery_eq_ok hs).members id hid
    exact ⟨n, hn, hrefs⟩
  obtain ⟨s', hs'⟩ := ConstraintSystem.ofQuery_ok (h.checkIntegrity hcheck)
    (h.noAbs fun id hid n hn => (hmembers id hid n hn).2)
  obtain ⟨hids, hin, hout, hbounds, hconstraints, hrelus⟩ := tables_of_ofQuery hs
  obtain ⟨hids', hin', hout', hbounds', hconstraints', hrelus'⟩ := tables_of_ofQuery hs'
  refine ⟨s', hs', ?_, ?_, ?_, ?_, ?_, ?_⟩
  · rw [size, hids', h.nodes, List.length_map, size, hids]
  · rw [hin', h.inputs, h.map_idxOf_eq q.inputs_subset, hin]
  · rw [hout', h.outputs, h.map_idxOf_eq q.outputs_subset, hout]
  · rw [hbounds', hbounds, ← List.filterMap_eq_map]
    refine h.filterMap_numbered (F := fun _ n => some n.bounds) (G := fun _ n => some n.bounds) ?_
    intro id _ i n m _ _ hb
    rw [hb]
  · rw [hconstraints', hconstraints]
    congr 1
    · refine h.filterMap_numbered ?_
      intro id hid i n m hn hkind _
      exact h.definitionOf_eq (hmembers id hid n hn).1 hkind i
    · rw [h.equations, List.map_map]
      refine List.map_congr_left fun e he => ?_
      simp only [Function.comp_def, equationOf, Equation.redirect,
        h.numbered_terms (q.terms_subset e he)]
  · rw [hrelus', hrelus]
    refine h.filterMap_numbered ?_
    intro id hid i n m hn hkind _
    exact h.rectifierOf_eq (hmembers id hid n hn).1 hkind i

/-- A sound query and its copy are both lowered, to the same tables, or both refused, for an
absolute value and for its copy. -/
theorem lowered_or_refused (h : q.Copy a f q' b) (hq : q.checkIntegrity a = .ok ()) :
    (∃ s s', ofQuery a q = .ok s ∧ ofQuery b q' = .ok s' ∧ s'.ids = s.ids.map f ∧ s.SameTables s') ∨
      ∃ id ∈ q.nodes, ofQuery a q = .error (.unsupportedKind "abs" (a.name id)) ∧
        ofQuery b q' = .error (.unsupportedKind "abs" (b.name (f id))) := by
  cases hfind : q.nodes.find? fun id => (a.get? id).any isAbs with
  | none =>
    obtain ⟨s, hs⟩ := ConstraintSystem.ofQuery_ok hq fun id hid n hn => by
      simpa [hn] using List.find?_eq_none.1 hfind id hid
    obtain ⟨s', hs', hsame⟩ := h.ofQuery_ok hs
    refine .inl ⟨s, s', hs, hs', ?_, hsame⟩
    rw [(tables_of_ofQuery hs').1, h.nodes, (tables_of_ofQuery hs).1]
  | some id =>
    refine .inr ⟨id, List.mem_of_find?_eq_some hfind, ?_, ?_⟩
    · simp [ofQuery, hq, hfind]
    · simp [ofQuery, h.checkIntegrity hq, h.find?_isAbs_eq, hfind]

/-- A sound query and its copy are both lowered, to the same tables, or both not. -/
theorem sameLowering (h : q.Copy a f q' b) (hq : q.checkIntegrity a = .ok ()) :
    SameLowering (ofQuery a q) (ofQuery b q') := by
  rcases h.lowered_or_refused hq with ⟨s, s', hs, hs', -, hsame⟩ | ⟨id, -, he, he'⟩
  · rw [hs, hs']
    exact .ok hsame
  · rw [he, he']
    exact .error _ _

end Query.Copy

end PiecewiseNet
