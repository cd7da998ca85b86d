import PiecewiseNet.Proofs.Ipq.RoundTrip
import PiecewiseNet.Proofs.Network.Numbers
import PiecewiseNet.Proofs.Solver.Reachability
import PiecewiseNet.Proofs.Solver.Variables

/-!
# Exported queries read back

A solver query is written as a query file. Its variables are those of its table and its scalars are
those of the members and of the equations, so the reader refuses it for one reason only: no variable
may be an input and an output, and a synthetic input that is an output of the query is both.

## Main definitions

- `Equation.numbers`: the scalars of an equation.
- `Query.Definite`: all scalars of a query equal themselves.

## Main statements

- `SolverQuery.definite_toIpq`: the scalars of the file equal themselves.
- `SolverQuery.parse_text_iff`: the file is read back unless an output is a synthetic input.
-/

namespace PiecewiseNet

open Text

section

variable {α : Type}

/-! ## The scalars of a query -/

/-- The right-hand side and the coefficients of an equation. -/
def Equation.numbers (e : Equation α) : List α :=
  e.scalar :: e.terms.map (·.1)

/-- Every scalar of the equation equals itself. -/
def Equation.Definite [BEq α] (e : Equation α) : Prop :=
  ∀ x ∈ e.numbers, (x == x) = true

/-- Every scalar of the members and of the equations equals itself. -/
structure Query.Definite [BEq α] (q : Query α) (a : Arena α) : Prop where
  members : ∀ id ∈ q.nodes, ∀ n, a.get? id = some n → n.Definite
  equations : ∀ e ∈ q.equations, e.Definite

end

namespace SolverQuery

variable {α : Type} [Scalar α] {a : Arena α} {q : Query α} {e : SolverQuery α}

/-! ## The scalars of the file -/

/-- The ends that variables are bounded by are ends of bounds of members. -/
theorem exists_of_mem_boundsOf (h : e.Tabulates a q) {side : Interval α → Option α} {v : Nat}
    {x : α} (hx : (v, x) ∈ (boundsOf side (a.numbered e.table)).entries) :
    v < e.variableCount ∧ ∃ id ∈ q.nodes, ∃ n, a.get? id = some n ∧ side n.bounds = some x := by
  obtain ⟨id, n, hid, hn, hside⟩ := (get?_boundsOf h.table_nodup).1 (VarMap.get?_eq_some_iff.2 hx)
  exact ⟨(List.getElem?_eq_some_iff.1 hid).1, id,
    h.mem_table_iff.1 (List.mem_of_getElem? hid), n, hn, hside⟩

/-- The definition of a definite member has definite scalars. -/
theorem definite_definitionOf [DefiniteSigns α] {t : VariableTable} {v : Nat} {n : Node α}
    (hn : n.Definite) {r : IpqEquation α} (h : definitionOf t v n = some r) :
    ∀ x ∈ r.scalar :: r.addends.map Prod.snd, (x == x) = true := by
  unfold definitionOf at h
  split at h
  · rename_i terms bias hk
    have hkind : n.kind = .affine terms bias := hk
    cases h
    have hnumbers : ∀ x ∈ bias :: terms.map (·.1), (x == x) = true := by
      intro x hx
      refine hn x (List.mem_append_right _ ?_)
      rw [hkind]
      exact hx
    obtain ⟨hbias, hterms⟩ := List.forall_mem_cons.1 hnumbers
    refine List.forall_mem_cons.2 ⟨DefiniteSigns.neg_beq _ hbias, ?_⟩
    rw [List.map_append, List.map_map, List.forall_mem_append]
    refine ⟨hterms, ?_⟩
    simpa using DefiniteSigns.neg_beq (1 : α) DefiniteSigns.one_beq
  · cases h

/-- The file of a definite query has definite scalars. -/
theorem definite_toIpq [DefiniteSigns α] (h : e.Tabulates a q) (hq : q.Definite a) :
    e.toIpq.Definite := by
  have hbounds : ∀ side : Interval α → Option α, (∀ i x, side i = some x → x ∈ i.numbers) →
      ∀ x ∈ (boundsOf side (a.numbered e.table)).entries.map Prod.snd, (x == x) = true := by
    intro side hside
    rw [List.forall_mem_map]
    rintro ⟨v, x⟩ hx
    obtain ⟨-, id, hid, n, hn, hend⟩ := exists_of_mem_boundsOf h hx
    exact hq.members id hid n hn x (List.mem_append_left _ (hside _ _ hend))
  have hequations : ∀ r ∈ e.equations, ∀ x ∈ r.scalar :: r.addends.map Prod.snd,
      (x == x) = true := by
    rw [h.equations, List.forall_mem_append]
    refine ⟨?_, List.forall_mem_map.2 ?_⟩
    · intro r hr
      obtain ⟨⟨v, n⟩, hmem, hdef⟩ := List.mem_filterMap.1 hr
      obtain ⟨-, id, hid, hn⟩ := h.mem_of_mem_numbered hmem
      exact definite_definitionOf (hq.members id hid n hn) hdef
    · intro eq heq
      have hnumbers : (equationOf e.table eq).scalar ::
          (equationOf e.table eq).addends.map Prod.snd = eq.numbers := by
        simp [equationOf, Equation.numbers, Function.comp_def]
      rw [hnumbers]
      exact hq.equations eq heq
  intro x hx
  simp only [IpqFile.numbers, toIpq, List.mem_append, List.mem_flatMap] at hx
  rcases hx with (hx | hx) | ⟨r, hr, hx⟩
  · rw [h.lowerBounds] at hx
    exact hbounds Interval.lower (fun i x hi => by simp [Interval.numbers, hi]) x hx
  · rw [h.upperBounds] at hx
    exact hbounds Interval.upper (fun i x hi => by simp [Interval.numbers, hi]) x hx
  · exact hequations r hr x hx

/-! ## The variables of the file -/

omit [Scalar α] in
/-- The pair of an absolute value is about its variable and about that of the node that it reads. -/
theorem of_absOf_eq_some {t : VariableTable} {v : Nat} {n : Node α} {p : PiecewisePair}
    (h : absOf t v n = some p) : p.f = v ∧ ∃ id ∈ n.references, p.b = t.varOf id := by
  unfold absOf at h
  split at h
  · rename_i input hk
    have hkind : n.kind = .abs input := hk
    cases h
    exact ⟨rfl, input, by simp [Node.references, hkind, NodeKind.references], rfl⟩
  · cases h

/-- The declared inputs are members, and so are the synthetic ones. -/
theorem lt_of_mem_inputVars (h : e.Tabulates a q) : ∀ v ∈ e.inputVars, v < e.variableCount := by
  rw [h.inputVars, List.forall_mem_append, List.forall_mem_map, List.forall_mem_map]
  exact ⟨fun id hid => h.varOf_lt (q.inputs_subset hid),
    fun id hid => h.varOf_lt (List.mem_of_mem_filter hid)⟩

theorem lt_of_mem_outputVars (h : e.Tabulates a q) : ∀ v ∈ e.outputVars, v < e.variableCount := by
  rw [h.outputVars, List.forall_mem_map]
  exact fun id hid => h.varOf_lt (q.outputs_subset hid)

theorem inRange_abs (h : e.Tabulates a q) (hcheck : q.checkIntegrity a = .ok ()) :
    ∀ p ∈ e.abs, p.b < e.variableCount ∧ p.f < e.variableCount := by
  intro p hp
  rw [h.abs] at hp
  obtain ⟨⟨v, n⟩, hmem, hpair⟩ := List.mem_filterMap.1 hp
  obtain ⟨hv, id, hid, hn⟩ := h.mem_of_mem_numbered hmem
  obtain ⟨m, hm, hrefs⟩ := Query.checkIntegrity_eq_ok_iff.1 hcheck id hid
  cases hn.symm.trans hm
  obtain ⟨hf, r, hr, hb⟩ := of_absOf_eq_some hpair
  exact ⟨hb ▸ h.varOf_lt (hrefs hr), hf ▸ hv⟩

/-- Where members read members only, everything in the file is about variables of the query. -/
theorem lt_of_mem_mentioned (h : e.Tabulates a q) (hcheck : q.checkIntegrity a = .ok ()) :
    ∀ v ∈ e.toIpq.mentioned, v < e.variableCount := by
  have hbounds : ∀ side : Interval α → Option α,
      ∀ v ∈ (boundsOf side (a.numbered e.table)).entries.map Prod.fst, v < e.variableCount :=
    fun side => List.forall_mem_map.2 fun p hp => (exists_of_mem_boundsOf h hp).1
  have hrange := h.inRange hcheck
  intro v hv
  simp only [IpqFile.mentioned, toIpq, List.mem_append, List.mem_flatMap, List.mem_map] at hv
  rcases hv with ((((hv | hv) | hv) | hv) | hv) | hv
  · exact lt_of_mem_inputVars h v hv
  · exact lt_of_mem_outputVars h v hv
  · exact hbounds Interval.lower v (by rw [← h.lowerBounds]; exact List.mem_map.2 hv)
  · exact hbounds Interval.upper v (by rw [← h.upperBounds]; exact List.mem_map.2 hv)
  · obtain ⟨r, hr, t, ht, rfl⟩ := hv
    exact hrange.equations r hr t ht
  · have hpair : ∀ p : PiecewisePair, p.b < e.variableCount ∧ p.f < e.variableCount →
        ∀ v ∈ [p.f, p.b], v < e.variableCount := by
      rintro p ⟨hb, hf⟩
      simpa using ⟨hf, hb⟩
    obtain ⟨c, ⟨p, hp, rfl⟩ | ⟨p, hp, rfl⟩, hv⟩ := hv
    · exact hpair p (hrange.relus p hp) v hv
    · exact hpair p (inRange_abs h hcheck p hp) v hv

/-- The file is well-formed exactly when no output is an input, declared or synthetic. -/
theorem wellFormed_toIpq_iff (h : e.Tabulates a q) :
    e.toIpq.WellFormed ↔ ∀ id ∈ q.outputs, id ∉ q.inputs ∧ id ∉ syntheticInputs a q := by
  have hinputVars : ∀ id ∈ q.nodes,
      e.table.varOf id ∈ e.inputVars ↔ id ∈ q.inputs ∨ id ∈ syntheticInputs a q := by
    intro id hid
    have hsame : ∀ j, e.table.varOf j = e.table.varOf id ↔ j = id := by
      intro j
      rw [eq_comm, eq_comm (a := j)]
      exact List.idxOf_inj (h.mem_table_iff.2 hid)
    simp only [h.inputVars, List.mem_append, List.mem_map, hsame, exists_eq_right]
  constructor
  · intro hwell id hid
    have hnot := hwell.disjoint _ (h.outputVars ▸ List.mem_map_of_mem hid)
    have hout : e.table.varOf id ∉ e.inputVars := hnot
    rwa [hinputVars id (q.outputs_subset hid), not_or] at hout
  · intro hout
    refine ⟨lt_of_mem_inputVars h, lt_of_mem_outputVars h, ?_, ?_⟩
    · intro v hv
      have hmem : v ∈ e.outputVars := hv
      rw [h.outputVars, List.mem_map] at hmem
      obtain ⟨id, hid, rfl⟩ := hmem
      show e.table.varOf id ∉ e.inputVars
      rw [hinputVars id (q.outputs_subset hid), not_or]
      exact hout id hid
    · intro g inputs hmax
      simp [toIpq] at hmax

/-- The file of a definite query whose outputs are no declared inputs is read back exactly when no
output is a synthetic input. -/
theorem parse_text_iff [Numeral α] [LawfulNumeral α] [DefiniteSigns α] (h : e.Tabulates a q)
    (hcheck : q.checkIntegrity a = .ok ()) (hq : q.Definite a)
    (hdisjoint : ∀ id ∈ q.outputs, id ∉ q.inputs)
    (hcounts : ∀ n ∈ e.toIpq.counts, n ≤ indexLimit) :
    IpqFile.parse e.toIpq.text = .ok e.toIpq ↔ ∀ id ∈ q.outputs, id ∉ syntheticInputs a q := by
  constructor
  · intro hparse id hid
    exact ((wellFormed_toIpq_iff h).1 (IpqFile.wellFormed_of_parse hparse).2 id hid).2
  · intro hout
    have hcount : e.variableCount ≤ indexLimit := hcounts _ (List.mem_cons_self ..)
    have hindexed : e.toIpq.Indexed :=
      ⟨hcounts, fun v hv => (Nat.le_of_lt (lt_of_mem_mentioned h hcheck v hv)).trans hcount⟩
    have hwell : e.toIpq.WellFormed :=
      (wellFormed_toIpq_iff h).2 fun id hid => ⟨hdisjoint id hid, hout id hid⟩
    exact IpqFile.parse_text_of_wellFormed hindexed hwell (definite_toIpq h hq)

end SolverQuery

end PiecewiseNet
