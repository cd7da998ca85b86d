import PiecewiseNet.Proofs.Edits
import PiecewiseNet.Query

/-!
# Members of queries

What the checks of a query establish about its members.

## Main statements

- `Query.checkIntegrity_eq_ok_iff`: the check passes exactly when every member is in the arena and
  reads members only.
- `Query.run_addEquation_of_subset`, `Query.run_addEquation_of_not_subset`: an equation over
  members is added, and any other one is refused and leaves the query as it was.
- `Query.pushEquation_eq_ok_iff`: when an equation is accepted.
- `Query.new_eq_ok`: the parts of a query that was built.
- `Query.exists_new_iff`: when a query over given parts is accepted.
-/

namespace PiecewiseNet

theorem eraseDups_eq_self {ids : List NodeId} (h : ids.Nodup) : ids.eraseDups = ids := by
  induction ids with
  | nil => rfl
  | cons id ids ih =>
    obtain ⟨hid, hnd⟩ := List.nodup_cons.1 h
    rw [List.eraseDups_cons, List.filter_eq_self.2, ih hnd]
    intro j hj
    have hne : j ≠ id := fun heq => hid (heq ▸ hj)
    simp [hne]

theorem eraseDups_append_self {ids rest : List NodeId} (h : (ids ++ rest).Nodup) :
    (ids ++ (ids ++ rest)).eraseDups = ids ++ rest := by
  obtain ⟨hids, hnd, hdisjoint⟩ := List.nodup_append.1 h
  have hrest : (ids ++ rest).removeAll ids = rest := by
    rw [List.removeAll, List.filter_append, List.filter_eq_nil_iff.2, List.filter_eq_self.2,
      List.nil_append]
    · intro id hid
      simpa using fun hmem => hdisjoint id hmem id hid rfl
    · simp
  rw [List.eraseDups_append, hrest, eraseDups_eq_self hids, eraseDups_eq_self hnd]

/-- Keeping first occurrences goes on, behind the first node, with the nodes that differ from it. -/
theorem eraseDups_induction {p : List NodeId → Prop} (nil : p [])
    (cons : ∀ id ids, p (ids.filter fun j => !j == id) → p (id :: ids)) (ids : List NodeId) :
    p ids := by
  cases ids with
  | nil => exact nil
  | cons id ids => exact cons id ids (eraseDups_induction nil cons _)
termination_by ids.length
decreasing_by
  exact Nat.lt_succ_of_le (List.length_filter_le _ _)

/-- Distinct copies are kept once where their originals are. -/
theorem eraseDups_map {f : NodeId → NodeId} {ids : List NodeId}
    (hinj : ∀ i ∈ ids, ∀ j ∈ ids, f i = f j → i = j) :
    (ids.map f).eraseDups = ids.eraseDups.map f := by
  induction ids using eraseDups_induction with
  | nil => rfl
  | cons id ids ih =>
    have hfilter : (ids.map f).filter (fun j => !j == f id) =
        (ids.filter fun j => !j == id).map f := by
      rw [List.filter_map]
      refine congrArg _ (List.filter_congr ?_)
      intro j hj
      have hiff : f j = f id ↔ j = id :=
        ⟨hinj j (List.mem_cons_of_mem _ hj) id (List.mem_cons_self ..), congrArg f⟩
      rw [Function.comp_apply, Bool.eq_iff_iff]
      simpa using not_congr hiff
    rw [List.map_cons, List.eraseDups_cons, List.eraseDups_cons, List.map_cons, hfilter, ih]
    intro i hi j hj
    exact hinj i (List.mem_cons_of_mem _ (List.mem_filter.1 hi).1) j
      (List.mem_cons_of_mem _ (List.mem_filter.1 hj).1)

namespace Query

variable {α : Type} {q : Query α} {a : Arena α}

theorem contains_eq_true_iff {id : NodeId} : q.contains id = true ↔ id ∈ q.nodes := by
  simp [contains]

/-- A node passes exactly when it reads members only. -/
theorem requireInside_eq_ok_iff {id : NodeId} {targets : List NodeId} :
    q.requireInside a id targets = .ok () ↔ targets ⊆ q.nodes := by
  induction targets with
  | nil => simp [requireInside]
  | cons target targets ih =>
    rw [List.cons_subset]
    unfold requireInside
    split
    · rename_i h
      simp [ih, contains_eq_true_iff.1 h]
    · rename_i h
      rw [contains_eq_true_iff] at h
      simp [h]

theorem checkNodes_eq_ok_iff {ids : List NodeId} :
    q.checkNodes a ids = .ok () ↔
      ∀ id ∈ ids, ∃ n, a.get? id = some n ∧ n.references ⊆ q.nodes := by
  induction ids with
  | nil => simp [checkNodes]
  | cons id ids ih =>
    rw [List.forall_mem_cons]
    unfold checkNodes
    cases hn : a.get? id with
    | none => simp
    | some n =>
      simp only [Option.some.injEq, exists_eq_left']
      cases hr : q.requireInside a id n.references with
      | error err =>
        have hout : ¬n.references ⊆ q.nodes := by
          intro hsub
          rw [requireInside_eq_ok_iff.2 hsub] at hr
          cases hr
        simp [hout]
      | ok u => simp [ih, requireInside_eq_ok_iff.1 hr]

/-- The check passes exactly when every member is in the arena and reads members only. -/
theorem checkIntegrity_eq_ok_iff :
    q.checkIntegrity a = .ok () ↔
      ∀ id ∈ q.nodes, ∃ n, a.get? id = some n ∧ n.references ⊆ q.nodes :=
  checkNodes_eq_ok_iff

/-! ## Adding equations -/

/-- An equation over members is added. -/
theorem run_addEquation_of_subset {e : Equation α} (h : e.nodes ⊆ q.nodes) :
    (addEquation e).run q = (.ok (), q.withEquation e h) := by
  rw [addEquation, run_bind, run_get]
  dsimp only
  split
  · rename_i err hr
    rw [requireMembers_eq_ok_iff.2 h] at hr
    cases hr
  · rfl

/-- An equation with a term that is not a member is refused, and the query is left as it was. -/
theorem run_addEquation_of_not_subset {e : Equation α} (h : ¬e.nodes ⊆ q.nodes) :
    ∃ err, requireMembers q.nodes .equationTerm e.nodes = .error err ∧
      (addEquation e).run q = (.error err, q) := by
  rw [addEquation, run_bind, run_get]
  dsimp only
  split
  · rename_i err hr
    exact ⟨err, hr, rfl⟩
  · rename_i hr
    exact absurd (requireMembers_eq_ok_iff.1 hr) h

theorem Change.applied_eq_ok_iff {c : Change α Unit} {q' : Query α} :
    c.applied q = .ok q' ↔ c.run q = (.ok (), q') := by
  unfold applied
  constructor
  · intro h
    split at h
    · cases h
      assumption
    · cases h
  · intro h
    rw [h]

/-- Exactly the equations over members are accepted. -/
theorem pushEquation_eq_ok_iff {q' : Query α} {e : Equation α} :
    q.pushEquation e = .ok q' ↔ ∃ h : e.nodes ⊆ q.nodes, q' = q.withEquation e h := by
  rw [pushEquation, Change.applied_eq_ok_iff]
  constructor
  · intro hrun
    by_cases h : e.nodes ⊆ q.nodes
    · rw [run_addEquation_of_subset h] at hrun
      cases hrun
      exact ⟨h, rfl⟩
    · obtain ⟨err, -, herr⟩ := run_addEquation_of_not_subset h
      cases herr.symm.trans hrun
  · rintro ⟨h, rfl⟩
    exact run_addEquation_of_subset h

/-- An accepted equation is added behind the others, and nothing else changes. -/
theorem pushEquation_eq_ok {q' : Query α} {e : Equation α} (h : q.pushEquation e = .ok q') :
    q'.nodes = q.nodes ∧ q'.inputs = q.inputs ∧ q'.outputs = q.outputs ∧
      q'.equations = q.equations ++ [e] := by
  obtain ⟨hsub, rfl⟩ := pushEquation_eq_ok_iff.1 h
  exact ⟨rfl, rfl, rfl, rfl⟩

theorem exists_pushEquation_iff {e : Equation α} :
    (∃ q', q.pushEquation e = .ok q') ↔ e.nodes ⊆ q.nodes := by
  constructor
  · rintro ⟨q', hq'⟩
    exact (pushEquation_eq_ok_iff.1 hq').1
  · intro h
    exact ⟨_, pushEquation_eq_ok_iff.2 ⟨h, rfl⟩⟩

/-- Many equations are added one after the other. -/
theorem applied_forM_addEquation (es : List (Equation α)) (q : Query α) :
    Change.applied (es.forM addEquation) q = es.foldlM pushEquation q := by
  induction es generalizing q with
  | nil => rfl
  | cons e es ih =>
    rw [List.forM_eq_forM, List.forM_cons, List.foldlM_cons, pushEquation, Change.applied,
      Change.applied, run_bind]
    rcases (addEquation e).run q with ⟨err | u, p⟩
    · rfl
    · exact ih p

/-- Accepted equations are added in order, and nothing else changes. -/
theorem foldlM_pushEquation_eq_ok {q' : Query α} {es : List (Equation α)}
    (h : es.foldlM pushEquation q = .ok q') :
    q'.nodes = q.nodes ∧ q'.inputs = q.inputs ∧ q'.outputs = q.outputs ∧
      q'.equations = q.equations ++ es := by
  induction es generalizing q with
  | nil =>
    cases h
    exact ⟨rfl, rfl, rfl, (List.append_nil _).symm⟩
  | cons e es ih =>
    rw [List.foldlM_cons] at h
    cases hp : q.pushEquation e with
    | error err =>
      rw [hp] at h
      cases h
    | ok p =>
      rw [hp] at h
      obtain ⟨hn, hi, ho, he⟩ := pushEquation_eq_ok hp
      obtain ⟨hn', hi', ho', he'⟩ := ih h
      refine ⟨hn'.trans hn, hi'.trans hi, ho'.trans ho, ?_⟩
      rw [he', he, List.append_assoc, List.singleton_append]

theorem exists_foldlM_pushEquation {q : Query α} {es : List (Equation α)}
    (h : ∀ e ∈ es, e.nodes ⊆ q.nodes) : ∃ q', es.foldlM pushEquation q = .ok q' := by
  induction es generalizing q with
  | nil => exact ⟨q, rfl⟩
  | cons e es ih =>
    obtain ⟨he, hes⟩ := List.forall_mem_cons.1 h
    obtain ⟨q₁, hp⟩ := exists_pushEquation_iff.2 he
    obtain ⟨hn, -⟩ := pushEquation_eq_ok hp
    obtain ⟨q', hq'⟩ := ih (q := q₁) (by rwa [hn])
    refine ⟨q', ?_⟩
    rw [List.foldlM_cons, hp]
    exact hq'

/-- The parts of a query that was built: each given member once, and the rest as given. -/
theorem new_eq_ok {nodes inputs outputs : List NodeId} {es : List (Equation α)}
    (h : Query.new nodes inputs outputs es = .ok q) :
    q.nodes = nodes.eraseDups ∧ q.inputs = inputs ∧ q.outputs = outputs ∧ q.equations = es := by
  unfold Query.new at h
  split at h
  · cases h
  · split at h
    · cases h
    · rw [applied_forM_addEquation] at h
      exact foldlM_pushEquation_eq_ok h

/-- A query is accepted exactly when all that it names is among the given nodes. -/
theorem exists_new_iff {nodes inputs outputs : List NodeId} {es : List (Equation α)} :
    (∃ q, Query.new nodes inputs outputs es = .ok q) ↔
      inputs ⊆ nodes ∧ outputs ⊆ nodes ∧ ∀ e ∈ es, e.nodes ⊆ nodes := by
  have hdups : ∀ ids : List NodeId, ids ⊆ nodes.eraseDups ↔ ids ⊆ nodes := by
    intro ids
    simp only [List.subset_def, List.mem_eraseDups]
  constructor
  · rintro ⟨q, h⟩
    obtain ⟨hn, hi, ho, he⟩ := new_eq_ok h
    refine ⟨?_, ?_, ?_⟩
    · exact (hdups _).1 (hn ▸ hi ▸ q.inputs_subset)
    · exact (hdups _).1 (hn ▸ ho ▸ q.outputs_subset)
    · intro e hmem
      exact (hdups _).1 (hn ▸ q.terms_subset e (he ▸ hmem))
  · rintro ⟨hi, ho, he⟩
    unfold Query.new
    split
    · rename_i err hr
      rw [requireMembers_eq_ok_iff.2 ((hdups _).2 hi)] at hr
      cases hr
    · split
      · rename_i err hr
        rw [requireMembers_eq_ok_iff.2 ((hdups _).2 ho)] at hr
        cases hr
      · simp only [applied_forM_addEquation]
        exact exists_foldlM_pushEquation fun e hmem => (hdups _).2 (he e hmem)

end Query

end PiecewiseNet
