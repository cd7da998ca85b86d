import PiecewiseNet.Proofs.Ipq.Progress
import PiecewiseNet.Proofs.Solver.Variables

/-!
# Passes over exported queries

An exported query has an equation for every affine member and a constraint for every rectifier, in
the order of its table. Once some members have nodes, a pass defines exactly the ready ones: those
that have no node yet and read members with nodes only.

## Main definitions

- `IpqFile.Exports`: the equations and constraints of a file are those of members.
- `IpqFile.Placed`: which members have nodes, and that these nodes are the members over again.
- `IpqFile.Ready`: the member can be defined.

## Main statements

- `IpqFile.exports_of_tabulates`: an exported file has the equations and constraints of members.
- `IpqFile.Placed.of_definitions`: members whose definitions were added have nodes.
- `IpqFile.Placed.exists_affineLayer`, `IpqFile.Placed.exists_reluLayer`: one pass.
- `IpqFile.Placed.looseRelu?_eq_none`, `IpqFile.Placed.looseEquation?_eq_none`: once every member
  has a node, no record is left over.
-/

namespace PiecewiseNet

/-- The kind of the node at a place. -/
def Arena.kindAt {α : Type} (a : Arena α) (id : NodeId) : NodeKind α :=
  ((a.get? id).map Node.kind).getD .plain

theorem Arena.reads_iff_kindAt {α : Type} {a : Arena α} {id r : NodeId} :
    a.Reads id r ↔ r ∈ (a.kindAt id).references := by
  rw [Arena.Reads, Network.references, Arena.kindAt]
  cases a.get? id <;> rfl

/-- The node that a rectifier reads. -/
def Arena.argumentAt {α : Type} (a : Arena α) (id : NodeId) : NodeId :=
  match a.kindAt id with
  | .relu input _ => input
  | _ => 0

namespace IpqFile

section

variable {α : Type}

/-- The node of a member, by its variable. -/
def nodeOf (t : VariableTable) (vars : VarMap NodeId) (id : NodeId) : NodeId :=
  (vars.get? (t.varOf id)).getD 0

/-- The equation of a member, if it is affine. -/
def equationAt [Scalar α] (a : Arena α) (t : VariableTable) (id : NodeId) :
    Option (IpqEquation α) :=
  (a.get? id).bind (SolverQuery.definitionOf t (t.varOf id))

/-- The constraint of a member, if it is a rectifier. -/
def constraintAt (a : Arena α) (t : VariableTable) (id : NodeId) : Option IpqConstraint :=
  ((a.get? id).bind (SolverQuery.reluOf t (t.varOf id))).map fun p => .relu p.f p.b

/-- The equations and constraints of the file are those of the members in the table, which read
each other only. -/
structure Exports [Scalar α] (f : IpqFile α) (a : Arena α) (t : VariableTable) : Prop where
  nodup : t.Nodup
  closed : ∀ id ∈ t, ∀ r, a.Reads id r → r ∈ t
  equations : f.equations = t.filterMap (equationAt a t)
  constraints : f.constraints = t.filterMap (constraintAt a t)

/-- The members in `done`, and no others, have nodes, each of the kind of the member over the nodes
of the members that it reads. -/
structure Placed (a₀ : Arena α) (t : VariableTable) (start b : Arena α) (vars : VarMap NodeId)
    (done : List NodeId) : Prop where
  names : start.Names b vars fun v k =>
    ∃ id ∈ done, t.varOf id = v ∧ k = (a₀.kindAt id).redirect (nodeOf t vars)
  defined : ∀ id ∈ done, ∃ j, vars.get? (t.varOf id) = some j
  closed : ∀ id ∈ done, ∀ r, a₀.Reads id r → r ∈ done
  subset : done ⊆ t

/-- The member has no node, and all that it reads have nodes. -/
structure Ready (a₀ : Arena α) (done : List NodeId) (id : NodeId) : Prop where
  fresh : id ∉ done
  reads : ∀ r, a₀.Reads id r → r ∈ done

variable {a₀ start b : Arena α} {t : VariableTable} {vars : VarMap NodeId} {done more : List NodeId}
  {id : NodeId}

theorem varOf_inj {i j : NodeId} (hi : i ∈ t) (h : t.varOf i = t.varOf j) : i = j :=
  (List.idxOf_inj hi).1 h

theorem nodup_map_varOf {ids : List NodeId} (hnd : ids.Nodup) (hsub : ids ⊆ t) :
    (ids.map t.varOf).Nodup :=
  List.Nodup.map_on (fun _ hi _ _ => varOf_inj (hsub hi)) hnd

theorem Placed.exists_get?_iff (h : Placed a₀ t start b vars done) :
    (∃ j, vars.get? (t.varOf id) = some j) ↔ id ∈ done := by
  constructor
  · rintro ⟨j, hj⟩
    obtain ⟨-, n, -, -, i, hi, heq, -⟩ := h.names.node _ j hj
    exact varOf_inj (h.subset hi) heq ▸ hi
  · exact h.defined id

theorem Placed.contains_iff (h : Placed a₀ t start b vars done) :
    vars.contains (t.varOf id) = true ↔ id ∈ done := by
  rw [VarMap.contains_iff_exists, h.exists_get?_iff]

theorem Placed.get?_eq (h : Placed a₀ t start b vars done) (hid : id ∈ done) :
    vars.get? (t.varOf id) = some (nodeOf t vars id) := by
  obtain ⟨j, hj⟩ := h.defined id hid
  rw [nodeOf, hj, Option.getD_some]

/-- A member that has a node keeps it. -/
theorem Placed.nodeOf_eq (h : Placed a₀ t start b vars done) (hid : id ∈ done)
    {vars' : VarMap NodeId} (hwithin : Within vars vars') :
    nodeOf t vars' id = nodeOf t vars id := by
  rw [nodeOf, nodeOf, h.get?_eq hid, hwithin _ _ (h.get?_eq hid)]

/-- Distinct members have distinct nodes. -/
theorem Placed.nodeOf_inj (h : Placed a₀ t start b vars done) {i j : NodeId} (hi : i ∈ done)
    (hj : j ∈ done) (heq : nodeOf t vars i = nodeOf t vars j) : i = j :=
  varOf_inj (h.subset hi)
    (h.names.injective _ _ _ (h.get?_eq hi) (heq ▸ h.get?_eq hj))

/-- The node of a member is the member over again. -/
theorem Placed.node (h : Placed a₀ t start b vars done) (hid : id ∈ done) :
    ∃ m, b.get? (nodeOf t vars id) = some m ∧ m.bounds = .unbounded ∧
      m.kind = (a₀.kindAt id).redirect (nodeOf t vars) := by
  obtain ⟨-, m, hm, hbounds, i, hi, heq, hkind⟩ := h.names.node _ _ (h.get?_eq hid)
  exact ⟨m, hm, hbounds, varOf_inj (h.subset hi) heq ▸ hkind⟩

theorem Placed.congr (h : Placed a₀ t start b vars done) {done' : List NodeId}
    (hdone : ∀ id, id ∈ done' ↔ id ∈ done) : Placed a₀ t start b vars done' := by
  refine ⟨h.names.imp ?_, ?_, ?_, ?_⟩
  · rintro v k ⟨id, hid, hrest⟩
    exact ⟨id, (hdone id).2 hid, hrest⟩
  · exact fun id hid => h.defined id ((hdone id).1 hid)
  · exact fun id hid r hr => (hdone r).2 (h.closed id ((hdone id).1 hid) r hr)
  · exact fun id hid => h.subset ((hdone id).1 hid)

/-- The added nodes are those of the members in their order. -/
theorem Definitions.nodes_eq {k : NodeId → NodeKind α} {d d' : VarMap NodeId} {a : Arena α}
    {ids : List NodeId} (h : Definitions (more.map fun id => (t.varOf id, k id)) d a d' b ids) :
    (∀ id ∈ more, d'.get? (t.varOf id) = some (nodeOf t d' id)) ∧ ids = more.map (nodeOf t d') := by
  have hmap : (more.map t.varOf).map d'.get? = ids.map some := by
    simpa [Function.comp_def] using h.map_get?
  have hnode : ∀ id ∈ more, d'.get? (t.varOf id) = some (nodeOf t d' id) := by
    intro id hid
    obtain ⟨j, -, hj⟩ := VarMap.exists_get?_of_map_eq hmap _ (List.mem_map_of_mem hid)
    rw [nodeOf, hj, Option.getD_some]
  refine ⟨hnode, List.map_injective_iff.2 (Option.some_injective _) ?_⟩
  rw [← hmap, List.map_map, List.map_map]
  exact List.map_congr_left hnode

/-- The nodes of free members, over which nothing else has a node. -/
theorem Placed.of_definitions {ids : List NodeId}
    (hplain : ∀ id ∈ more, a₀.kindAt id = .plain) (hsub : more ⊆ t)
    (hdefs : Definitions ((more.map t.varOf).map fun v => (v, .plain)) OrderedMap.empty start vars b
      ids) : Placed a₀ t start b vars more ∧ ids = more.map (nodeOf t vars) := by
  rw [List.map_map] at hdefs
  obtain ⟨hdefined, hids⟩ := Definitions.nodes_eq (k := fun _ => .plain) hdefs
  refine ⟨⟨hdefs.names.imp ?_, fun id hid => ⟨_, hdefined id hid⟩, ?_, hsub⟩, hids⟩
  · intro v k hmem
    obtain ⟨id, hid, heq⟩ := List.mem_map.1 hmem
    cases heq
    exact ⟨id, hid, rfl, by rw [hplain id hid]; rfl⟩
  · intro id hid r hr
    rw [Arena.reads_iff_kindAt, hplain id hid] at hr
    cases hr

/-- After a pass that defines ready members, these have nodes as well. -/
theorem Placed.extend (h : Placed a₀ t start b vars done) (hsub : more ⊆ t)
    (hready : ∀ id ∈ more, Ready a₀ done id) {d : VarMap NodeId} {c : Arena α} {ids : List NodeId}
    (hdefs : Definitions
      (more.map fun id => (t.varOf id, (a₀.kindAt id).redirect (nodeOf t vars)))
      OrderedMap.empty b d c ids) :
    Placed a₀ t start c (vars.insertAll d.entries) (done ++ more) ∧
      ids = more.map (nodeOf t (vars.insertAll d.entries)) ∧
      Within vars (vars.insertAll d.entries) := by
  have hd := hdefs.names
  have hwithin : Within vars (vars.insertAll d.entries) := by
    refine .insertAll fun v j hj => ?_
    obtain ⟨-, n, -, -, hmem⟩ := hd.node v j hj
    obtain ⟨id, hid, heq⟩ := List.mem_map.1 hmem
    obtain ⟨rfl, -⟩ := Prod.mk.inj heq
    rw [Option.eq_none_iff_forall_ne_some]
    exact fun j hj => (hready id hid).fresh (h.exists_get?_iff.1 ⟨j, hj⟩)
  have hsame : ∀ r ∈ done, nodeOf t vars r = nodeOf t (vars.insertAll d.entries) r :=
    fun r hr => (h.nodeOf_eq hr hwithin).symm
  obtain ⟨hnew, hids⟩ := hdefs.nodes_eq
  have hget : ∀ id j, d.get? (t.varOf id) = some j →
      (vars.insertAll d.entries).get? (t.varOf id) = some j := by
    intro id j hj
    rw [VarMap.get?_insertAll_entries, hj, Option.some_or]
  refine ⟨⟨(h.names.imp ?_).insertAll (hd.imp ?_), ?_, ?_, ?_⟩, ?_, hwithin⟩
  · rintro v k ⟨id, hid, rfl, rfl⟩
    refine ⟨id, List.mem_append_left _ hid, rfl, NodeKind.redirect_congr fun r hr => ?_⟩
    exact hsame r (h.closed id hid r (Arena.reads_iff_kindAt.2 hr))
  · intro v k hmem
    obtain ⟨id, hid, heq⟩ := List.mem_map.1 hmem
    obtain ⟨rfl, rfl⟩ := Prod.mk.inj heq
    refine ⟨id, List.mem_append_right _ hid, rfl, NodeKind.redirect_congr fun r hr => ?_⟩
    exact hsame r ((hready id hid).reads r (Arena.reads_iff_kindAt.2 hr))
  · intro id hid
    rcases List.mem_append.1 hid with hid | hid
    · exact ⟨_, hwithin _ _ (h.get?_eq hid)⟩
    · exact ⟨_, hget id _ (hnew id hid)⟩
  · intro id hid r hr
    rcases List.mem_append.1 hid with hid | hid
    · exact List.mem_append_left _ (h.closed id hid r hr)
    · exact List.mem_append_left _ ((hready id hid).reads r hr)
  · exact List.append_subset.2 ⟨h.subset, hsub⟩
  · rw [hids]
    refine List.map_congr_left fun id hid => ?_
    rw [nodeOf, nodeOf, hget id _ (hnew id hid), hnew id hid]

/-- The definitions of some members, from those of all: the others have none. -/
theorem filterMap_eq_map {β : Type} {F : NodeId → Option β} {g : NodeId → β} (hnd : t.Nodup)
    (hsub : more.Sublist t) (hmore : ∀ id ∈ more, F id = some (g id))
    (hother : ∀ id ∈ t, id ∉ more → F id = none) : t.filterMap F = more.map g := by
  induction hsub with
  | slnil => rfl
  | @cons l₁ l₂ id hsub ih =>
    obtain ⟨hid, hnd⟩ := List.nodup_cons.1 hnd
    obtain ⟨hnone, hother⟩ := List.forall_mem_cons.1 hother
    rw [List.filterMap_cons_none (hnone fun hmem => hid (hsub.subset hmem)),
      ih hnd hmore hother]
  | @cons_cons l₁ l₂ id hsub ih =>
    obtain ⟨hid, hnd⟩ := List.nodup_cons.1 hnd
    obtain ⟨hsome, hmore⟩ := List.forall_mem_cons.1 hmore
    rw [List.filterMap_cons_some hsome, List.map_cons, ih hnd hmore]
    intro j hj hnot
    refine hother j (List.mem_cons_of_mem _ hj) fun hmem => ?_
    rcases List.mem_cons.1 hmem with rfl | hmem
    · exact hid hj
    · exact hnot hmem

end

/-! ## Affine passes -/

section Affine

variable {α : Type} [Scalar α] {a₀ start b : Arena α} {t : VariableTable} {vars : VarMap NodeId}
  {done more : List NodeId} {id : NodeId} {f : IpqFile α}

theorem equationAt_eq (a : Arena α) (t : VariableTable) (id : NodeId) :
    equationAt a t id =
      match a.kindAt id with
      | .affine terms bias =>
        some ⟨.eq, -bias, terms.map (fun p => (t.varOf p.2, p.1)) ++ [(t.varOf id, -1)]⟩
      | _ => none := by
  rw [equationAt, Arena.kindAt]
  cases a.get? id with
  | none => rfl
  | some n =>
    rcases n with ⟨kind, _, _⟩
    cases kind <;> rfl

/-- The fresh addends of a definition are those of the members without nodes. -/
theorem Placed.freshAddends_eq (h : Placed a₀ t start b vars done) (terms : Terms α)
    (bias : α) :
    freshAddends vars
      ⟨.eq, -bias, terms.map (fun p => (t.varOf p.2, p.1)) ++ [(t.varOf id, -1)]⟩ =
      (terms.filter fun p => decide (p.2 ∉ done)).map (fun p => (t.varOf p.2, p.1)) ++
        if id ∈ done then [] else [(t.varOf id, -1)] := by
  have hcontains : ∀ j, (!vars.contains (t.varOf j)) = decide (j ∉ done) := by
    intro j
    rw [Bool.eq_iff_iff, Bool.not_eq_true', ← Bool.not_eq_true, h.contains_iff, decide_eq_true_iff]
  rw [freshAddends, List.filter_append, List.filter_map]
  congr 1
  · simp only [Function.comp_def, hcontains]
  · by_cases hid : id ∈ done <;> simp [hcontains, hid]

/-- Dividing by minus one undoes the signs of a definition. -/
theorem definition_eq [LawfulSigns α] (terms : Terms α) (bias : α)
    (hid : ∀ p ∈ terms, t.varOf p.2 ≠ t.varOf id) :
    definition vars ⟨.eq, -bias, terms.map (fun p => (t.varOf p.2, p.1)) ++ [(t.varOf id, -1)]⟩
      (t.varOf id) (-1) = (NodeKind.affine terms bias).redirect (nodeOf t vars) := by
  have hterms : (terms.map fun p => (t.varOf p.2, p.1)).filter (·.1 != t.varOf id) =
      terms.map fun p => (t.varOf p.2, p.1) := by
    refine List.filter_eq_self.2 ?_
    rw [List.forall_mem_map]
    intro p hp
    simpa using hid p hp
  rw [definition, List.filter_append, hterms]
  simp [NodeKind.redirect, Terms.redirect, nodeOf, LawfulSigns.neg_div_neg_one]

/-- A ready affine member is what its equation defines. -/
theorem Placed.definedBy_of_ready [LawfulSigns α] (h : Placed a₀ t start b vars done)
    {terms : Terms α} {bias : α} (hkind : a₀.kindAt id = .affine terms bias)
    (hready : Ready a₀ done id) :
    (equationAt a₀ t id).bind (definedBy vars) =
      some (t.varOf id, (a₀.kindAt id).redirect (nodeOf t vars)) := by
  have hreads : ∀ p ∈ terms, p.2 ∈ done := by
    intro p hp
    refine hready.reads p.2 (Arena.reads_iff_kindAt.2 ?_)
    rw [hkind]
    exact List.mem_map.2 ⟨p, hp, rfl⟩
  have hnone : (terms.filter fun p => decide (p.2 ∉ done)) = [] := by
    rw [List.filter_eq_nil_iff]
    intro p hp
    simpa using hreads p hp
  have hself : ∀ p ∈ terms, t.varOf p.2 ≠ t.varOf id := by
    intro p hp heq
    have hpid := varOf_inj (h.subset (hreads p hp)) heq
    exact hready.fresh (hpid ▸ hreads p hp)
  rw [equationAt_eq, hkind]
  simp only [Option.bind_some, definedBy, h.freshAddends_eq, hnone, List.map_nil, List.nil_append,
    if_neg hready.fresh]
  rw [definition_eq terms bias hself]

/-- What an equation of a member has as its only fresh addend is the member itself. -/
theorem Placed.ready_of_freshAddends (h : Placed a₀ t start b vars done) {terms : Terms α}
    {bias : α} (hkind : a₀.kindAt id = .affine terms bias) {v : Nat} {c : α}
    (hfresh : freshAddends vars
      ⟨.eq, -bias, terms.map (fun p => (t.varOf p.2, p.1)) ++ [(t.varOf id, -1)]⟩ = [(v, c)]) :
    Ready a₀ done id ∧ c = -1 := by
  have hreads : ∀ r, a₀.Reads id r ↔ ∃ p ∈ terms, p.2 = r := by
    intro r
    rw [Arena.reads_iff_kindAt, hkind, NodeKind.references, Terms.nodes, List.mem_map]
  rw [h.freshAddends_eq] at hfresh
  by_cases hid : id ∈ done
  · have hnone : (terms.filter fun p => decide (p.2 ∉ done)) = [] := by
      rw [List.filter_eq_nil_iff]
      intro p hp
      simpa using h.closed id hid p.2 ((hreads p.2).2 ⟨p, hp, rfl⟩)
    rw [hnone, if_pos hid] at hfresh
    cases hfresh
  · rw [if_neg hid, List.append_eq_singleton_iff] at hfresh
    rcases hfresh with ⟨hnone, hself⟩ | ⟨-, hself⟩
    · cases hself
      refine ⟨⟨hid, ?_⟩, rfl⟩
      intro r hr
      obtain ⟨p, hp, rfl⟩ := (hreads r).1 hr
      rw [List.map_eq_nil_iff, List.filter_eq_nil_iff] at hnone
      simpa using hnone p hp
    · cases hself

/-- The equations define the ready affine members, in their order. -/
theorem Placed.filterMap_definedBy [LawfulSigns α] (h : Placed a₀ t start b vars done)
    (hf : f.Exports a₀ t) (hsub : more.Sublist t)
    (hmore : ∀ id ∈ t, id ∈ more ↔
      (∃ terms bias, a₀.kindAt id = .affine terms bias) ∧ Ready a₀ done id) :
    f.equations.filterMap (definedBy vars) =
      more.map fun id => (t.varOf id, (a₀.kindAt id).redirect (nodeOf t vars)) := by
  rw [hf.equations, List.filterMap_filterMap]
  refine filterMap_eq_map hf.nodup hsub ?_ ?_
  · intro id hid
    obtain ⟨⟨terms, bias, hkind⟩, hready⟩ := (hmore id (hsub.subset hid)).1 hid
    exact h.definedBy_of_ready hkind hready
  · intro id hid hnot
    rw [equationAt_eq]
    split
    · rename_i terms bias hkind
      simp only [Option.bind_some, definedBy]
      split
      · rename_i v c hfresh
        exact absurd ((hmore id hid).2 ⟨⟨terms, bias, hkind⟩,
          (h.ready_of_freshAddends hkind hfresh).1⟩) hnot
      · rfl
    · rfl

/-- An affine pass defines the ready affine members, in their order. -/
theorem Placed.exists_affineLayer [LawfulSigns α] (h : Placed a₀ t start b vars done)
    (hf : f.Exports a₀ t) (hsub : more.Sublist t)
    (hmore : ∀ id ∈ t, id ∈ more ↔
      (∃ terms bias, a₀.kindAt id = .affine terms bias) ∧ Ready a₀ done id)
    (strict : Bool) (stem : String) (i : Nat) :
    ∃ d ids c, (affineLayer strict stem vars i f.equations OrderedMap.empty).Yields b (d, ids) c ∧
      Placed a₀ t start c (vars.insertAll d.entries) (done ++ more) ∧
      ids = more.map (nodeOf t (vars.insertAll d.entries)) ∧
      Within vars (vars.insertAll d.entries) := by
  have hes : ∀ e ∈ f.equations, e.comparator = .eq ∧
      ∀ v c, freshAddends vars e = [(v, c)] → c = -1 := by
    intro e he
    rw [hf.equations] at he
    obtain ⟨id, hid, heq⟩ := List.mem_filterMap.1 he
    rw [equationAt_eq] at heq
    split at heq
    · rename_i terms bias hkind
      cases heq
      exact ⟨rfl, fun v c hfresh => (h.ready_of_freshAddends hkind hfresh).2⟩
    · cases heq
  have hdefs := h.filterMap_definedBy hf hsub hmore
  have hnd : ((f.equations.filterMap (definedBy vars)).map Prod.fst).Nodup := by
    rw [hdefs, List.map_map]
    exact nodup_map_varOf (hf.nodup.sublist hsub) hsub.subset
  obtain ⟨d, ids, c, hyields, hdefinitions⟩ :=
    IpqFile.exists_affineLayer (d := OrderedMap.empty) (a := b) hes hnd (by simp)
  rw [hdefs] at hdefinitions
  exact ⟨d, ids, c, hyields, h.extend hsub.subset
    (fun id hid => ((hmore id (hsub.subset hid)).1 hid).2) hdefinitions⟩

end Affine

/-! ## Rectifier passes -/

section Rectifiers

variable {α : Type} [Scalar α] {a₀ start b : Arena α} {t : VariableTable} {vars : VarMap NodeId}
  {done more : List NodeId} {id : NodeId} {f : IpqFile α}

omit [Scalar α] in
theorem constraintAt_eq (a : Arena α) (t : VariableTable) (id : NodeId) :
    constraintAt a t id =
      match a.kindAt id with
      | .relu input _ => some (.relu (t.varOf id) (t.varOf input))
      | _ => none := by
  rw [constraintAt, Arena.kindAt]
  cases a.get? id with
  | none => rfl
  | some n =>
    rcases n with ⟨kind, _, _⟩
    cases kind <;> rfl

omit [Scalar α] in
/-- What the constraint of a rectifier defines: the rectifier, if it is ready. -/
theorem Placed.rectifiedBy_eq (h : Placed a₀ t start b vars done) (input : NodeId) :
    rectifiedBy vars (.relu (t.varOf id) (t.varOf input)) =
      if id ∉ done ∧ input ∈ done then some (t.varOf id, nodeOf t vars input) else none := by
  rw [rectifiedBy]
  by_cases hid : id ∈ done
  · rw [if_pos (h.contains_iff.2 hid), if_neg (fun hand => hand.1 hid)]
  · rw [if_neg (fun hcontains => hid (h.contains_iff.1 hcontains))]
    by_cases hinput : input ∈ done
    · rw [if_pos ⟨hid, hinput⟩, h.get?_eq hinput, Option.map_some]
    · rw [if_neg (fun hand => hinput hand.2), Option.map_eq_none_iff,
        Option.eq_none_iff_forall_ne_some]
      exact fun j hj => hinput (h.exists_get?_iff.1 ⟨j, hj⟩)

section

variable (h : Placed a₀ t start b vars done) (hf : f.Exports a₀ t) (hsub : more.Sublist t)
  (hmore : ∀ id ∈ t, id ∈ more ↔
    (∃ input relaxed, a₀.kindAt id = .relu input relaxed) ∧ Ready a₀ done id)
  (hexact : ∀ id ∈ more, a₀.kindAt id = .relu (a₀.argumentAt id) false)
include h hsub hmore hexact

omit [Scalar α] h in
/-- What a ready rectifier reads has a node. -/
theorem argumentAt_mem : ∀ id ∈ more, a₀.argumentAt id ∈ done := by
  intro id hid
  refine ((hmore id (hsub.subset hid)).1 hid).2.reads _ (Arena.reads_iff_kindAt.2 ?_)
  rw [hexact id hid]
  exact List.mem_singleton.2 rfl

include hf

/-- The constraints define the ready rectifiers, in their order. -/
theorem Placed.filterMap_rectifiedBy :
    f.constraints.filterMap (rectifiedBy vars) =
      more.map fun id => (t.varOf id, nodeOf t vars (a₀.argumentAt id)) := by
  rw [hf.constraints, List.filterMap_filterMap]
  refine filterMap_eq_map hf.nodup hsub ?_ ?_
  · intro id hid
    rw [constraintAt_eq, hexact id hid]
    simp only [Option.bind_some]
    rw [h.rectifiedBy_eq, if_pos]
    exact ⟨((hmore id (hsub.subset hid)).1 hid).2.fresh, argumentAt_mem hsub hmore hexact id hid⟩
  · intro id hid hnot
    rw [constraintAt_eq]
    split
    · rename_i input relaxed hkind
      simp only [Option.bind_some]
      rw [h.rectifiedBy_eq, if_neg]
      rintro ⟨hfresh, hinput⟩
      refine hnot ((hmore id hid).2 ⟨⟨input, relaxed, hkind⟩, hfresh, ?_⟩)
      intro r hr
      rw [Arena.reads_iff_kindAt, hkind] at hr
      exact List.mem_singleton.1 hr ▸ hinput
    · rfl

/-- A rectifier pass defines the ready rectifiers, in their order. -/
theorem Placed.exists_reluLayer (stem : String) :
    ∃ d relus c, (reluLayer stem vars f.constraints OrderedMap.empty).Yields b (d, relus) c ∧
      Placed a₀ t start c (vars.insertAll d.entries) (done ++ more) ∧
      relus = more.map (fun id => (nodeOf t (vars.insertAll d.entries) (a₀.argumentAt id),
        nodeOf t (vars.insertAll d.entries) id)) ∧
      Within vars (vars.insertAll d.entries) := by
  have hdefs := h.filterMap_rectifiedBy hf hsub hmore hexact
  have hnd : ((f.constraints.filterMap (rectifiedBy vars)).map Prod.fst).Nodup := by
    rw [hdefs, List.map_map]
    exact nodup_map_varOf (hf.nodup.sublist hsub) hsub.subset
  obtain ⟨d, relus, c, hyields, hdefinitions, hinputs⟩ :=
    IpqFile.exists_reluLayer (d := OrderedMap.empty) (a := b) hnd (by simp)
  have hkinds : ((f.constraints.filterMap (rectifiedBy vars)).map
      fun r => (r.1, NodeKind.relu (α := α) r.2 false)) =
      more.map fun id => (t.varOf id, (a₀.kindAt id).redirect (nodeOf t vars)) := by
    rw [hdefs, List.map_map]
    refine List.map_congr_left fun id hid => ?_
    rw [hexact id hid]
    rfl
  rw [hkinds] at hdefinitions
  obtain ⟨hplaced, hids, hwithin⟩ := h.extend hsub.subset
    (fun id hid => ((hmore id (hsub.subset hid)).1 hid).2) hdefinitions
  refine ⟨d, relus, c, hyields, hplaced, ?_, hwithin⟩
  have hfst : relus.map Prod.fst =
      more.map fun id => nodeOf t (vars.insertAll d.entries) (a₀.argumentAt id) := by
    rw [hinputs, hdefs, List.map_map]
    exact List.map_congr_left fun id hid =>
      (h.nodeOf_eq (argumentAt_mem hsub hmore hexact id hid) hwithin).symm
  rw [← List.zip_unzip relus, List.unzip_fst, List.unzip_snd, hfst, hids, List.zip_map']

end

end Rectifiers

/-! ## Exported queries -/

section

variable {α : Type} [Scalar α] {f : IpqFile α} {a : Arena α} {t : VariableTable}

/-- The addends of an equation are about members. -/
theorem Exports.of_mem_equations (h : f.Exports a t) {e : IpqEquation α} (he : e ∈ f.equations) :
    ∀ p ∈ e.addends, ∃ id ∈ t, p.1 = t.varOf id := by
  rw [h.equations] at he
  obtain ⟨id, hid, heq⟩ := List.mem_filterMap.1 he
  rw [equationAt_eq] at heq
  split at heq
  · rename_i terms bias hkind
    cases heq
    rw [List.forall_mem_append, List.forall_mem_map, List.forall_mem_singleton]
    refine ⟨?_, id, hid, rfl⟩
    intro p hp
    refine ⟨p.2, h.closed id hid p.2 ?_, rfl⟩
    rw [Arena.reads_iff_kindAt, hkind]
    exact List.mem_map_of_mem hp
  · cases heq

/-- A constraint is a rectifier over members. -/
theorem Exports.of_mem_constraints (h : f.Exports a t) {c : IpqConstraint}
    (hc : c ∈ f.constraints) : ∃ id ∈ t, ∃ r ∈ t, c = .relu (t.varOf id) (t.varOf r) := by
  rw [h.constraints] at hc
  obtain ⟨id, hid, heq⟩ := List.mem_filterMap.1 hc
  rw [constraintAt_eq] at heq
  split at heq
  · rename_i input relaxed hkind
    cases heq
    refine ⟨id, hid, input, h.closed id hid input ?_, rfl⟩
    rw [Arena.reads_iff_kindAt, hkind]
    exact List.mem_singleton_self input
  · cases heq

/-- Where every member has a node, no constraint is loose. -/
theorem Placed.looseRelu?_eq_none {start b : Arena α} {vars : VarMap NodeId}
    (h : Placed a t start b vars t) (hf : f.Exports a t) :
    looseRelu? vars f.constraints = none := by
  have hcs : ∀ c ∈ f.constraints, ∃ g b, c = .relu g b ∧ vars.contains g = true ∧
      vars.contains b = true := by
    intro c hc
    obtain ⟨id, hid, r, hr, rfl⟩ := hf.of_mem_constraints hc
    exact ⟨_, _, rfl, h.contains_iff.2 hid, h.contains_iff.2 hr⟩
  generalize f.constraints = cs at hcs
  induction cs with
  | nil => rfl
  | cons c cs ih =>
    obtain ⟨⟨g, b, rfl, hg, hb⟩, hrest⟩ := List.forall_mem_cons.1 hcs
    rw [looseRelu?, hg, hb]
    exact ih hrest

/-- Where every member has a node, no equation is loose. -/
theorem Placed.looseEquation?_eq_none {start b : Arena α} {vars : VarMap NodeId} {i : Nat}
    (h : Placed a t start b vars t) (hf : f.Exports a t) :
    looseEquation? vars i f.equations = none := by
  have hes : ∀ e ∈ f.equations, (e.addends.find? fun p => !vars.contains p.1) = none := by
    intro e he
    rw [List.find?_eq_none]
    intro p hp
    obtain ⟨id, hid, hv⟩ := hf.of_mem_equations he p hp
    rw [hv, h.contains_iff.2 hid]
    exact Bool.false_ne_true
  generalize f.equations = es at hes
  induction es generalizing i with
  | nil => rfl
  | cons e es ih =>
    obtain ⟨he, hes⟩ := List.forall_mem_cons.1 hes
    rw [looseEquation?, he]
    exact ih hes

end

/-- The record set of a query without equations and absolute values has a record for every affine
member and every rectifier. -/
theorem exports_of_tabulates {α : Type} [Scalar α] {e : SolverQuery α} {a : Arena α} {q : Query α}
    (h : e.Tabulates a q) (hcheck : q.checkIntegrity a = .ok ()) (heqs : q.equations = [])
    (habs : ∀ id ∈ q.nodes, ∀ n, a.get? id = some n → ConstraintSystem.isAbs n = false) :
    e.toIpq.Exports a e.table := by
  have hnumbered := Arena.numbered_eq_filterMap a h.table_nodup
  have hnone : e.abs = [] := by
    rw [h.abs, List.filterMap_eq_nil_iff]
    rintro ⟨v, n⟩ hmem
    obtain ⟨-, id, hid, hn⟩ := h.mem_of_mem_numbered hmem
    have hkind := habs id hid n hn
    cases hk : n.kind <;> simp_all [ConstraintSystem.isAbs, SolverQuery.absOf]
  refine ⟨h.table_nodup, ?_, ?_, ?_⟩
  · intro id hid r hr
    obtain ⟨n, hn, hrefs⟩ := Query.checkIntegrity_eq_ok_iff.1 hcheck id (h.mem_table_iff.1 hid)
    exact h.mem_table_iff.2 (hrefs ((Arena.reads_iff hn).1 hr))
  · rw [SolverQuery.toIpq, h.equations, heqs, List.map_nil, List.append_nil, hnumbered,
      List.filterMap_filterMap]
    refine List.filterMap_congr fun id _ => ?_
    rw [equationAt]
    cases a.get? id <;> rfl
  · rw [SolverQuery.toIpq, hnone, List.map_nil, List.append_nil, h.relus, hnumbered,
      List.filterMap_filterMap, List.map_filterMap]
    refine List.filterMap_congr fun id _ => ?_
    rw [constraintAt]
    cases a.get? id <;> rfl

end IpqFile

end PiecewiseNet
