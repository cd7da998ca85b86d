import PiecewiseNet.Proofs.FailedEdits
import PiecewiseNet.Proofs.Ipq.Attempts

/-!
# Building layers ends

The layers behind the inputs are added without a bound on their number: an affine pass, and behind
it a rectifier pass, until a pass fails or there is nothing to rectify. The definitions that were
made on the way are recorded.

## Main definitions

- `IpqFile.Settles`: the rounds until no layer is added.
- `IpqFile.Makes`: definitions of further variables, each by a record and a node of its own.

## Main statements

- `IpqFile.makes_of_affineLayer`, `IpqFile.makes_of_reluLayer`, `IpqFile.Makes.append`: what a pass
  defines, and passes that follow each other.
- `IpqFile.exists_settles`: the rounds come to an end.
- `IpqFile.layers_settle`: how adding the layers of a file ends.
-/

namespace PiecewiseNet

namespace IpqFile

variable {α : Type} [Scalar α] {f : IpqFile α} {strict : Bool} {stem : String}
  {vars vars' d d' : VarMap NodeId} {a b c m : Arena α}

/-! ## Definitions -/

/-- What the record says about the node of a variable: an equation, with a table of variables in
which this one is its only fresh one, or a rectifier with this output. -/
def Record.Defines (f : IpqFile α) : Record → Nat → NodeKind α → Prop
  | .equation j, v, k => ∃ e vars, f.equations[j]? = some e ∧ AffineStep vars e v k
  | .constraint j, v, k => ∃ g input, f.constraints[j]? = some (.relu v g) ∧ k = .relu input false

/-- Variables of the record, or the output of it if it is a rectifier, have no node. -/
def Record.Open (f : IpqFile α) (vars : VarMap NodeId) : Record → Prop
  | .equation j => ∃ e, f.equations[j]? = some e ∧ freshAddends vars e ≠ []
  | .constraint j => ∃ v g, f.constraints[j]? = some (.relu v g) ∧ vars.get? v = none

/-- Between two arenas these definitions were made, on top of a table of variables. -/
structure Makes (f : IpqFile α) (vars : VarMap NodeId) (a : Arena α) (made : List Made)
    (b : Arena α) : Prop where
  grows : a.GrowsTo b
  /-- One node was added for each definition, in their order. -/
  nodes : made.map Made.node = List.range' a.size made.length
  size : b.size = a.size + made.length
  /-- No record defines two variables. -/
  records : (made.map Made.record).Nodup
  /-- No variable is defined twice. -/
  defined : (made.map Made.defined).Nodup
  /-- No variable of the table is defined again. -/
  fresh : ∀ m ∈ made, vars.get? m.defined = none
  /-- The node of a definition is what its record says. -/
  kinds : ∀ m ∈ made, ∃ n, b.get? m.node = some n ∧ m.record.Defines f m.defined n.kind
  /-- Its record was not used up before. -/
  opens : ∀ m ∈ made, m.record.Open f vars

/-- The table has the variables of the other one, and those of the definitions. -/
def Extends (vars : VarMap NodeId) (made : List Made) (vars' : VarMap NodeId) : Prop :=
  ∀ v id, vars'.get? v = some id ↔ vars.get? v = some id ∨ ∃ m ∈ made, m.defined = v ∧ m.node = id

theorem Extends.within {made : List Made} (h : Extends vars made vars') : Within vars vars' :=
  fun v id hv => (h v id).2 (.inl hv)

theorem Extends.append {made made' : List Made} {vars'' : VarMap NodeId}
    (h : Extends vars made vars') (h' : Extends vars' made' vars'') :
    Extends vars (made ++ made') vars'' := by
  intro v id
  rw [h', h, or_assoc]
  simp only [List.mem_append, or_and_right, exists_or]

theorem Extends.ne_none {made : List Made} (h : Extends vars made vars') {x : Made}
    (hx : x ∈ made) : vars'.get? x.defined ≠ none := by
  rw [(h x.defined x.node).2 (.inr ⟨x, hx, rfl, rfl⟩)]
  exact Option.some_ne_none _

omit [Scalar α] in
theorem get?_eq_none_of_within (h : Within vars vars') {v : Nat} (hv : vars'.get? v = none) :
    vars.get? v = none := by
  cases hid : vars.get? v with
  | none => rfl
  | some id =>
    rw [h v id hid] at hv
    cases hv

omit [Scalar α] in
/-- What is open with a table was open with every part of it. -/
theorem Record.Open.of_within {r : Record} (h : r.Open f vars') (hwithin : Within vars vars') :
    r.Open f vars := by
  cases r with
  | equation j =>
    obtain ⟨e, he, hopen⟩ := h
    refine ⟨e, he, fun hnil => hopen ?_⟩
    rw [freshAddends, List.filter_eq_nil_iff] at hnil ⊢
    intro o ho hfresh
    refine hnil o ho ?_
    rw [OrderedMap.contains, Bool.not_eq_true', Option.isSome_eq_false_iff,
      Option.isNone_iff_eq_none] at hfresh ⊢
    exact get?_eq_none_of_within hwithin hfresh
  | constraint j =>
    obtain ⟨v, g, hr, hv⟩ := h
    exact ⟨v, g, hr, get?_eq_none_of_within hwithin hv⟩

/-- Definitions that follow others, if these used up their records. -/
theorem Makes.append {made made' : List Made} (h : f.Makes vars a made b)
    (hextends : Extends vars made vars') (hclosed : ∀ m ∈ made, ¬m.record.Open f vars')
    (h' : f.Makes vars' b made' c) : f.Makes vars a (made ++ made') c := by
  have hwithin := hextends.within
  refine ⟨h.grows.trans h'.grows, ?_, ?_, ?_, ?_, ?_, ?_, ?_⟩
  · rw [List.map_append, h.nodes, h'.nodes, h.size, List.range'_append_1, List.length_append]
  · rw [h'.size, h.size, List.length_append, Nat.add_assoc]
  · rw [List.map_append, List.nodup_append]
    refine ⟨h.records, h'.records, ?_⟩
    rintro _ hr _ hr' rfl
    obtain ⟨x, hx, rfl⟩ := List.mem_map.1 hr
    obtain ⟨y, hy, hxy⟩ := List.mem_map.1 hr'
    exact hclosed x hx (hxy ▸ h'.opens y hy)
  · rw [List.map_append, List.nodup_append]
    refine ⟨h.defined, h'.defined, ?_⟩
    rintro _ hv _ hv' rfl
    obtain ⟨x, hx, rfl⟩ := List.mem_map.1 hv
    obtain ⟨y, hy, hxy⟩ := List.mem_map.1 hv'
    exact hextends.ne_none hx (hxy ▸ h'.fresh y hy)
  · rw [List.forall_mem_append]
    exact ⟨h.fresh, fun x hx => get?_eq_none_of_within hwithin (h'.fresh x hx)⟩
  · rw [List.forall_mem_append]
    refine ⟨fun x hx => ?_, h'.kinds⟩
    obtain ⟨n, hn, hkind⟩ := h.kinds x hx
    exact ⟨n, h'.grows.get?_eq_some hn, hkind⟩
  · rw [List.forall_mem_append]
    exact ⟨h.opens, fun x hx => (h'.opens x hx).of_within hwithin⟩

/-! ## Passes -/

/-- The definitions of a pass over the equations. -/
def sumsMade (f : IpqFile α) (strict : Bool) (vars : VarMap NodeId) (next : NodeId) : List Made :=
  madeBy (affineVerdict strict vars) .equation 0 f.equations OrderedMap.empty next

/-- The definitions of a pass over the constraints. -/
def relusMade (f : IpqFile α) (vars : VarMap NodeId) (next : NodeId) : List Made :=
  madeBy (reluVerdict (α := α) vars) .constraint 0 f.constraints OrderedMap.empty next

omit [Scalar α] in
/-- A table made in a pass is entered into the table of variables. -/
theorem extends_insertAll {made : List Made}
    (h : ∀ v id, d.get? v = some id ↔ (OrderedMap.empty : VarMap NodeId).get? v = some id ∨
      ∃ m ∈ made, m.defined = v ∧ m.node = id)
    (hfresh : ∀ m ∈ made, vars.get? m.defined = none) :
    Extends vars made (vars.insertAll d.entries) := by
  intro v id
  rw [VarMap.get?_insertAll_entries, Option.or_eq_some_iff, h]
  simp only [OrderedMap.get?_empty, reduceCtorEq, false_or]
  constructor
  · rintro (hmade | ⟨-, hv⟩)
    · exact .inr hmade
    · exact .inl hv
  · rintro (hv | hmade)
    · refine .inr ⟨?_, hv⟩
      cases hd : d.get? v with
      | none => rfl
      | some j =>
        obtain ⟨x, hx, rfl, -⟩ := ((h v j).1 hd).resolve_left (by simp)
        rw [hfresh x hx] at hv
        cases hv
    · exact .inl hmade

/-- What a pass over the equations defines, however it ends. Its equations are used up then. -/
theorem makes_of_affineLayer {o : Except (FileError α) (VarMap NodeId × List NodeId)}
    (h : (affineLayer strict stem vars 0 f.equations OrderedMap.empty).run a = (o, b)) :
    f.Makes vars a (f.sumsMade strict vars a.size) b ∧
      ∀ d ids, o = .ok (d, ids) → ids = (f.sumsMade strict vars a.size).map Made.node ∧
        Extends vars (f.sumsMade strict vars a.size) (vars.insertAll d.entries) ∧
        ∀ m ∈ f.sumsMade strict vars a.size, ¬m.record.Open f (vars.insertAll d.entries) := by
  have hnew : ∀ i (e : IpqEquation α) d v k, affineVerdict strict vars i e d = .define v k →
      d.get? v = none :=
    fun _ _ _ _ _ hk => (affineStep_of_verdict hk).2
  rw [affineLayer_eq_passOver] at h
  obtain ⟨hgrows, hsize, hmade, hok⟩ := made_of_run .equation hnew h
  obtain ⟨hrecords, hdefined, -⟩ := nodup_madeBy 0 f.equations OrderedMap.empty
    a.size hnew fun _ _ => Record.equation.inj
  -- The equation of a definition has the defined variable as its only fresh one.
  have hstep : ∀ m ∈ f.sumsMade strict vars a.size, ∃ j e n, m.record = .equation j ∧
      f.equations[j]? = some e ∧ b.get? m.node = some n ∧ AffineStep vars e m.defined n.kind := by
    intro x hx
    obtain ⟨j, e, d, n, hrecord, he, hn, hk⟩ := hmade x hx
    rw [Nat.zero_add] at hrecord
    exact ⟨j, e, n, hrecord, he, hn, (affineStep_of_verdict hk).1⟩
  have hfresh : ∀ m ∈ f.sumsMade strict vars a.size, vars.get? m.defined = none := by
    intro x hx
    obtain ⟨j, e, n, -, -, -, hk⟩ := hstep x hx
    exact hk.get?_eq_none
  refine ⟨⟨hgrows, map_node_madeBy .., hsize, hrecords, hdefined, hfresh, ?_, ?_⟩, ?_⟩
  · intro x hx
    obtain ⟨j, e, n, hrecord, he, hn, hk⟩ := hstep x hx
    exact ⟨n, hn, hrecord ▸ ⟨e, vars, he, hk⟩⟩
  · intro x hx
    obtain ⟨j, e, n, hrecord, he, -, -, c, -, hopen, -⟩ := hstep x hx
    rw [hrecord]
    exact ⟨e, he, by simp [hopen]⟩
  · intro d ids ho
    obtain ⟨hids, hentries⟩ := hok d ids ho
    have hextends := extends_insertAll hentries hfresh
    refine ⟨hids, hextends, fun x hx hopen => ?_⟩
    obtain ⟨j, e, n, hrecord, he, -, -, c, -, hone, -⟩ := hstep x hx
    rw [hrecord] at hopen
    obtain ⟨e', he', hopen⟩ := hopen
    obtain rfl : e = e' := Option.some.inj (he.symm.trans he')
    refine hopen (List.filter_eq_nil_iff.2 fun o ho hnew => hextends.ne_none hx ?_)
    have hnone : (vars.insertAll d.entries).get? o.1 = none := by
      simpa [OrderedMap.contains] using hnew
    have hmem : o ∈ freshAddends vars e :=
      List.mem_filter.2 ⟨ho, by
        simp [OrderedMap.contains, get?_eq_none_of_within hextends.within hnone]⟩
    rw [hone, List.mem_singleton] at hmem
    rw [hmem] at hnone
    exact hnone

/-- What a pass over the constraints defines. Its rectifiers are used up then. -/
theorem makes_of_reluLayer {relus : List (NodeId × NodeId)}
    (h : (reluLayer stem vars f.constraints OrderedMap.empty).Yields a (d, relus) b) :
    f.Makes vars a (f.relusMade vars a.size) b ∧
      relus.map Prod.snd = (f.relusMade vars a.size).map Made.node ∧
      Extends vars (f.relusMade vars a.size) (vars.insertAll d.entries) ∧
      (∀ m ∈ f.relusMade vars a.size, ¬m.record.Open f (vars.insertAll d.entries)) ∧
      ∀ m ∈ f.relusMade vars a.size, ∃ g, .relu m.defined g ∈ f.constraints := by
  have hnew : ∀ i c d v (k : NodeKind α), reluVerdict vars i c d = .define v k →
      d.get? v = none := by
    intro i c d v k hk
    obtain ⟨-, -, -, -, -, hnone, -⟩ := reluStep_of_verdict hk
    exact hnone
  obtain ⟨d₁, relus₁, b₁, hrelu, hpass⟩ := reluLayer_eq_passOver stem vars 0 f.constraints
    OrderedMap.empty a
  obtain ⟨heq, rfl⟩ := hrelu.unique h
  cases heq
  obtain ⟨hgrows, hsize, hmade, hok⟩ := made_of_run .constraint hnew hpass
  obtain ⟨hrecords, hdefined, -⟩ := nodup_madeBy 0 f.constraints OrderedMap.empty
    a.size hnew fun _ _ => Record.constraint.inj
  have hstep : ∀ m ∈ f.relusMade vars a.size, ∃ j g input n, m.record = .constraint j ∧
      f.constraints[j]? = some (.relu m.defined g) ∧ b₁.get? m.node = some n ∧
      vars.get? m.defined = none ∧ n.kind = .relu input false := by
    intro x hx
    obtain ⟨j, r, d, n, hrecord, hc, hn, hk⟩ := hmade x hx
    obtain ⟨g, input, rfl, -, hv, -, hk⟩ := reluStep_of_verdict hk
    rw [Nat.zero_add] at hrecord
    exact ⟨j, g, input, n, hrecord, hc, hn, hv, hk⟩
  have hfresh : ∀ m ∈ f.relusMade vars a.size, vars.get? m.defined = none := by
    intro x hx
    obtain ⟨-, -, -, -, -, -, -, hv, -⟩ := hstep x hx
    exact hv
  obtain ⟨hids, hentries⟩ := hok _ _ rfl
  have hextends := extends_insertAll hentries hfresh
  refine ⟨⟨hgrows, map_node_madeBy .., hsize, hrecords, hdefined, hfresh, ?_, ?_⟩, hids, hextends,
    ?_, ?_⟩
  · intro x hx
    obtain ⟨j, g, input, n, hrecord, hc, hn, -, hk⟩ := hstep x hx
    exact ⟨n, hn, hrecord ▸ ⟨g, input, hc, hk⟩⟩
  · intro x hx
    obtain ⟨j, g, -, -, hrecord, hc, -, hv, -⟩ := hstep x hx
    rw [hrecord]
    exact ⟨x.defined, g, hc, hv⟩
  · intro x hx hopen
    obtain ⟨j, g, -, -, hrecord, hc, -⟩ := hstep x hx
    rw [hrecord] at hopen
    obtain ⟨v, g', hc', hv⟩ := hopen
    cases hc.symm.trans hc'
    exact hextends.ne_none hx hv
  · intro x hx
    obtain ⟨j, g, -, -, -, hc, -⟩ := hstep x hx
    exact ⟨g, List.mem_of_getElem? hc⟩

/-- What a round defines. If it goes on, it defines the output of a rectifier. -/
theorem makes_of_round {stem' : String} {affine : List NodeId} {relus : List (NodeId × NodeId)}
    (h : (affineLayer strict stem vars 0 f.equations OrderedMap.empty).Yields a (d, affine) m)
    (hrelu : (reluLayer stem' (vars.insertAll d.entries) f.constraints OrderedMap.empty).Yields m
      (d', relus) b) :
    f.Makes vars a
        (f.sumsMade strict vars a.size ++ f.relusMade (vars.insertAll d.entries) m.size) b ∧
      Extends vars (f.sumsMade strict vars a.size ++
        f.relusMade (vars.insertAll d.entries) m.size) (extended vars d d') ∧
      (∀ x ∈ f.sumsMade strict vars a.size ++ f.relusMade (vars.insertAll d.entries) m.size,
        ¬x.record.Open f (extended vars d d')) ∧
      (relus ≠ [] → ∃ v g, .relu v g ∈ f.constraints ∧ vars.get? v = none ∧
        (extended vars d d').get? v ≠ none) := by
  obtain ⟨hsums, hok⟩ := makes_of_affineLayer h
  obtain ⟨-, hextends, hclosed⟩ := hok _ _ rfl
  obtain ⟨hrelus, hids, hextends', hclosed', hmem⟩ := makes_of_reluLayer hrelu
  refine ⟨hsums.append hextends hclosed hrelus, hextends.append hextends', ?_, fun hmore => ?_⟩
  · rw [List.forall_mem_append]
    exact ⟨fun x hx hopen => hclosed x hx (hopen.of_within hextends'.within), hclosed'⟩
  · have hne : f.relusMade (vars.insertAll d.entries) m.size ≠ [] := by
      rintro hnil
      rw [hnil] at hids
      exact hmore (List.map_eq_nil_iff.1 hids)
    obtain ⟨x, hx⟩ := List.exists_mem_of_ne_nil _ hne
    obtain ⟨g, hg⟩ := hmem x hx
    exact ⟨x.defined, g, hg, get?_eq_none_of_within hextends.within (hrelus.fresh x hx),
      hextends'.ne_none hx⟩

/-! ## Rounds -/

/-- The rounds of passes until a pass over the equations is refused or adds nothing, or one over the
constraints adds nothing: from layer `index`, a table of variables and an arena on, their number,
the definitions that are made, the result and the arena at the end. -/
inductive Settles (f : IpqFile α) (strict : Bool) (stem : String) :
    Nat → VarMap NodeId → Arena α → Nat → List Made → Except (FileError α) Passes → Arena α → Prop
  | refused {index : Nat} {vars : VarMap NodeId} {a b : Arena α} {e : FileError α}
      (h : (affineLayer strict (stem ++ labelIndex index ++ "_w") vars 0 f.equations
        OrderedMap.empty).Fails a e b) :
      Settles f strict stem index vars a 1 (f.sumsMade strict vars a.size) (.error e) b
  | emptied {index : Nat} {vars d : VarMap NodeId} {a b : Arena α}
      (h : (affineLayer strict (stem ++ labelIndex index ++ "_w") vars 0 f.equations
        OrderedMap.empty).Yields a (d, []) b) :
      Settles f strict stem index vars a 1 (f.sumsMade strict vars a.size)
        (.error (.emptyLayer index)) b
  | stops {index : Nat} {vars d d' : VarMap NodeId} {a m b : Arena α} {affine : List NodeId}
      (h : (affineLayer strict (stem ++ labelIndex index ++ "_w") vars 0 f.equations
        OrderedMap.empty).Yields a (d, affine) m) (hadded : affine ≠ [])
      (hrelu : (reluLayer (stem ++ labelIndex (index + 1) ++ "_r") (vars.insertAll d.entries)
        f.constraints OrderedMap.empty).Yields m (d', []) b) :
      Settles f strict stem index vars a 1
        (f.sumsMade strict vars a.size ++ f.relusMade (vars.insertAll d.entries) m.size)
        (.ok ⟨[], affine, extended vars d d'⟩) b
  | again {index rounds : Nat} {vars d d' : VarMap NodeId} {a m b c : Arena α}
      {affine : List NodeId} {relus : List (NodeId × NodeId)} {made : List Made}
      {r : Except (FileError α) Passes}
      (h : (affineLayer strict (stem ++ labelIndex index ++ "_w") vars 0 f.equations
        OrderedMap.empty).Yields a (d, affine) m) (hadded : affine ≠ [])
      (hrelu : (reluLayer (stem ++ labelIndex (index + 1) ++ "_r") (vars.insertAll d.entries)
        f.constraints OrderedMap.empty).Yields m (d', relus) b) (hmore : relus ≠ [])
      (hrest : Settles f strict stem (index + 2) (extended vars d d') b rounds made r c) :
      Settles f strict stem index vars a (rounds + 1)
        ((f.sumsMade strict vars a.size ++ f.relusMade (vars.insertAll d.entries) m.size) ++ made)
        (r.map fun p => { p with hidden := (affine, relus) :: p.hidden }) c

namespace Settles

variable {index rounds : Nat} {made : List Made} {r : Except (FileError α) Passes}

/-- The rounds end in one way. -/
theorem unique (h : f.Settles strict stem index vars a rounds made r b) {rounds' : Nat}
    {made' : List Made} {r' : Except (FileError α) Passes} {b' : Arena α}
    (h' : f.Settles strict stem index vars a rounds' made' r' b') :
    rounds' = rounds ∧ made' = made ∧ r' = r ∧ b' = b := by
  induction h generalizing rounds' made' r' b' with
  | refused h =>
    cases h' with
    | refused h' =>
      obtain ⟨rfl, rfl⟩ := h.unique h'
      exact ⟨rfl, rfl, rfl, rfl⟩
    | emptied h' => exact absurd h h'.not_fails
    | stops h' => exact absurd h h'.not_fails
    | again h' => exact absurd h h'.not_fails
  | emptied h =>
    cases h' with
    | refused h' => exact absurd h' h.not_fails
    | emptied h' =>
      obtain ⟨-, rfl⟩ := h.unique h'
      exact ⟨rfl, rfl, rfl, rfl⟩
    | stops h' hadded' =>
      cases (h.unique h').1
      exact absurd rfl hadded'
    | again h' hadded' =>
      cases (h.unique h').1
      exact absurd rfl hadded'
  | stops h hadded hrelu =>
    cases h' with
    | refused h' => exact absurd h' h.not_fails
    | emptied h' =>
      cases (h.unique h').1
      exact absurd rfl hadded
    | stops h' _ hrelu' =>
      obtain ⟨heq, rfl⟩ := h.unique h'
      cases heq
      obtain ⟨heq, rfl⟩ := hrelu.unique hrelu'
      cases heq
      exact ⟨rfl, rfl, rfl, rfl⟩
    | again h' _ hrelu' hmore' =>
      obtain ⟨heq, rfl⟩ := h.unique h'
      cases heq
      cases (hrelu.unique hrelu').1
      exact absurd rfl hmore'
  | again h hadded hrelu hmore _ ih =>
    cases h' with
    | refused h' => exact absurd h' h.not_fails
    | emptied h' =>
      cases (h.unique h').1
      exact absurd rfl hadded
    | stops h' _ hrelu' =>
      obtain ⟨heq, rfl⟩ := h.unique h'
      cases heq
      cases (hrelu.unique hrelu').1
      exact absurd rfl hmore
    | again h' _ hrelu' _ hrest' =>
      obtain ⟨heq, rfl⟩ := h.unique h'
      cases heq
      obtain ⟨heq, rfl⟩ := hrelu.unique hrelu'
      cases heq
      obtain ⟨rfl, rfl, rfl, rfl⟩ := ih hrest'
      exact ⟨rfl, rfl, rfl, rfl⟩

/-- With a bound that is not passed, adding the layers has the same result. -/
theorem run_buildLayers (h : f.Settles strict stem index vars a rounds made r b) (bound : Nat)
    (hbound : rounds ≤ bound) : (buildLayers f strict stem bound index vars).run a = (r, b) := by
  induction h generalizing bound with
  | refused h =>
    obtain ⟨bound, rfl⟩ := Nat.exists_eq_add_of_lt hbound
    exact Edit.fails_bind.2 (.inl h)
  | emptied h =>
    obtain ⟨bound, rfl⟩ := Nat.exists_eq_add_of_lt hbound
    exact Edit.fails_bind.2 (.inr ⟨_, _, h, Edit.fails_throw.2 ⟨rfl, rfl⟩⟩)
  | @stops index vars d d' a m b affine h hadded hrelu =>
    obtain ⟨bound, rfl⟩ := Nat.exists_eq_add_of_lt hbound
    refine Edit.yields_bind.2 ⟨_, _, h, ?_⟩
    dsimp only
    rw [if_neg (by simpa using hadded)]
    exact Edit.yields_bind.2 ⟨_, _, hrelu, Edit.yields_pure.2 ⟨rfl, rfl⟩⟩
  | @again index rounds vars d d' a m b c affine relus made r h hadded hrelu hmore _ ih =>
    obtain ⟨bound, rfl⟩ := Nat.exists_eq_add_of_lt (Nat.lt_of_lt_of_le (Nat.succ_pos _) hbound)
    have hrest := ih (0 + bound) (by omega)
    rw [buildLayers, run_bind, h]
    dsimp only
    rw [if_neg (by simpa using hadded), run_bind, hrelu]
    dsimp only
    rw [if_neg (by simpa using hmore), run_bind]
    rw [extended] at hrest
    rw [hrest]
    cases r <;> rfl

/-- Every definition of the rounds is for a variable without a node, by a record that no other one
was made by. Where no pass is refused, the table has the definitions in the end. -/
theorem makes (h : f.Settles strict stem index vars a rounds made r b) :
    f.Makes vars a made b ∧ ∀ p, r = .ok p → Extends vars made p.variableNodes := by
  induction h with
  | refused h => exact ⟨(makes_of_affineLayer h).1, fun p hp => by cases hp⟩
  | emptied h => exact ⟨(makes_of_affineLayer h).1, fun p hp => by cases hp⟩
  | stops h _ hrelu =>
    obtain ⟨hmakes, hextends, -⟩ := makes_of_round h hrelu
    refine ⟨hmakes, fun p hp => ?_⟩
    cases hp
    exact hextends
  | @again _ _ _ _ _ _ _ _ _ _ _ _ r h _ hrelu _ _ ih =>
    obtain ⟨hmakes, hextends, hclosed, -⟩ := makes_of_round h hrelu
    obtain ⟨hrest, htable⟩ := ih
    refine ⟨hmakes.append hextends hclosed hrest, fun p hp => ?_⟩
    cases r with
    | error e => cases hp
    | ok p' =>
      cases hp
      exact hextends.append (htable p' rfl)

end Settles

/-! ## The number of rounds -/

/-- A rectifier whose output has no node. -/
def Loose (vars : VarMap NodeId) : IpqConstraint → Bool
  | .relu v _ => !vars.contains v
  | _ => false

/-- A rectifier. -/
def IsRelu : IpqConstraint → Bool
  | .relu _ _ => true
  | _ => false

/-- With a larger table that has the output of a loose rectifier, fewer are loose. -/
theorem countP_loose_lt {cs : List IpqConstraint} (hwithin : Within vars vars') {v g : Nat}
    (hmem : .relu v g ∈ cs) (hv : vars.get? v = none) (hv' : vars'.get? v ≠ none) :
    cs.countP (Loose vars') < cs.countP (Loose vars) := by
  -- The loose rectifiers of the larger table are some of those of the smaller one.
  have hfewer : cs.filter (Loose vars') = (cs.filter (Loose vars)).filter (Loose vars') := by
    rw [List.filter_filter]
    refine List.filter_congr fun c _ => ?_
    cases c with
    | relu u _ =>
      cases hu : vars'.get? u with
      | none => simp [Loose, OrderedMap.contains, hu, get?_eq_none_of_within hwithin hu]
      | some id => simp [Loose, OrderedMap.contains, hu]
    | abs _ _ => rfl
    | max _ _ => rfl
  rw [List.countP_eq_length_filter, List.countP_eq_length_filter, hfewer]
  refine List.length_filter_lt_length_iff_exists.2
    ⟨.relu v g, List.mem_filter.2 ⟨hmem, by simp [Loose, OrderedMap.contains, hv]⟩, ?_⟩
  simpa [Loose, OrderedMap.contains, Option.isSome_iff_ne_none] using hv'

/-- The rounds come to an end: after each that goes on, fewer rectifiers are loose. -/
theorem exists_settles (f : IpqFile α) (strict : Bool) (stem : String) (index : Nat)
    (vars : VarMap NodeId) (a : Arena α) :
    ∃ rounds made r b, f.Settles strict stem index vars a rounds made r b ∧
      rounds ≤ f.constraints.countP (Loose vars) + 1 := by
  induction hn : f.constraints.countP (Loose vars) using Nat.strong_induction_on
    generalizing index vars a with
  | h n ih =>
    subst hn
    rcases haffine : (affineLayer strict (stem ++ labelIndex index ++ "_w") vars 0 f.equations
      OrderedMap.empty).run a with ⟨e | ⟨d, affine⟩, m⟩
    · exact ⟨1, _, _, m, .refused haffine, by omega⟩
    · by_cases hadded : affine = []
      · subst hadded
        exact ⟨1, _, _, m, .emptied haffine, by omega⟩
      · obtain ⟨d', relus, b, hrelu, -⟩ := reluLayer_eq_passOver
          (stem ++ labelIndex (index + 1) ++ "_r") (vars.insertAll d.entries) 0 f.constraints
          OrderedMap.empty m
        by_cases hmore : relus = []
        · subst hmore
          exact ⟨1, _, _, b, .stops haffine hadded hrelu, by omega⟩
        · obtain ⟨-, hextends, -, hrelus⟩ := makes_of_round haffine hrelu
          obtain ⟨v, g, hmem, hnone, hsome⟩ := hrelus hmore
          have hfewer := countP_loose_lt hextends.within hmem hnone hsome
          obtain ⟨rounds, made, r, c, hrest, hrounds⟩ := ih _ hfewer (index + 2)
            (extended vars d d') b rfl
          exact ⟨rounds + 1, _, _, c, .again haffine hadded hrelu hmore hrest, by omega⟩

/-! ## Layers of a file -/

omit [Scalar α] in
/-- The inputs are entered in any case. -/
theorem exists_yields_inputLayer (stem : String) (i : Nat) (vs : List Nat) (vars : VarMap NodeId)
    (a : Arena α) :
    ∃ ids vars' b, (inputLayer stem i vs vars).Yields a (ids, vars') b := by
  induction vs generalizing i vars a with
  | nil => exact ⟨[], vars, a, Edit.yields_pure.2 ⟨rfl, rfl⟩⟩
  | cons v vs ih =>
    obtain ⟨ids, vars', b, hrest⟩ := ih (i + 1) (vars.insert v a.size)
      (a.push { kind := .plain, label := some (stem ++ "00_" ++ labelIndex i) })
    exact ⟨a.size :: ids, vars', b, Edit.yields_bind.2 ⟨_, _, Edit.yields_push.2 ⟨rfl, rfl⟩,
      Edit.yields_bind.2 ⟨_, _, hrest, Edit.yields_pure.2 ⟨rfl, rfl⟩⟩⟩⟩

/-- Behind the inputs, the layers of a file are added in a certain number of rounds, at most one
more than the file has rectifiers, whatever its equations and rectifiers are. Every node that they
add defines a variable that had none, the input layer's included, no variable is defined twice, and
no equation or rectifier defines two variables. If a pass is refused or adds nothing, so is the
file; otherwise the table has the inputs and the definitions in the end. -/
theorem layers_settle (f : IpqFile α) (strict : Bool) (stem : String) (start : Arena α) :
    ∃ inputs vars a rounds made r b,
      (inputLayer stem 0 (f.inputs ++ f.fixedVariables.filter fun v => !f.inputs.contains v)
        OrderedMap.empty).Yields start (inputs, vars) a ∧
      f.Settles strict stem 1 vars a rounds made r b ∧
      (∀ rounds' made' r' b', f.Settles strict stem 1 vars a rounds' made' r' b' →
        rounds' = rounds ∧ made' = made ∧ r' = r ∧ b' = b) ∧
      rounds ≤ f.constraints.countP IsRelu + 1 ∧
      f.Makes vars a made b ∧
      (∀ e, r = .error e → (f.rebuildWith strict stem).Fails start e b) ∧
      ∀ p, r = .ok p → Extends vars made p.variableNodes ∧
        (buildLayers f strict stem (f.constraints.length + 1) 1 vars).Yields a p b := by
  obtain ⟨inputs, vars, a, hinputs⟩ := exists_yields_inputLayer stem 0
    (f.inputs ++ f.fixedVariables.filter fun v => !f.inputs.contains v) OrderedMap.empty start
  obtain ⟨rounds, made, r, b, hsettles, hloose⟩ := exists_settles f strict stem 1 vars a
  have hrelus : f.constraints.countP (Loose vars) ≤ f.constraints.countP IsRelu := by
    refine List.countP_mono_left fun c _ hc => ?_
    cases c with
    | relu _ _ => rfl
    | abs _ _ => exact hc
    | max _ _ => exact hc
  have hlength := List.countP_le_length (p := IsRelu) (l := f.constraints)
  have hrun := hsettles.run_buildLayers (f.constraints.length + 1) (by omega)
  obtain ⟨hmakes, htable⟩ := hsettles.makes
  refine ⟨inputs, vars, a, rounds, made, r, b, hinputs, hsettles,
    fun _ _ _ _ h => hsettles.unique h, by omega, hmakes, ?_, ?_⟩
  · rintro e rfl
    exact Edit.fails_bind.2 (.inr ⟨_, _, hinputs, Edit.fails_bind.2 (.inl hrun)⟩)
  · rintro p rfl
    exact ⟨htable p rfl, hrun⟩

end IpqFile

end PiecewiseNet
