import PiecewiseNet.Proofs.Ipq.Rebuilding

/-!
# Reconstructions that succeed

A pass over records that define distinct fresh variables succeeds. It adds one node for each record
that defines a variable, in their order.

## Main definitions

- `LawfulSigns`: dividing by minus one undoes a sign.
- `IpqFile.Definitions`: one node was added for each of the given definitions.
- `IpqFile.definedBy`, `IpqFile.rectifiedBy`: what an equation or a constraint defines.

## Main statements

- `IpqFile.exists_inputLayer`, `IpqFile.exists_affineLayer`, `IpqFile.exists_reluLayer`,
  `IpqFile.exists_limitAll`: when the stages succeed.
- `IpqFile.rebuild_eq_ok`: a file whose stages succeed is rebuilt.
-/

namespace PiecewiseNet

/-- Scalars in which dividing by minus one undoes a sign, and in which the order does not matter for
equality. This leaves room for rounding elsewhere. -/
class LawfulSigns (α : Type) [Scalar α] : Prop where
  beq_symm (x y : α) : (x == y) = (y == x)
  neg_one_beq : ((-1 : α) == -1) = true
  neg_one_bne_zero : ((-1 : α) == 0) = false
  neg_div_neg_one (x : α) : -x / -1 = x

instance : LawfulSigns Rat where
  beq_symm _ _ := BEq.comm
  neg_one_beq := by decide
  neg_one_bne_zero := by decide
  neg_div_neg_one x := by
    have hinv : (-1 : Rat)⁻¹ = -1 := by decide +kernel
    rw [Rat.div_def, hinv, Rat.neg_mul, Rat.mul_neg, Rat.mul_one, Rat.neg_neg]

namespace IpqFile

/-! ## Definitions one after the other -/

/-- For each definition in order, a node was added and entered as that of the variable. -/
abbrev Definitions {α : Type} : List (Nat × NodeKind α) → VarMap NodeId → Arena α →
    VarMap NodeId → Arena α → List NodeId → Prop :=
  Pass fun r _ v k => r = (v, k)

section

variable {α : Type} {defs : List (Nat × NodeKind α)} {d d' : VarMap NodeId} {a b : Arena α}
  {ids : List NodeId}

/-- Every definition gave its variable a node, and these are the added nodes in their order. -/
theorem Definitions.map_get? (h : Definitions defs d a d' b ids) :
    (defs.map Prod.fst).map d'.get? = ids.map some := by
  rw [← List.filterMap_eq_map (f := Prod.fst)]
  refine Pass.map_get?_filterMap h fun r _ _ v => ?_
  simp [Prod.ext_iff]

/-- The table that is built from nothing has the variables of the definitions, each with a new node
of the kind that was defined for it. -/
theorem Definitions.names (h : Definitions defs OrderedMap.empty a d' b ids) :
    a.Names b d' fun v k => (v, k) ∈ defs := by
  refine Pass.names h (.empty a _) ?_
  rintro r hr - v k rfl
  exact hr

end

variable {α : Type} {stem : String} {vars d : VarMap NodeId} {i : Nat} {a : Arena α}

/-- A table with a further variable still has none of the others. -/
theorem get?_insert_eq_none {v id : Nat} {vs : List Nat} (hv : v ∉ vs)
    (hnew : ∀ u ∈ vs, d.get? u = none) : ∀ u ∈ vs, (d.insert v id).get? u = none := by
  intro u hu
  rw [OrderedMap.get?_insert, if_neg, hnew u hu]
  rintro rfl
  exact hv hu

/-! ## Inputs -/

/-- The inputs are entered one after the other. -/
theorem exists_inputLayer {vs : List Nat} (hnd : vs.Nodup) (hnew : ∀ v ∈ vs, vars.get? v = none) :
    ∃ ids vars' b, (inputLayer stem i vs vars).Yields a (ids, vars') b ∧
      Definitions (vs.map fun v => (v, .plain)) vars a vars' b ids := by
  induction vs generalizing i vars a with
  | nil => exact ⟨[], vars, a, Edit.yields_pure.2 ⟨rfl, rfl⟩, .nil vars a⟩
  | cons v vs ih =>
    obtain ⟨hv, hnd⟩ := List.nodup_cons.1 hnd
    obtain ⟨hnone, hnew⟩ := List.forall_mem_cons.1 hnew
    obtain ⟨ids, vars', b, hrest, hdefs⟩ := ih (i := i + 1)
      (a := a.push { kind := .plain, label := some (stem ++ "00_" ++ labelIndex i) }) hnd
      (get?_insert_eq_none hv hnew)
    refine ⟨a.size :: ids, vars', b, Edit.yields_bind.2 ⟨_, _, Edit.yields_push.2 ⟨rfl, rfl⟩,
      Edit.yields_bind.2 ⟨_, _, hrest, Edit.yields_pure.2 ⟨rfl, rfl⟩⟩⟩, .define rfl hnone hdefs⟩

/-! ## Equations -/

/-- What an equation with one fresh addend defines. -/
def definedBy [Scalar α] (vars : VarMap NodeId) (e : IpqEquation α) : Option (Nat × NodeKind α) :=
  match freshAddends vars e with
  | [(v, c)] => some (v, definition vars e v c)
  | _ => none

/-- A pass over equalities that define distinct variables, with coefficient minus one. -/
theorem exists_affineLayer [Scalar α] [LawfulSigns α] {strict : Bool} {es : List (IpqEquation α)}
    (hes : ∀ e ∈ es, e.comparator = .eq ∧ ∀ v c, freshAddends vars e = [(v, c)] → c = -1)
    (hnd : ((es.filterMap (definedBy vars)).map Prod.fst).Nodup)
    (hnew : ∀ v ∈ (es.filterMap (definedBy vars)).map Prod.fst, d.get? v = none) :
    ∃ d' ids b, (affineLayer strict stem vars i es d).Yields a (d', ids) b ∧
      Definitions (es.filterMap (definedBy vars)) d a d' b ids := by
  induction es generalizing i d a with
  | nil => exact ⟨d, [], a, Edit.yields_pure.2 ⟨rfl, rfl⟩, .nil d a⟩
  | cons e es ih =>
    obtain ⟨⟨heq, hcoefficient⟩, hes⟩ := List.forall_mem_cons.1 hes
    unfold affineLayer
    rw [if_neg (not_not.2 heq)]
    split
    · rename_i v c hfresh
      obtain rfl := hcoefficient v c hfresh
      have hdefines : definedBy vars e = some (v, definition vars e v (-1)) := by
        rw [definedBy, hfresh]
      rw [List.filterMap_cons_some hdefines] at hnd hnew ⊢
      rw [List.map_cons] at hnd hnew
      obtain ⟨hv, hnd⟩ := List.nodup_cons.1 hnd
      obtain ⟨hnone, hnew⟩ := List.forall_mem_cons.1 hnew
      obtain ⟨d', ids, b, hrest, hdefs⟩ := ih (i := i + 1)
        (a := a.push
          { kind := definition vars e v (-1), label := some (stem ++ labelIndex d.size) })
        hes hnd (get?_insert_eq_none hv hnew)
      refine ⟨d', a.size :: ids, b, ?_, .define rfl hnone hdefs⟩
      rw [if_neg (by simp [LawfulSigns.neg_one_beq]),
        if_neg (by simp [LawfulSigns.neg_one_bne_zero]),
        if_neg (by simp [OrderedMap.contains, hnone])]
      exact Edit.yields_bind.2 ⟨_, _, Edit.yields_push.2 ⟨rfl, rfl⟩,
        Edit.yields_bind.2 ⟨_, _, hrest, Edit.yields_pure.2 ⟨rfl, rfl⟩⟩⟩
    · rename_i hfresh
      have hnone : definedBy vars e = none := by
        unfold definedBy
        split
        · rename_i v c hone
          exact absurd hone (hfresh v c)
        · rfl
      rw [List.filterMap_cons_none hnone] at hnd hnew ⊢
      exact ih hes hnd hnew

/-! ## Rectifiers -/

/-- The variable that a rectifier with a defined input defines, with the node of its input. -/
def rectifiedBy (vars : VarMap NodeId) : IpqConstraint → Option (Nat × NodeId)
  | .relu f b => if vars.contains f then none else (vars.get? b).map fun input => (f, input)
  | _ => none

/-- A pass over rectifiers that define distinct variables. -/
theorem exists_reluLayer {cs : List IpqConstraint}
    (hnd : ((cs.filterMap (rectifiedBy vars)).map Prod.fst).Nodup)
    (hnew : ∀ v ∈ (cs.filterMap (rectifiedBy vars)).map Prod.fst, d.get? v = none) :
    ∃ d' relus b, (reluLayer stem vars cs d).Yields a (d', relus) b ∧
      Definitions ((cs.filterMap (rectifiedBy vars)).map fun r => (r.1, .relu r.2 false)) d a d' b
        (relus.map Prod.snd) ∧
      relus.map Prod.fst = (cs.filterMap (rectifiedBy vars)).map Prod.snd := by
  induction cs generalizing d a with
  | nil => exact ⟨d, [], a, Edit.yields_pure.2 ⟨rfl, rfl⟩, .nil d a, rfl⟩
  | cons c cs ih =>
    have hpassed : rectifiedBy vars c = none →
        reluLayer (α := α) stem vars (c :: cs) d = reluLayer stem vars cs d →
        ∃ d' relus b, (reluLayer stem vars (c :: cs) d).Yields a (d', relus) b ∧
          Definitions (((c :: cs).filterMap (rectifiedBy vars)).map
            fun r => (r.1, .relu r.2 false)) d a d' b (relus.map Prod.snd) ∧
          relus.map Prod.fst = ((c :: cs).filterMap (rectifiedBy vars)).map Prod.snd := by
      intro hnone heq
      rw [List.filterMap_cons_none hnone] at hnd hnew ⊢
      rw [heq]
      exact ih hnd hnew
    cases c with
    | abs f g => exact hpassed rfl rfl
    | max f inputs => exact hpassed rfl rfl
    | relu f g =>
      cases hinput : vars.get? g with
      | none =>
        refine hpassed (by simp [rectifiedBy, hinput]) ?_
        rw [reluLayer, hinput]
      | some input =>
        by_cases hold : vars.contains f = true
        · refine hpassed (by simp [rectifiedBy, hold]) ?_
          rw [reluLayer, hinput]
          simp [hold]
        · have hdefines : rectifiedBy vars (.relu f g) = some (f, input) := by
            simp [rectifiedBy, hinput, hold]
          rw [List.filterMap_cons_some hdefines] at hnd hnew ⊢
          rw [List.map_cons] at hnd hnew
          obtain ⟨hf, hnd⟩ := List.nodup_cons.1 hnd
          obtain ⟨hnone, hnew⟩ := List.forall_mem_cons.1 hnew
          obtain ⟨d', relus, b, hrest, hdefs, hreads⟩ := ih
            (a := a.push { kind := .relu input false, label := some (stem ++ labelIndex d.size) })
            hnd (get?_insert_eq_none hf hnew)
          refine ⟨d', (input, a.size) :: relus, b, ?_, .define rfl hnone hdefs, ?_⟩
          · rw [reluLayer, hinput]
            dsimp only
            rw [if_neg (by simpa [OrderedMap.contains, hnone] using hold)]
            exact Edit.yields_bind.2 ⟨_, _, Edit.yields_push.2 ⟨rfl, rfl⟩,
              Edit.yields_bind.2 ⟨_, _, hrest, Edit.yields_pure.2 ⟨rfl, rfl⟩⟩⟩
          · rw [List.map_cons, List.map_cons, hreads]

/-! ## Rounds -/

section

variable [Scalar α] {f : IpqFile α} {strict : Bool} {rounds index : Nat} {d' : VarMap NodeId}
  {m b c : Arena α} {affine : List NodeId} {relus : List (NodeId × NodeId)} {p : Passes}

/-- A round without rectifiers is the last one. -/
theorem buildLayers_last
    (haffine : (affineLayer strict (stem ++ labelIndex index ++ "_w") vars 0 f.equations
      OrderedMap.empty).Yields a (d, affine) m) (hne : affine ≠ [])
    (hrelu : (reluLayer (stem ++ labelIndex (index + 1) ++ "_r") (vars.insertAll d.entries)
      f.constraints OrderedMap.empty).Yields m (d', []) b) :
    (buildLayers f strict stem (rounds + 1) index vars).Yields a
      ⟨[], affine, extended vars d d'⟩ b := by
  refine Edit.yields_bind.2 ⟨_, _, haffine, ?_⟩
  dsimp only
  rw [if_neg (by simpa using hne)]
  exact Edit.yields_bind.2 ⟨_, _, hrelu, Edit.yields_pure.2 ⟨rfl, rfl⟩⟩

/-- Behind a round with rectifiers, the other rounds follow. -/
theorem buildLayers_hidden
    (haffine : (affineLayer strict (stem ++ labelIndex index ++ "_w") vars 0 f.equations
      OrderedMap.empty).Yields a (d, affine) m) (hne : affine ≠ [])
    (hrelu : (reluLayer (stem ++ labelIndex (index + 1) ++ "_r") (vars.insertAll d.entries)
      f.constraints OrderedMap.empty).Yields m (d', relus) b) (hmore : relus ≠ [])
    (hrest : (buildLayers f strict stem rounds (index + 2) (extended vars d d')).Yields b p c) :
    (buildLayers f strict stem (rounds + 1) index vars).Yields a
      { p with hidden := (affine, relus) :: p.hidden } c := by
  refine Edit.yields_bind.2 ⟨_, _, haffine, ?_⟩
  dsimp only
  rw [if_neg (by simpa using hne)]
  refine Edit.yields_bind.2 ⟨_, _, hrelu, ?_⟩
  dsimp only
  rw [if_neg (by simpa using hmore)]
  exact Edit.yields_bind.2 ⟨_, _, hrest, Edit.yields_pure.2 ⟨rfl, rfl⟩⟩

end

/-! ## Bounds -/

/-- Bounds that can be met are entered for distinct nodes. -/
theorem exists_limitAll [Scalar α] {f : IpqFile α} {es : List (Nat × NodeId)}
    (hnd : (es.map Prod.snd).Nodup)
    (hes : ∀ e ∈ es, ∃ n, a.get? e.2 = some n ∧ (f.limited e.1 n).bounds.isEmpty = false) :
    ∃ b, (limitAll f es).Yields a () b := by
  induction es generalizing a with
  | nil => exact ⟨a, Edit.yields_pure.2 ⟨rfl, rfl⟩⟩
  | cons e es ih =>
    obtain ⟨v, id⟩ := e
    obtain ⟨⟨n, hn, hmeets⟩, hes⟩ := List.forall_mem_cons.1 hes
    rw [List.map_cons, List.nodup_cons] at hnd
    have hother : ∀ e ∈ es, ∃ m, (a.set id (f.limited v n)).get? e.2 = some m ∧
        (f.limited e.1 m).bounds.isEmpty = false := by
      intro e he
      obtain ⟨m, hm, hmeets⟩ := hes e he
      refine ⟨m, ?_, hmeets⟩
      rw [Arena.get?_set, if_neg, hm]
      rintro ⟨rfl, -⟩
      exact hnd.1 (List.mem_map.2 ⟨e, he, rfl⟩)
    obtain ⟨b, hrest⟩ := ih hnd.2 hother
    exact ⟨b, Edit.yields_bind.2 ⟨(), _,
      Edit.yields_adapt.2 (Edit.yields_limit.2 ⟨n, hn, hmeets, rfl⟩), hrest⟩⟩

/-! ## Files -/

/-- A file whose stages succeed is rebuilt. -/
theorem rebuild_eq_ok [Scalar α] {strict : Bool} {f : IpqFile α} {s : Session α}
    {inputs : List NodeId} {vars : VarMap NodeId} {a b c : Arena α} {p : Passes}
    {layers : List Layer} {net : Network}
    (hkinds : ∀ r ∈ f.constraints, ∃ g b, r = .relu g b)
    (hinputs : (inputLayer s.names.ipq.1 0
      (f.inputs ++ f.fixedVariables.filter fun v => !f.inputs.contains v) OrderedMap.empty).Yields
        s.arena (inputs, vars) a)
    (hpasses : (buildLayers f strict s.names.ipq.1 (f.constraints.length + 1) 1 vars).Yields a p b)
    (houtputs : f.outputsAreLast p = true)
    (hrelus : looseRelu? p.variableNodes f.constraints = none)
    (hequations : looseEquation? p.variableNodes 0 f.equations = none)
    (hlimits : (limitAll f p.variableNodes.entries).Yields b () c)
    (hlayers : pairLayers c inputs p = .ok layers) (hnet : Network.new layers c = .ok net) :
    f.rebuild strict s =
      (.ok ⟨net, f.inputs.length, p.variableNodes⟩, ⟨c, s.names.ipq.2⟩) := by
  have hrun : (f.rebuildWith strict s.names.ipq.1).Yields s.arena
      ⟨net, f.inputs.length, p.variableNodes⟩ c := by
    refine Edit.yields_bind.2 ⟨_, _, hinputs, Edit.yields_bind.2 ⟨_, _, hpasses, ?_⟩⟩
    rw [houtputs]
    simp only [Bool.not_true, Bool.and_false, Bool.false_eq_true, if_false, hrelus, hequations]
    refine Edit.yields_bind.2 ⟨_, _, hlimits, Edit.yields_bind.2 ⟨layers, c, ?_, ?_⟩⟩
    · exact Edit.yields_reading.2 ⟨hlayers, rfl⟩
    · exact Edit.yields_bind.2 ⟨net, c, Edit.yields_adapt.2 (Edit.yields_reading.2 ⟨hnet, rfl⟩),
        Edit.yields_pure.2 ⟨rfl, rfl⟩⟩
  unfold rebuild
  split
  · rename_i r hr
    obtain ⟨g, b, rfl⟩ := hkinds r (List.mem_of_find?_eq_some hr)
    exact absurd (List.find?_some hr) Bool.false_ne_true
  · simp only [show (f.rebuildWith strict s.names.ipq.1).run s.arena = _ from hrun]

end IpqFile

end PiecewiseNet
