import PiecewiseNet.StateCheck
import PiecewiseNet.Proofs.Network.Reduction
import PiecewiseNet.Proofs.Network.Splicing
import PiecewiseNet.Proofs.QueryMembers
import PiecewiseNet.Proofs.Replay.Networks

/-!
# Builders of queries run again

Joining two networks of one run and asking about them only changes nodes that the run added. Run
again later, the builders of queries ask the same about nodes further up.

## Main definitions

- `Query.redirect`: the same query about other nodes.

## Main statements

- `Replay.repeats_join`: splicing an altered network onto its base.
- `Replay.repeats_compareExact`, `Replay.repeats_compareMinimum`, `Replay.repeats_joinedQuery`,
  `Replay.repeats_stateCheck`: the queries.
-/

namespace PiecewiseNet

variable {α : Type}

/-! ## Queries about other nodes -/

/-- The same boundary on other nodes. -/
def Boundary.moved (s : Boundary) (f : NodeId → NodeId) : Boundary :=
  ⟨s.chains.map (List.map f), s.table.redirect f, s.retained.map f⟩

/-- The same joined networks on other nodes. -/
def JoinedNetworks.moved (j : JoinedNetworks) (f : NodeId → NodeId) : JoinedNetworks :=
  ⟨j.base.moved f, j.altered.moved f, j.boundary⟩

theorem Equation.nodes_redirect (e : Equation α) (f : NodeId → NodeId) :
    (e.redirect f).nodes = e.nodes.map f := by
  simp [Equation.nodes, Equation.redirect, Terms.nodes, Terms.redirect]

namespace Query

/-- The same query about other nodes. -/
def redirect (q : Query α) (f : NodeId → NodeId) (hf : Function.Injective f) : Query α where
  nodes := q.nodes.map f
  inputs := q.inputs.map f
  outputs := q.outputs.map f
  equations := q.equations.map (·.redirect f)
  nodes_nodup := q.nodes_nodup.map hf
  inputs_subset := List.map_subset f q.inputs_subset
  outputs_subset := List.map_subset f q.outputs_subset
  terms_subset := by
    rw [List.forall_mem_map]
    intro e he
    rw [Equation.nodes_redirect]
    exact List.map_subset f (q.terms_subset e he)

theorem ext {q q' : Query α} (hnodes : q.nodes = q'.nodes) (hinputs : q.inputs = q'.inputs)
    (houtputs : q.outputs = q'.outputs) (hequations : q.equations = q'.equations) : q = q' := by
  cases q
  cases q'
  cases hnodes
  cases hinputs
  cases houtputs
  cases hequations
  rfl

end Query

namespace Replay

open Network

variable {p : Replay α} {net base altered : Network}

/-- Asking about shifted nodes is accepted exactly when asking about the nodes is. -/
theorem Alike.new_query (p : Replay α) (nodes inputs outputs : List NodeId)
    (es : List (Equation α)) :
    Alike (Query.redirect · p.shift p.shift_injective) (fun q => q.nodes = nodes.eraseDups)
      (Query.new nodes inputs outputs es)
      (Query.new (nodes.map p.shift) (inputs.map p.shift) (outputs.map p.shift)
        (es.map (·.redirect p.shift))) := by
  have hsubset : ∀ ids : List NodeId, ids.map p.shift ⊆ nodes.map p.shift ↔ ids ⊆ nodes := by
    intro ids
    refine ⟨?_, List.map_subset _⟩
    intro h id hid
    obtain ⟨j, hj, heq⟩ := List.mem_map.1 (h (List.mem_map_of_mem hid))
    exact p.shift_injective heq ▸ hj
  have hiff : (∃ q', Query.new (nodes.map p.shift) (inputs.map p.shift) (outputs.map p.shift)
      (es.map (·.redirect p.shift)) = .ok q') ↔
      ∃ q, Query.new nodes inputs outputs es = .ok q := by
    simp only [Query.exists_new_iff, List.forall_mem_map, Equation.nodes_redirect, hsubset]
  cases hnew : Query.new nodes inputs outputs es with
  | ok q =>
    obtain ⟨q', hnew'⟩ := hiff.2 ⟨q, hnew⟩
    obtain ⟨hn, hi, ho, he⟩ := Query.new_eq_ok hnew
    obtain ⟨hn', hi', ho', he'⟩ := Query.new_eq_ok hnew'
    have hq : q' = q.redirect p.shift p.shift_injective := by
      refine Query.ext ?_ ?_ ?_ ?_
      · rw [hn', eraseDups_map fun i _ j _ heq => p.shift_injective heq, ← hn]
        rfl
      · rw [hi', ← hi]
        rfl
      · rw [ho', ← ho]
        rfl
      · rw [he', ← he]
        rfl
    rw [hnew', hq]
    exact .ok hn
  | error err =>
    cases hnew' : Query.new (nodes.map p.shift) (inputs.map p.shift) (outputs.map p.shift)
        (es.map (·.redirect p.shift)) with
    | error err' => exact .error err err'
    | ok q' =>
      obtain ⟨q, hq⟩ := hiff.1 ⟨q', hnew'⟩
      rw [hq] at hnew
      cases hnew

/-- A query about known nodes passes its check exactly when the shifted one does. -/
theorem Matches.checkIntegrity_iff {a b : Arena α} (h : p.Matches a b) {q : Query α}
    (hq : ∀ id ∈ q.nodes, p.Known id) :
    q.checkIntegrity a = .ok () ↔
      (q.redirect p.shift p.shift_injective).checkIntegrity b = .ok () := by
  rw [Query.checkIntegrity_eq_ok_iff, Query.checkIntegrity_eq_ok_iff]
  show _ ↔ ∀ id ∈ q.nodes.map p.shift, _
  rw [List.forall_mem_map]
  refine forall₂_congr fun id hid => ?_
  rw [h.get? id (hq id hid)]
  cases a.get? id with
  | none => simp
  | some n =>
    have hrefs : (n.redirect p.shift).references = n.references.map p.shift :=
      NodeKind.references_redirect n.kind p.shift
    simp only [Option.map_some, Option.some.injEq, exists_eq_left', hrefs, Query.redirect]
    refine ⟨List.map_subset _, ?_⟩
    intro hsub r hr
    obtain ⟨s, hs, heq⟩ := List.mem_map.1 (hsub (List.mem_map_of_mem hr))
    exact p.shift_injective heq ▸ hs

/-! ## Reading a network -/

/-- All outcomes are images, failures included. -/
theorem output_moved (net : Network) (f : NodeId → NodeId) (index : Nat) :
    (net.moved f).output (α := α) index = (net.output index).map f := by
  simp only [output, Network.layer, layerCount_moved, layers_moved, redirectLayers,
    List.getElem?_map, layerSize]
  cases hl : net.layers[net.layerCount - 1]? with
  | none => rfl
  | some l =>
    simp only [Option.map_some, Option.getD_some, List.length_map, bind, Except.bind,
      List.getElem?_map]
    cases hc : l[index]? with
    | none => rfl
    | some c =>
      simp only [Option.map_some, List.getLast?_map]
      cases c.getLast? <;> rfl

theorem chain_moved (net : Network) (f : NodeId → NodeId) (l n : Nat) :
    (net.moved f).chain (α := α) l n = (net.chain l n).map (List.map f) := by
  simp only [chain, Network.layer, layerCount_moved, layers_moved, redirectLayers,
    List.getElem?_map]
  cases hl : net.layers[l]? with
  | none => rfl
  | some layer =>
    simp only [Option.map_some, bind, Except.bind, List.getElem?_map, List.length_map]
    cases hc : layer[n]? <;> rfl

theorem inputs_moved (net : Network) (f : NodeId → NodeId) :
    (net.moved f).inputs = net.inputs.map f :=
  Copy.inputs_redirect net f

theorem outputs_moved (net : Network) (f : NodeId → NodeId) :
    (net.moved f).outputs = net.outputs.map f :=
  Copy.outputs_redirect net f

theorem pickChains_map (f : NodeId → NodeId) (l : Layer) (is : List Nat) :
    pickChains (α := α) (l.map (List.map f)) is =
      (pickChains l is).map (List.map (List.map f)) := by
  induction is with
  | nil => rfl
  | cons i is ih =>
    simp only [pickChains, List.getElem?_map, List.length_map]
    cases l[i]? with
    | none => rfl
    | some c =>
      simp only [Option.map_some, ih]
      cases pickChains (α := α) l is <;> rfl

theorem pickChains_subset {l l' : Layer} {is : List Nat}
    (h : pickChains (α := α) l is = .ok l') : l' ⊆ l := by
  intro c hc
  have hmem : some c ∈ is.map (l[·]?) := by
    rw [pickChains_eq_ok_iff.1 h]
    exact List.mem_map_of_mem hc
  obtain ⟨i, -, hi⟩ := List.mem_map.1 hmem
  exact List.mem_of_getElem? hi

theorem Matches.keepOutputs_alike {a b : Arena α} (h : p.Matches a b) (hnet : p.FreshNetwork net)
    (is : List Nat) :
    Alike (·.moved p.shift) p.FreshNetwork (net.keepOutputs is a)
      ((net.moved p.shift).keepOutputs is b) := by
  unfold keepOutputs
  simp only [layers_moved, redirectLayers, List.getLast?_map]
  cases hlast : net.layers.getLast? with
  | none => exact .error _ _
  | some last =>
    simp only [Option.map_some, pickChains_map]
    cases hpick : pickChains (α := α) last is with
    | error e => exact .error e e
    | ok chains =>
      have hfresh : ∀ id ∈ (net.layers.dropLast ++ [chains]).flatten.flatten, p.Fresh id := by
        intro id hid
        refine hnet id ?_
        rw [List.flatten_append, List.flatten_append, List.mem_append] at hid
        rcases hid with hid | hid
        · exact flatten_flatten_subset (fun l hl => List.mem_of_mem_dropLast hl) hid
        · obtain ⟨c, hc, hid⟩ := List.mem_flatten.1 hid
          rw [List.flatten_singleton] at hc
          exact mem_flatten_flatten (List.mem_of_getLast? hlast) (pickChains_subset hpick hc) hid
      have hmap : (net.layers.map (List.map (List.map p.shift))).dropLast ++
          [chains.map (List.map p.shift)] =
          redirectLayers p.shift (net.layers.dropLast ++ [chains]) := by
        simp only [redirectLayers, List.map_append, List.map_dropLast, List.map_cons, List.map_nil]
      simp only [Except.map, hmap]
      refine (h.new_alike fun id hid => .inr (hfresh id hid)).mono ?_
      intro kept hkept
      rw [FreshNetwork, nodes, hkept]
      exact hfresh

/-! ## Joining -/

theorem foldl_insert_redirect {f : NodeId → NodeId} (hf : Function.Injective f)
    (entries : List (NodeId × NodeId)) (table : Substitution) :
    (entries.map (Prod.map f f)).foldl (fun t p => t.insert p.1 p.2) (table.redirect f) =
      (entries.foldl (fun t p => t.insert p.1 p.2) table).redirect f := by
  induction entries generalizing table with
  | nil => rfl
  | cons e es ih =>
    rw [List.map_cons, List.foldl_cons, List.foldl_cons, ← ih,
      Substitution.redirect_insert hf]
    rfl

/-- Splicing does not look at the nodes of chains. -/
theorem spliceChains_map {f : NodeId → NodeId} (hf : Function.Injective f)
    (isOverridden : Nat → Bool) (i : Nat) (pairs : List (Chain × Chain)) (table : Substitution) :
    spliceChains (α := α) isOverridden i (pairs.map (Prod.map (List.map f) (List.map f)))
        (table.redirect f) =
      (spliceChains isOverridden i pairs table).map (·.moved f) := by
  induction pairs generalizing i table with
  | nil => rfl
  | cons pair pairs ih =>
    obtain ⟨base, altered⟩ := pair
    cases base with
    | nil => rfl
    | cons b bs =>
      cases altered with
      | nil => rfl
      | cons a as =>
        simp only [List.map_cons, Prod.map_apply, spliceChains]
        cases isOverridden i with
        | true =>
          simp only [if_true]
          rw [← Substitution.redirect_insert hf, ih]
          cases spliceChains (α := α) isOverridden (i + 1) pairs (table.insert a b) with
          | error e => rfl
          | ok s => simp [Except.map, Boundary.moved]
        | false =>
          simp only [Bool.false_eq_true, if_false]
          have hlast : ∀ (c : Chain) (x : NodeId), (f x :: c.map f).getLast?.getD (f x) =
              f ((x :: c).getLast?.getD x) := by
            intro c x
            rw [← List.map_cons, List.getLast?_map]
            cases (x :: c).getLast? <;> rfl
          have hentries : (f a :: as.map f).zip (f b :: bs.map f) ++
              [((f a :: as.map f).getLast?.getD (f a), (f b :: bs.map f).getLast?.getD (f b))] =
              ((a :: as).zip (b :: bs) ++
                [((a :: as).getLast?.getD a, (b :: bs).getLast?.getD b)]).map (Prod.map f f) := by
            rw [hlast, hlast, List.map_append, ← List.map_cons, ← List.map_cons, List.zip_map]
            rfl
          rw [hentries, foldl_insert_redirect hf, ih]
          generalize ((a :: as).zip (b :: bs) ++
            [((a :: as).getLast?.getD a, (b :: bs).getLast?.getD b)]).foldl
              (fun t p => t.insert p.1 p.2) table = table'
          cases spliceChains (α := α) isOverridden (i + 1) pairs table' with
          | error e => rfl
          | ok s => simp [Except.map, Boundary.moved]

/-- The nodes of a spliced layer, and the altered ones that stay, were added by the first run. -/
def FreshBoundary (p : Replay α) (s : Boundary) : Prop :=
  (∀ id ∈ s.chains.flatten, p.Fresh id) ∧ ∀ id ∈ s.retained, p.Fresh id

/-- Both networks of a join are on nodes that the first run added. -/
def FreshJoin (p : Replay α) (j : JoinedNetworks) : Prop :=
  p.FreshNetwork j.base ∧ p.FreshNetwork j.altered

section

variable (hbase : p.FreshNetwork base) (haltered : p.FreshNetwork altered)
include hbase haltered

theorem alike_spliceChains (isOverridden : Nat → Bool) (boundary : Nat) :
    Alike (·.moved p.shift) p.FreshBoundary
      (spliceChains (α := α) isOverridden 0
        ((base.layers[boundary]?.getD []).zip (altered.layers[boundary]?.getD [])) .empty)
      (spliceChains (α := α) isOverridden 0
        (((base.moved p.shift).layers[boundary]?.getD []).zip
          ((altered.moved p.shift).layers[boundary]?.getD [])) .empty) := by
  rw [getD_layers_moved, getD_layers_moved, List.zip_map]
  refine .of_eq_map (spliceChains_map p.shift_injective isOverridden 0 _ .empty) ?_
  intro s hs
  obtain ⟨hchains, hretained⟩ := mem_of_spliceChains hs
  constructor
  · intro id hid
    obtain ⟨pair, hpair, hid | hid⟩ := hchains id hid
    · exact hbase id (mem_nodes_of_mem_layer (List.of_mem_zip hpair).1 hid)
    · exact haltered id (mem_nodes_of_mem_layer (List.of_mem_zip hpair).2 hid)
  · intro id hid
    obtain ⟨pair, hpair, hid⟩ := hretained id hid
    exact haltered id (mem_nodes_of_mem_layer (List.of_mem_zip hpair).2 hid)

/-- Splicing an altered network of the run onto its base. -/
theorem repeats_join (ov : Overrides) :
    p.Repeats (·.moved p.shift) p.FreshJoin (join (α := α) base altered ov)
      (join (base.moved p.shift) (altered.moved p.shift) ov) := by
  unfold join
  cases hentry : ov.entries.head? with
  | none => exact .throw _ _
  | some entry =>
    obtain ⟨⟨boundary, n⟩, kind⟩ := entry
    simp only [layerCount_moved, layerSize_moved]
    by_cases hcount : base.layerCount ≤ boundary
    · simp only [if_pos hcount]
      exact .throw _ _
    simp only [if_neg hcount]
    by_cases hshape : altered.layerCount ≠ base.layerCount ∨
        altered.layerSize boundary ≠ base.layerSize boundary
    · simp only [if_pos hshape]
      exact .throw _ _
    simp only [if_neg hshape]
    have hlater : ∀ id ∈ (altered.layers.drop (boundary + 1)).flatten.flatten, p.Fresh id := by
      intro id hid
      exact haltered id (flatten_flatten_subset (fun l hl => List.mem_of_mem_drop hl) hid)
    refine .bind (.ofExcept (alike_spliceChains hbase haltered _ boundary)) ?_
    rintro s ⟨hchains, hretained⟩
    have hnodes : (s.moved p.shift).retained ++
        ((altered.moved p.shift).layers.drop (boundary + 1)).flatten.flatten =
        (s.retained ++ (altered.layers.drop (boundary + 1)).flatten.flatten).map p.shift := by
      rw [layers_moved, redirectLayers, ← List.map_drop, List.map_append,
        ← flatten_redirectLayers]
      rfl
    have hlayers : (base.moved p.shift).layers.take boundary ++ [(s.moved p.shift).chains] ++
        (altered.moved p.shift).layers.drop (boundary + 1) =
        redirectLayers p.shift
          (base.layers.take boundary ++ [s.chains] ++ altered.layers.drop (boundary + 1)) := by
      simp only [layers_moved, redirectLayers, Boundary.moved, List.map_append, List.map_take,
        List.map_drop, List.map_cons, List.map_nil]
    rw [hnodes, hlayers]
    refine .bind (repeats_redirectAll ?_ s.table) fun _ _ => .bind (repeats_new ?_) ?_
    · exact List.forall_mem_append.2 ⟨hretained, hlater⟩
    · simp only [List.flatten_append, List.forall_mem_append, List.flatten_singleton]
      refine ⟨⟨?_, hchains⟩, hlater⟩
      intro id hid
      exact hbase id (flatten_flatten_subset (fun l hl => List.mem_of_mem_take hl) hid)
    · intro net hnet
      exact .pure ⟨hbase, hnet⟩ rfl

end

theorem tailNodes_moved (net : Network) (f : NodeId → NodeId) (boundary : Nat) :
    JoinedNetworks.tailNodes (net.moved f) boundary =
      (JoinedNetworks.tailNodes net boundary).map f := by
  simp only [JoinedNetworks.tailNodes, layers_moved, redirectLayers, ← List.map_drop]
  exact flatten_redirectLayers f (net.layers.drop boundary)

theorem tailNodes_subset (net : Network) (boundary : Nat) :
    JoinedNetworks.tailNodes net boundary ⊆ net.nodes :=
  flatten_flatten_subset fun _ hl => List.mem_of_mem_drop hl

theorem fresh_tailNodes (hnet : p.FreshNetwork net) (boundary : Nat) :
    ∀ id ∈ JoinedNetworks.tailNodes net boundary, p.Fresh id :=
  fun id hid => hnet id (tailNodes_subset net boundary hid)

/-! ## The queries -/

/-- All members of the query were added by the first run. -/
def FreshQuery (p : Replay α) (q : Query α) : Prop :=
  ∀ id ∈ q.nodes, p.Fresh id

/-- Asking about added nodes, and checking the query. -/
theorem repeats_finished {nodes : List NodeId} (hnodes : ∀ id ∈ nodes, p.Fresh id)
    (inputs outputs : List NodeId) (es : List (Equation α)) :
    p.Repeats (·.redirect p.shift p.shift_injective) p.FreshQuery
      (do finished (← Edit.ofExcept (Query.new nodes inputs outputs es)))
      (do finished (← Edit.ofExcept (Query.new (nodes.map p.shift) (inputs.map p.shift)
        (outputs.map p.shift) (es.map (·.redirect p.shift))))) := by
  refine .bind (.ofExcept (Alike.new_query p nodes inputs outputs es)) ?_
  intro q hq
  have hfresh : p.FreshQuery q := by
    intro id hid
    rw [hq, List.mem_eraseDups] at hid
    exact hnodes id hid
  unfold finished
  refine .bind (.reading fun a b h => .of_iff (h.checkIntegrity_iff fun id hid => .inr ?_)) ?_
  · exact hfresh id hid
  · exact fun _ _ => .pure hfresh rfl

theorem repeats_joinedQuery (hbase : p.FreshNetwork base) (haltered : p.FreshNetwork altered)
    (ov : Overrides) :
    p.Repeats (·.redirect p.shift p.shift_injective) p.FreshQuery
      (joinedQuery (α := α) base altered ov)
      (joinedQuery (base.moved p.shift) (altered.moved p.shift) ov) := by
  unfold joinedQuery
  refine .bind (repeats_join hbase haltered ov) ?_
  rintro j ⟨hbase', haltered'⟩
  have hnodes : (j.moved p.shift).nodes = j.nodes.map p.shift := by
    rw [JoinedNetworks.nodes, JoinedNetworks.nodes, List.map_append, ← nodes_moved,
      ← tailNodes_moved]
    rfl
  have houtputs : (j.moved p.shift).base.outputs ++ (j.moved p.shift).altered.outputs =
      (j.base.outputs ++ j.altered.outputs).map p.shift := by
    rw [List.map_append, ← outputs_moved, ← outputs_moved]
    rfl
  have hinputs : (j.moved p.shift).base.inputs = j.base.inputs.map p.shift :=
    inputs_moved j.base p.shift
  unfold JoinedNetworks.toQuery
  rw [hnodes, houtputs, hinputs]
  exact repeats_finished (List.forall_mem_append.2 ⟨hbase', fresh_tailNodes haltered' _⟩) _ _ []

section

variable [Scalar α]

theorem differs_redirect (d : Direction) (base altered : NodeId) (margin : α)
    (f : NodeId → NodeId) :
    differs d (f base) (f altered) margin = (differs d base altered margin).redirect f := by
  cases d <;> rfl

theorem repeats_compareExact (hbase : p.FreshNetwork base) (haltered : p.FreshNetwork altered)
    (ov : Overrides) (d : Direction) (index : Nat) (margin : α) :
    p.Repeats (·.redirect p.shift p.shift_injective) p.FreshQuery
      (compareExact base altered ov d index margin)
      (compareExact (base.moved p.shift) (altered.moved p.shift) ov d index margin) := by
  unfold compareExact
  refine .bind (repeats_join hbase haltered ov) ?_
  rintro j ⟨hbase', haltered'⟩
  refine .bind (.reading fun a b h => h.keepOutputs_alike hbase' [index]) ?_
  intro kept hkept
  refine .bind (.reading fun a b h => h.keepOutputs_alike haltered' [index]) ?_
  intro keptAltered hkeptAltered
  refine .bind (P := fun _ => True)
    (.ofExcept (.of_eq_map (output_moved kept p.shift 0) fun _ _ => trivial)) ?_
  intro o _
  refine .bind (P := fun _ => True)
    (.ofExcept (.of_eq_map (output_moved keptAltered p.shift 0) fun _ _ => trivial)) ?_
  intro m _
  have hnodes : (kept.moved p.shift).nodes ++
      JoinedNetworks.tailNodes (keptAltered.moved p.shift) (j.moved p.shift).boundary =
      (kept.nodes ++ JoinedNetworks.tailNodes keptAltered j.boundary).map p.shift := by
    rw [List.map_append, ← nodes_moved, ← tailNodes_moved]
    rfl
  rw [hnodes, inputs_moved, differs_redirect]
  exact repeats_finished (List.forall_mem_append.2 ⟨hkept, fresh_tailNodes hkeptAltered _⟩) _ [o, m]
    [differs d o m margin]

theorem winnerEquations_map (winner : NodeId) (index : Nat) (margin : α) (outputs : List NodeId)
    (f : NodeId → NodeId) :
    winnerEquations (f winner) index margin (outputs.map f) =
      (winnerEquations winner index margin outputs).map (·.redirect f) := by
  simp only [winnerEquations, List.zipIdx_map, List.filter_map, List.map_map]
  rfl

theorem repeats_compareMinimum (hbase : p.FreshNetwork base) (haltered : p.FreshNetwork altered)
    (ov : Overrides) (index counter : Nat) (margin : α) :
    p.Repeats (·.redirect p.shift p.shift_injective) p.FreshQuery
      (compareMinimum base altered ov index counter margin)
      (compareMinimum (base.moved p.shift) (altered.moved p.shift) ov index counter margin) := by
  unfold compareMinimum
  by_cases hsame : index = counter
  · simp only [if_pos hsame]
    exact .throw _ _
  simp only [if_neg hsame]
  refine .bind (repeats_join hbase haltered ov) ?_
  rintro j ⟨hbase', haltered'⟩
  refine .bind (P := fun _ => True)
    (.ofExcept (.of_eq_map (output_moved j.base p.shift index) fun _ _ => trivial)) ?_
  intro winner _
  refine .bind (.reading fun a b h => h.keepOutputs_alike haltered' [index, counter]) ?_
  intro keptAltered hkeptAltered
  refine .bind (P := fun _ => True)
    (.ofExcept (.of_eq_map (output_moved keptAltered p.shift 0) fun _ _ => trivial)) ?_
  intro loser _
  refine .bind (P := fun _ => True)
    (.ofExcept (.of_eq_map (output_moved keptAltered p.shift 1) fun _ _ => trivial)) ?_
  intro counterNode _
  have hnodes : (j.moved p.shift).base.nodes ++
      JoinedNetworks.tailNodes (keptAltered.moved p.shift) (j.moved p.shift).boundary =
      (j.base.nodes ++ JoinedNetworks.tailNodes keptAltered j.boundary).map p.shift := by
    rw [List.map_append, ← nodes_moved, ← tailNodes_moved]
    rfl
  have hinputs : (j.moved p.shift).base.inputs = j.base.inputs.map p.shift :=
    inputs_moved j.base p.shift
  have houtputs : (j.moved p.shift).base.outputs = j.base.outputs.map p.shift :=
    outputs_moved j.base p.shift
  have hequations : winnerEquations (p.shift winner) index margin (j.base.outputs.map p.shift) ++
      [exceeds (p.shift counterNode) (p.shift loser) margin] =
      (winnerEquations winner index margin j.base.outputs ++
        [exceeds counterNode loser margin]).map (·.redirect p.shift) := by
    rw [winnerEquations_map, List.map_append]
    rfl
  have hpair : j.base.outputs.map p.shift ++ [p.shift loser, p.shift counterNode] =
      (j.base.outputs ++ [loser, counterNode]).map p.shift := by
    rw [List.map_append]
    rfl
  rw [hnodes, hinputs, houtputs, hequations, hpair]
  exact repeats_finished (List.forall_mem_append.2 ⟨hbase', fresh_tailNodes hkeptAltered _⟩) _ _ _

/-- Asking about the phase of a neuron. -/
theorem repeats_stateCheck (hnet : p.FreshNetwork net) (neuron : Nat) (phase : Phase)
    (strict : Bool) (margin : α) :
    p.Repeats (·.redirect p.shift p.shift_injective) p.FreshQuery
      (Edit.reading (stateCheck net neuron phase strict margin))
      (Edit.reading (stateCheck (net.moved p.shift) neuron phase strict margin)) := by
  refine .reading fun a b h => ?_
  unfold stateCheck
  refine (h.keepOutputs_alike hnet [neuron]).bind fun kept hkept => ?_
  have hchain : Alike (ε := GraphError α) (List.map p.shift) (fun _ => True)
      (kept.chain (kept.layerCount - 1) 0) ((kept.moved p.shift).chain
        ((kept.moved p.shift).layerCount - 1) 0) := by
    rw [layerCount_moved]
    exact .of_eq_map (chain_moved kept p.shift _ _) fun _ _ => trivial
  refine hchain.bind fun c _ => ?_
  rcases c with _ | ⟨id, _ | ⟨id', rest⟩⟩
  · exact .error _ _
  · have hequation : stateEquation phase strict margin (p.shift id) =
        (stateEquation phase strict margin id).redirect p.shift := by
      cases phase <;> cases strict <;> rfl
    simp only [List.map_cons, List.map_nil, hequation, nodes_moved, inputs_moved]
    refine (Alike.new_query p kept.nodes kept.inputs [id] _).bind fun q hq => ?_
    have hfresh : p.FreshQuery q := by
      intro id hid
      rw [hq, List.mem_eraseDups] at hid
      exact hkept id hid
    refine (Alike.of_iff (h.checkIntegrity_iff fun id hid => .inr (hfresh id hid))).bind ?_
    exact fun _ _ => .ok hfresh
  · exact .error _ _

end

end Replay

end PiecewiseNet
