import PiecewiseNet.Proofs.Ipq.Exported
import PiecewiseNet.Proofs.Ipq.Layering

/-!
# Exports of alternating networks

In an alternating network, every hidden neuron is a sum over the layer before it with a rectifier
behind it, and the neurons of the last layer are sums. A sum can be defined when the layer before it
has nodes, and whatever lies further behind reads a node that is still missing. So each pass over
the records of an exported network defines one layer.

## Main definitions

- `Network.Alternates`: the layers behind the inputs of an alternating network.
- `IpqFile.IsNext`: a hidden layer is the next one to be defined.

## Main statements

- `IpqFile.exists_buildLayers`: the passes find all layers of an exported network.
-/

namespace PiecewiseNet

namespace Network

variable {α : Type}

/-- The node is a sum of nodes from the list, and it reads one of them. -/
structure Sums (a : Arena α) (previous : List NodeId) (id : NodeId) : Prop where
  kind : ∃ terms bias, a.kindAt id = .affine terms bias
  reads : ∀ r, a.Reads id r → r ∈ previous
  exists_reads : ∃ r, a.Reads id r

/-- The node is the positive part of a sum of nodes from the list. -/
structure Rectifies (a : Arena α) (previous : List NodeId) (id : NodeId) : Prop where
  kind : a.kindAt id = .relu (a.argumentAt id) false
  sums : Sums a previous (a.argumentAt id)

/-- The neuron of a rectifier and the sum that it reads. -/
def hiddenChain (a : Arena α) (id : NodeId) : Chain :=
  [a.argumentAt id, id]

/-- The layers behind a layer with the given tails: hidden layers of rectifiers, and a last layer of
sums. -/
inductive Alternates (a : Arena α) : List NodeId → List Layer → Prop where
  | last {previous sums : List NodeId} (hne : sums ≠ []) (hsums : ∀ id ∈ sums, Sums a previous id) :
      Alternates a previous [sums.map ([·])]
  | hidden {previous relus : List NodeId} {ls : List Layer} (hne : relus ≠ [])
      (hrelus : ∀ id ∈ relus, Rectifies a previous id) (rest : Alternates a relus ls) :
      Alternates a previous (relus.map (hiddenChain a) :: ls)

variable {a : Arena α} {previous relus ids : List NodeId} {ls : List Layer} {id : NodeId}

theorem flatten_singletons : (ids.map ([·] : NodeId → Chain)).flatten = ids := by
  induction ids with
  | nil => rfl
  | cons id ids ih => exact congrArg (id :: ·) ih

theorem mem_hiddenChains :
    id ∈ (relus.map (hiddenChain a)).flatten ↔ id ∈ relus.map a.argumentAt ∨ id ∈ relus := by
  induction relus with
  | nil => simp
  | cons r relus ih =>
    simp only [List.map_cons, List.flatten_cons, List.mem_append, ih, hiddenChain, List.mem_cons,
      List.not_mem_nil, or_false]
    tauto

theorem sublist_hiddenChains (a : Arena α) (relus : List NodeId) :
    (relus.map a.argumentAt).Sublist (relus.map (hiddenChain a)).flatten ∧
      relus.Sublist (relus.map (hiddenChain a)).flatten := by
  induction relus with
  | nil => exact ⟨.slnil, .slnil⟩
  | cons r relus ih => exact ⟨(ih.1.cons r).cons_cons _, (ih.2.cons_cons r).cons _⟩

theorem Alternates.ne_nil (h : Alternates a previous ls) : ls ≠ [] := by
  cases h <;> exact List.cons_ne_nil _ _

/-- Every node behind a layer reads one of its tails, or a node behind it. -/
theorem Alternates.exists_reads (h : Alternates a previous ls) :
    ∀ id ∈ ls.flatten.flatten, ∃ r, a.Reads id r ∧ (r ∈ previous ∨ r ∈ ls.flatten.flatten) := by
  induction h with
  | last hne hsums =>
    intro id hid
    rw [List.flatten_singleton, flatten_singletons] at hid
    obtain ⟨r, hr⟩ := (hsums id hid).exists_reads
    exact ⟨r, hr, .inl ((hsums id hid).reads r hr)⟩
  | @hidden previous relus ls hne hrelus rest ih =>
    intro id hid
    simp only [List.flatten_cons, List.flatten_append, List.mem_append, mem_hiddenChains] at hid ⊢
    rcases hid with (hid | hid) | hid
    · obtain ⟨j, hj, rfl⟩ := List.mem_map.1 hid
      obtain ⟨r, hr⟩ := (hrelus j hj).sums.exists_reads
      exact ⟨r, hr, .inl ((hrelus j hj).sums.reads r hr)⟩
    · refine ⟨a.argumentAt id, ?_, .inr (.inl (.inl (List.mem_map_of_mem hid)))⟩
      rw [Arena.reads_iff_kindAt, (hrelus id hid).kind]
      exact List.mem_singleton_self _
    · obtain ⟨r, hr, hmem⟩ := ih id hid
      exact ⟨r, hr, .inr (hmem.imp_left .inr)⟩

/-- There are at least as many rectifiers as hidden layers. -/
theorem Alternates.length_le (h : Alternates a previous ls) (t : VariableTable) :
    ls.length ≤ (ls.flatten.flatten.filterMap (IpqFile.constraintAt a t)).length + 1 := by
  induction h with
  | last => exact Nat.le_add_left _ _
  | @hidden previous relus ls hne hrelus rest ih =>
    obtain ⟨id, hid⟩ := List.exists_mem_of_ne_nil relus hne
    have hsome : IpqFile.constraintAt a t id =
        some (.relu (t.varOf id) (t.varOf (a.argumentAt id))) := by
      rw [IpqFile.constraintAt_eq, (hrelus id hid).kind]
    have hpos : 0 < ((relus.map (hiddenChain a)).flatten.filterMap
        (IpqFile.constraintAt a t)).length :=
      List.length_pos_of_mem (List.mem_filterMap.2 ⟨id, mem_hiddenChains.2 (.inr hid), hsome⟩)
    rw [List.length_cons, List.flatten_cons, List.flatten_append, List.filterMap_append,
      List.length_append]
    omega

end Network

namespace IpqFile

open Network

section

variable {α : Type}

theorem pairLayer_map (a : Arena α) (relus : List (NodeId × NodeId)) :
    pairLayer a (relus.map Prod.fst) relus = .ok (relus.map fun r => [r.1, r.2]) := by
  have hnone : relus.find? (fun r => !(relus.map Prod.fst).contains r.1) = none := by
    rw [List.find?_eq_none]
    intro r hr
    simpa using ⟨r.2, hr⟩
  have hleft : (relus.map Prod.fst).filter (fun id => !(relus.map (·.1)).contains id) = [] := by
    rw [List.filter_eq_nil_iff]
    intro id hid
    simpa using hid
  rw [pairLayer, hnone]
  simp only [hleft, List.map_nil, List.append_nil]

end

variable {α : Type} [Scalar α] {f : IpqFile α} {a₀ start b : Arena α} {t : VariableTable}
  {vars : VarMap NodeId} {done previous sums relus : List NodeId} {ls : List Layer}
  {rounds : Nat}

/-- An affine pass defines the sums over a layer with nodes, if all other sums without nodes read
something that has none. -/
theorem Placed.exists_sums [LawfulSigns α] (h : Placed a₀ t start b vars done) (hf : f.Exports a₀ t)
    (hprevious : previous ⊆ done) (hsub : sums.Sublist t)
    (hsums : ∀ id ∈ sums, id ∉ done ∧ Sums a₀ previous id)
    (hbehind : ∀ id ∈ t, id ∉ done → id ∉ sums →
      (∃ input relaxed, a₀.kindAt id = .relu input relaxed) ∨ ∃ r, a₀.Reads id r ∧ r ∉ done)
    (stem : String) (i : Nat) :
    ∃ d c, (affineLayer true stem vars i f.equations OrderedMap.empty).Yields b
        (d, sums.map (nodeOf t (vars.insertAll d.entries))) c ∧
      Placed a₀ t start c (vars.insertAll d.entries) (done ++ sums) ∧
      Within vars (vars.insertAll d.entries) := by
  have hready : ∀ id ∈ t, id ∈ sums ↔
      (∃ terms bias, a₀.kindAt id = .affine terms bias) ∧ Ready a₀ done id := by
    intro id hid
    constructor
    · intro hmem
      obtain ⟨hnew, hkind, hreads, -⟩ := hsums id hmem
      exact ⟨hkind, hnew, fun r hr => hprevious (hreads r hr)⟩
    · rintro ⟨⟨terms, bias, hkind⟩, hfresh, hreads⟩
      by_contra hnot
      rcases hbehind id hid hfresh hnot with ⟨input, relaxed, hrelu⟩ | ⟨r, hr, hmissing⟩
      · rw [hkind] at hrelu
        cases hrelu
      · exact hmissing (hreads r hr)
  obtain ⟨d, ids, c, hyields, hplaced, rfl, hwithin⟩ :=
    h.exists_affineLayer hf hsub hready true stem i
  exact ⟨d, c, hyields, hplaced, hwithin⟩

/-- A rectifier pass defines the rectifiers of sums with nodes, if all other nodes that are missing
read something that is missing. -/
theorem Placed.exists_rectifiers (h : Placed a₀ t start b vars done) (hf : f.Exports a₀ t)
    (hsub : relus.Sublist t)
    (hrelus : ∀ id ∈ relus, id ∉ done ∧ a₀.kindAt id = .relu (a₀.argumentAt id) false ∧
      a₀.argumentAt id ∈ done)
    (hbehind : ∀ id ∈ t, id ∉ done → id ∉ relus → ∃ r, a₀.Reads id r ∧ r ∉ done)
    (stem : String) :
    ∃ d c, (reluLayer stem vars f.constraints OrderedMap.empty).Yields b
        (d, relus.map fun id => (nodeOf t (vars.insertAll d.entries) (a₀.argumentAt id),
          nodeOf t (vars.insertAll d.entries) id)) c ∧
      Placed a₀ t start c (vars.insertAll d.entries) (done ++ relus) ∧
      Within vars (vars.insertAll d.entries) := by
  have hready : ∀ id ∈ t, id ∈ relus ↔
      (∃ input relaxed, a₀.kindAt id = .relu input relaxed) ∧ Ready a₀ done id := by
    intro id hid
    constructor
    · intro hmem
      obtain ⟨hnew, hkind, hargument⟩ := hrelus id hmem
      refine ⟨⟨_, _, hkind⟩, hnew, ?_⟩
      intro r hr
      rw [Arena.reads_iff_kindAt, hkind] at hr
      exact List.mem_singleton.1 hr ▸ hargument
    · rintro ⟨-, hfresh, hreads⟩
      by_contra hnot
      obtain ⟨r, hr, hmissing⟩ := hbehind id hid hfresh hnot
      exact hmissing (hreads r hr)
  obtain ⟨d, ids, c, hyields, hplaced, rfl, hwithin⟩ :=
    h.exists_reluLayer hf hsub hready (fun id hid => (hrelus id hid).2.1) stem
  exact ⟨d, c, hyields, hplaced, hwithin⟩

/-- A hidden layer is next: none of its members has a node, its sums are no rectifiers, and any
other member without a node reads something that has none before the rectifiers do. -/
structure IsNext (a₀ : Arena α) (t : VariableTable) (done relus : List NodeId) : Prop where
  fresh : ∀ id ∈ (relus.map (hiddenChain a₀)).flatten, id ∉ done
  not_sum : ∀ id ∈ relus, id ∉ relus.map a₀.argumentAt
  missing : ∀ id ∈ t, id ∉ done → id ∉ relus.map a₀.argumentAt → id ∉ relus →
    ∃ r, a₀.Reads id r ∧ r ∉ done ++ relus.map a₀.argumentAt

omit [Scalar α] in
theorem isNext_of_nodup {behind : List NodeId}
    (hnd : (done ++ ((relus.map (hiddenChain a₀)).flatten ++ behind)).Nodup)
    (hrelus : ∀ id ∈ relus, Rectifies a₀ previous id)
    (hbehind : ∀ id ∈ behind, ∃ r, a₀.Reads id r ∧ (r ∈ relus ∨ r ∈ behind)) :
    IsNext a₀ (done ++ ((relus.map (hiddenChain a₀)).flatten ++ behind)) done relus := by
  rw [List.nodup_append, List.nodup_append] at hnd
  obtain ⟨-, ⟨-, -, hlayer⟩, hdone⟩ := hnd
  have hfresh : ∀ id ∈ (relus.map (hiddenChain a₀)).flatten, id ∉ done := fun id hid hold =>
    hdone id hold id (List.mem_append_left _ hid) rfl
  have hkinds : ∀ id ∈ relus, id ∉ relus.map a₀.argumentAt := by
    intro id hid hmem
    obtain ⟨j, hj, rfl⟩ := List.mem_map.1 hmem
    obtain ⟨terms, bias, hkind⟩ := (hrelus j hj).sums.kind
    rw [(hrelus _ hid).kind] at hkind
    cases hkind
  refine ⟨hfresh, hkinds, ?_⟩
  intro id hid hold hsum hrelu
  rw [List.mem_append, List.mem_append, mem_hiddenChains, or_assoc] at hid
  obtain ⟨r, hr, hmem⟩ :=
    hbehind id (((hid.resolve_left hold).resolve_left hsum).resolve_left hrelu)
  refine ⟨r, hr, ?_⟩
  rw [List.mem_append, not_or]
  rcases hmem with hmem | hmem
  · exact ⟨hfresh r (mem_hiddenChains.2 (.inr hmem)), hkinds r hmem⟩
  · exact ⟨fun hold => hdone r hold r (List.mem_append_right _ hmem) rfl,
      fun hsum => hlayer r (mem_hiddenChains.2 (.inl hsum)) r hmem rfl⟩

/-- A round defines a hidden layer that is next. -/
theorem Placed.exists_round [LawfulSigns α] (h : Placed a₀ t start b vars done)
    (hf : f.Exports a₀ t) (hnext : IsNext a₀ t done relus)
    (hsub : (relus.map (hiddenChain a₀)).flatten.Sublist t) (hprevious : previous ⊆ done)
    (hrelus : ∀ id ∈ relus, Rectifies a₀ previous id) (stem₁ stem₂ : String) :
    ∃ d m d' c, (affineLayer true stem₁ vars 0 f.equations OrderedMap.empty).Yields b
        (d, (relus.map a₀.argumentAt).map (nodeOf t (extended vars d d'))) m ∧
      (reluLayer stem₂ (vars.insertAll d.entries) f.constraints OrderedMap.empty).Yields m
        (d', relus.map fun id => (nodeOf t (extended vars d d') (a₀.argumentAt id),
          nodeOf t (extended vars d d') id)) c ∧
      Placed a₀ t start c (extended vars d d') (done ++ (relus.map (hiddenChain a₀)).flatten) ∧
      Within vars (extended vars d d') := by
  obtain ⟨hargs, hrels⟩ := sublist_hiddenChains a₀ relus
  obtain ⟨d, m, haffine, hmiddle, hwithin⟩ := h.exists_sums hf hprevious (hargs.trans hsub)
    (by
      refine List.forall_mem_map.2 fun id hid => ⟨?_, (hrelus id hid).sums⟩
      exact hnext.fresh _ (mem_hiddenChains.2 (.inl (List.mem_map_of_mem hid))))
    (by
      intro id hid hold hsum
      by_cases hrelu : id ∈ relus
      · exact .inl ⟨_, _, (hrelus id hrelu).kind⟩
      · obtain ⟨r, hr, hmem⟩ := hnext.missing id hid hold hsum hrelu
        exact .inr ⟨r, hr, fun hold => hmem (List.mem_append_left _ hold)⟩)
    stem₁ 0
  obtain ⟨d', c, hrelu, hplaced, hwithin'⟩ := hmiddle.exists_rectifiers hf (hrels.trans hsub)
    (by
      intro id hid
      refine ⟨?_, (hrelus id hid).kind, List.mem_append_right _ (List.mem_map_of_mem hid)⟩
      rw [List.mem_append, not_or]
      exact ⟨hnext.fresh id (mem_hiddenChains.2 (.inr hid)), hnext.not_sum id hid⟩)
    (by
      intro id hid hold hrelu
      rw [List.mem_append, not_or] at hold
      exact hnext.missing id hid hold.1 hold.2 hrelu)
    stem₂
  have hkept : (relus.map a₀.argumentAt).map (nodeOf t (vars.insertAll d.entries)) =
      (relus.map a₀.argumentAt).map (nodeOf t (extended vars d d')) :=
    List.map_congr_left fun id hid =>
      (hmiddle.nodeOf_eq (List.mem_append_right done hid) hwithin').symm
  rw [hkept] at haffine
  refine ⟨d, m, d', c, haffine, hrelu, hplaced.congr fun id => ?_,
    fun v j hv => hwithin' v j (hwithin v j hv)⟩
  simp only [List.mem_append, mem_hiddenChains, or_assoc]

/-- The passes found the layers: the stages are paired to the layers over the nodes of the members,
and the last pass defined the outputs. -/
structure Finds (α : Type) (t : VariableTable) (p : Passes) (ls : List Layer) : Prop where
  stages : ∀ a : Arena α, List.Forall₂ (fun st l =>
    pairLayer a st.1 st.2 = .ok (l.map (List.map (nodeOf t p.variableNodes)))) p.stages ls
  last : p.last = ((ls.getLast?.getD []).filterMap List.getLast?).map (nodeOf t p.variableNodes)

/-- The passes over an exported network find the layers behind those that have nodes. -/
theorem exists_buildLayers [LawfulSigns α] (h : Alternates a₀ previous ls) (hf : f.Exports a₀ t)
    (ht : t = done ++ ls.flatten.flatten) (hprevious : previous ⊆ done)
    (hrounds : ls.length ≤ rounds) (hplaced : Placed a₀ t start b vars done) (stem : String)
    (index : Nat) :
    ∃ p c, (buildLayers f true stem rounds index vars).Yields b p c ∧
      Placed a₀ t start c p.variableNodes t ∧ Within vars p.variableNodes ∧ Finds α t p ls := by
  induction h generalizing done rounds index vars b with
  | @last previous sums hne hsums =>
    obtain ⟨rounds, rfl⟩ := Nat.exists_eq_add_one.2 hrounds
    rw [List.flatten_singleton, flatten_singletons] at ht
    have hnd := hf.nodup
    rw [ht, List.nodup_append] at hnd
    have hall : ∀ id ∈ t, id ∉ done ++ sums → False := fun id hid hnot => hnot (ht ▸ hid)
    obtain ⟨d, m, haffine, hmiddle, hwithin⟩ := hplaced.exists_sums hf hprevious
      (ht ▸ List.sublist_append_right done sums)
      (fun id hid => ⟨fun hold => hnd.2.2 id hold id hid rfl, hsums id hid⟩)
      (fun id hid hold hnew => absurd (List.not_mem_append hold hnew) (hall id hid))
      (stem ++ labelIndex index ++ "_w") 0
    obtain ⟨d', c, hrelu, hplaced, hwithin'⟩ := hmiddle.exists_rectifiers hf (List.nil_sublist t)
      (List.forall_mem_nil _) (fun id hid hold => absurd hold (hall id hid))
      (stem ++ labelIndex (index + 1) ++ "_r")
    have hkept : sums.map (nodeOf t (vars.insertAll d.entries)) =
        sums.map (nodeOf t (extended vars d d')) :=
      List.map_congr_left fun id hid =>
        (hmiddle.nodeOf_eq (List.mem_append_right done hid) hwithin').symm
    rw [hkept] at haffine
    refine ⟨⟨[], _, extended vars d d'⟩, c, buildLayers_last haffine (by simpa using hne) hrelu, ?_,
      fun v j hv => hwithin' v j (hwithin v j hv), ?_, ?_⟩
    · exact hplaced.congr fun id => by rw [ht, List.append_nil]
    · exact fun a => .cons (by simp [pairLayer]) .nil
    · simp [Function.comp_def]
  | @hidden previous relus ls hne hrelus rest ih =>
    obtain ⟨rounds, rfl⟩ := Nat.exists_eq_add_one.2 (Nat.lt_of_lt_of_le (Nat.succ_pos _) hrounds)
    rw [List.flatten_cons, List.flatten_append] at ht
    have hnext : IsNext a₀ t done relus := by
      rw [ht]
      exact isNext_of_nodup (ht ▸ hf.nodup) hrelus rest.exists_reads
    obtain ⟨d, m, d', b', haffine, hrelu, hround, hwithin⟩ := hplaced.exists_round hf hnext
      (ht ▸ (List.sublist_append_left _ _).trans (List.sublist_append_right _ _)) hprevious hrelus
      (stem ++ labelIndex index ++ "_w") (stem ++ labelIndex (index + 1) ++ "_r")
    obtain ⟨p, c, hrest, hall, hwithin', hstages, hlast⟩ := ih
      (ht.trans (List.append_assoc ..).symm)
      (fun id hid => List.mem_append_right _ (mem_hiddenChains.2 (.inr hid)))
      (Nat.le_of_succ_le_succ hrounds) hround (index + 2)
    have hkept : ∀ id, id ∈ relus.map a₀.argumentAt ∨ id ∈ relus →
        nodeOf t p.variableNodes id = nodeOf t (extended vars d d') id := fun id hid =>
      hround.nodeOf_eq (List.mem_append_right _ (mem_hiddenChains.2 hid)) hwithin'
    refine ⟨_, c, buildLayers_hidden haffine (by simpa using hne) hrelu (by simpa using hne) hrest,
      hall, fun v j hv => hwithin' v j (hwithin v j hv), fun a => .cons ?_ (hstages a), ?_⟩
    · have hpair := pairLayer_map a (relus.map fun id =>
        (nodeOf t (extended vars d d') (a₀.argumentAt id), nodeOf t (extended vars d d') id))
      rw [List.map_map, List.map_map] at hpair
      rw [List.map_map, List.map_map]
      refine hpair.trans (congrArg Except.ok (List.map_congr_left fun id hid => ?_))
      simp only [Function.comp_def, hiddenChain, List.map_cons, List.map_nil]
      rw [hkept _ (.inl (List.mem_map_of_mem hid)), hkept id (.inr hid)]
    · rw [List.getLast?_cons_of_ne_nil rest.ne_nil]
      exact hlast

end IpqFile

end PiecewiseNet
