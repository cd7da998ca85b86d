import PiecewiseNet.Proofs.Ipq.Rebuilding
import Mathlib.Data.List.Forall2

/-!
# Layers of rebuilt networks

Behind its input layer, a rebuilt network has one layer for each round, and the nodes of a layer are
those that were added in its round. In the arena the nodes of a round lie behind those of all rounds
before, so a variable with a node in an earlier layer had that node when the round began.

## Main definitions

- `IpqFile.Passes.stages`: the affine nodes and the rectifiers of each round.
- `IpqFile.RoundAt`: a round of a run, seen from its end.

## Main statements

- `IpqFile.Run.exists_roundAt`: every stage was added in a round.
- `IpqFile.Rebuilt.adds_of_lies`, `IpqFile.Rebuilt.lies_of_adds`: the nodes of a layer are those of
  its round.
- `IpqFile.Rebuilt.paired`: every rectifier reads an affine node of its round.
-/

namespace PiecewiseNet

namespace IpqFile

/-- The affine nodes and the rectifiers of each round; the last one has no rectifiers. -/
def Passes.stages (p : Passes) : List (List NodeId × List (NodeId × NodeId)) :=
  p.hidden ++ [(p.last, [])]

/-- The node is one of the round with this index. -/
def Passes.Adds (p : Passes) (i : Nat) (id : NodeId) : Prop :=
  ∃ st, p.stages[i]? = some st ∧ (id ∈ st.1 ∨ id ∈ st.2.map Prod.snd)

variable {α : Type} [Scalar α] {strict : Bool} {f : IpqFile α} {vars d d' : VarMap NodeId}
  {a b c m : Arena α} {p : Passes} {l : Nat} {st : List NodeId × List (NodeId × NodeId)}

/-! ## The round of a stage -/

/-- The round of a stage, seen from the end `b` of a run that started from the arena `start` and the
table `first`. -/
structure RoundAt (f : IpqFile α) (strict : Bool) (first : VarMap NodeId) (start : Arena α)
    (p : Passes) (b : Arena α) (l : Nat) (st : List NodeId × List (NodeId × NodeId))
    (vars : VarMap NodeId) (a : Arena α) (d : VarMap NodeId) (m : Arena α) (d' : VarMap NodeId)
    (c : Arena α) : Prop where
  round : f.Round strict vars a d m st.1 d' c st.2
  within : Within (extended vars d d') p.variableNodes
  grows : c.GrowsTo b
  behind : start.size ≤ a.size
  /-- The nodes of the variables were there. -/
  held : ∀ v id, vars.get? v = some id → id < a.size
  /-- A node that was there is that of a variable of the table. -/
  old : ∀ v id, p.variableNodes.get? v = some id → id < a.size → vars.get? v = some id
  /-- The nodes of earlier stages were there. -/
  earlier : ∀ i < l, ∀ id, p.Adds i id → id < a.size
  /-- The nodes of the variables are those of the first table or of earlier stages. -/
  placed : ∀ v id, vars.get? v = some id → first.get? v = some id ∨ ∃ i < l, p.Adds i id

theorem Round.held {affine : List NodeId} {relus : List (NodeId × NodeId)}
    (h : f.Round strict vars a d m affine d' b relus)
    (hvars : ∀ v id, vars.get? v = some id → id < a.size) :
    ∀ v id, (extended vars d d').get? v = some id → id < b.size := by
  intro v id hv
  rw [extended, VarMap.get?_insertAll_entries, Option.or_eq_some_iff] at hv
  rcases hv with hv | ⟨-, hv⟩
  · exact h.reluNames.lt_size hv
  · rw [VarMap.get?_insertAll_entries, Option.or_eq_some_iff] at hv
    rcases hv with hv | ⟨-, hv⟩
    · exact Nat.lt_of_lt_of_le (h.affineNames.lt_size hv) h.reluPass.grows.size
    · exact Nat.lt_of_lt_of_le (hvars v id hv) h.grows.size

/-- Every stage with a node was added in a round. -/
theorem Run.exists_roundAt (h : f.Run strict vars a p b)
    (hvars : ∀ v id, vars.get? v = some id → id < a.size) (hst : p.stages[l]? = some st)
    (hne : st ≠ ([], [])) :
    ∃ vars' a' d m d' c, f.RoundAt strict vars a p b l st vars' a' d m d' c := by
  induction h generalizing l with
  | stop vars a =>
    cases l with
    | zero =>
      cases hst
      exact absurd rfl hne
    | succ l => simp [Passes.stages] at hst
  | @last vars d d' a m b affine h =>
    cases l with
    | zero =>
      cases hst
      refine ⟨vars, a, d, m, d', b, h, fun v id hv => hv, .refl b, Nat.le_refl _, hvars,
        fun v id hv hlt => h.get?_of_lt hv hlt, ?_, fun v id hv => .inl hv⟩
      intro i hi
      exact absurd hi (Nat.not_lt_zero i)
    | succ l => simp [Passes.stages] at hst
  | @more vars d d' a m b c affine relus p h hrest ih =>
    cases l with
    | zero =>
      cases hst
      refine ⟨vars, a, d, m, d', b, h, hrest.within, hrest.grows, Nat.le_refl _, hvars, ?_, ?_,
        fun v id hv => .inl hv⟩
      · intro v id hv hlt
        exact (Run.more h hrest).get?_of_lt hv hlt
      · intro i hi
        exact absurd hi (Nat.not_lt_zero i)
    | succ l =>
      obtain ⟨vars', a', e, m', e', c', hround⟩ := ih (h.held hvars) hst
      refine ⟨vars', a', e, m', e', c', hround.round, hround.within, hround.grows,
        h.grows.size.trans hround.behind, hround.held, hround.old, ?_, ?_⟩
      · rintro i hi id ⟨st', hst', hid⟩
        cases i with
        | zero =>
          cases hst'
          obtain ⟨haffine, hrelus⟩ := h.bounds
          refine Nat.lt_of_lt_of_le ?_ hround.behind
          rcases hid with hid | hid
          · exact Nat.lt_of_lt_of_le (haffine id hid).2 h.reluPass.grows.size
          · exact (hrelus id hid).2
        | succ i => exact hround.earlier i (Nat.lt_of_succ_lt_succ hi) id ⟨st', hst', hid⟩
      · intro v id hv
        rcases hround.placed v id hv with hv | ⟨i, hi, st', hst', hid⟩
        · exact (h.get?_extended hv).imp_right fun hid => ⟨0, Nat.succ_pos l, _, rfl, hid⟩
        · exact .inr ⟨i + 1, Nat.succ_lt_succ hi, st', hst', hid⟩

theorem Run.placed (h : f.Run strict vars a p b) {v : Nat} {id : NodeId}
    (hv : p.variableNodes.get? v = some id) : vars.get? v = some id ∨ ∃ i, p.Adds i id := by
  induction h with
  | stop => exact .inl hv
  | last h => exact (h.get?_extended hv).imp_right fun hid => ⟨0, _, rfl, hid⟩
  | more h hrest ih =>
    rcases ih hv with hv | ⟨i, st, hst, hid⟩
    · exact (h.get?_extended hv).imp_right fun hid => ⟨0, _, rfl, hid⟩
    · exact .inr ⟨i + 1, st, hst, hid⟩

/-! ## Variables of a round -/

variable {vars' : VarMap NodeId} {a' : Arena α}

theorem RoundAt.middle_within (h : f.RoundAt strict vars a p b l st vars' a' d m d' c) :
    Within (vars'.insertAll d.entries) p.variableNodes :=
  fun v id hv => h.within v id (h.round.middle_within v id hv)

theorem RoundAt.vars_within (h : f.RoundAt strict vars a p b l st vars' a' d m d' c) :
    Within vars' p.variableNodes :=
  fun v id hv => h.middle_within v id (h.round.within_middle v id hv)

theorem RoundAt.affine_within (h : f.RoundAt strict vars a p b l st vars' a' d m d' c) :
    Within d p.variableNodes := by
  intro v id hv
  refine h.middle_within v id ?_
  rw [VarMap.get?_insertAll_entries, hv, Option.some_or]

theorem RoundAt.relu_within (h : f.RoundAt strict vars a p b l st vars' a' d m d' c) :
    Within d' p.variableNodes := by
  intro v id hv
  refine h.within v id ?_
  rw [extended, VarMap.get?_insertAll_entries, hv, Option.some_or]

/-! ## Pairing -/

omit [Scalar α] in
/-- The nodes of a layer are those of its stage, and every rectifier reads one of the affine nodes.
-/
theorem pairLayer_eq_ok {layer : Layer} (h : pairLayer a st.1 st.2 = .ok layer) :
    (∀ r ∈ st.2, r.1 ∈ st.1) ∧
      ∀ id, (∃ chain ∈ layer, id ∈ chain) ↔ id ∈ st.1 ∨ id ∈ st.2.map Prod.snd := by
  unfold pairLayer at h
  split at h
  · cases h
  · rename_i hnone
    cases h
    have hpaired : ∀ r ∈ st.2, r.1 ∈ st.1 := by
      intro r hr
      simpa using List.find?_eq_none.1 hnone r hr
    refine ⟨hpaired, ?_⟩
    intro id
    simp only [List.mem_append, List.mem_map, List.mem_filter]
    constructor
    · rintro ⟨chain, ⟨r, hr, rfl⟩ | ⟨j, ⟨hj, -⟩, rfl⟩, hid⟩
      · rcases List.mem_pair.1 hid with rfl | rfl
        · exact .inl (hpaired r hr)
        · exact .inr ⟨r, hr, rfl⟩
      · obtain rfl := List.mem_singleton.1 hid
        exact .inl hj
    · rintro (hid | ⟨r, hr, rfl⟩)
      · by_cases hread : ∃ r ∈ st.2, r.1 = id
        · obtain ⟨r, hr, rfl⟩ := hread
          exact ⟨[r.1, r.2], .inl ⟨r, hr, rfl⟩, by simp⟩
        · refine ⟨[id], .inr ⟨id, ⟨hid, ?_⟩, rfl⟩, by simp⟩
          simpa using hread
      · exact ⟨[r.1, r.2], .inl ⟨r, hr, rfl⟩, by simp⟩

theorem mapM_eq_ok_iff {ε β γ : Type} {g : β → Except ε γ} {xs : List β} {ys : List γ} :
    xs.mapM g = .ok ys ↔ List.Forall₂ (fun x y => g x = .ok y) xs ys := by
  induction xs generalizing ys with
  | nil =>
    rw [List.mapM_nil, List.forall₂_nil_left_iff]
    exact ⟨fun h => (Except.ok.inj h).symm, fun h => congrArg _ h.symm⟩
  | cons x xs ih =>
    rw [List.mapM_cons, bind_eq_ok_iff, List.forall₂_cons_left_iff]
    simp only [bind_eq_ok_iff, ih]
    constructor
    · rintro ⟨y, hy, zs, hzs, heq⟩
      cases heq
      exact ⟨y, zs, hy, hzs, rfl⟩
    · rintro ⟨y, zs, hy, hzs, rfl⟩
      exact ⟨y, hy, zs, hzs, rfl⟩

omit [Scalar α] in
/-- Behind the input layer there is a layer for each stage. -/
theorem pairLayers_eq_ok_iff {inputs : List NodeId} {layers : List Layer} :
    pairLayers a inputs p = .ok layers ↔ ∃ rest, layers = inputs.map ([·]) :: rest ∧
      List.Forall₂ (fun st layer => pairLayer a st.1 st.2 = .ok layer) p.stages rest := by
  have hlast : pairLayer a p.last [] = .ok (p.last.map ([·])) := by simp [pairLayer]
  have hstages : pairLayers a inputs p = (do
      let rest ← p.stages.mapM fun st => pairLayer a st.1 st.2
      return inputs.map ([·]) :: rest) := by
    simp only [pairLayers, Passes.stages, List.mapM_append, List.mapM_cons, List.mapM_nil, hlast]
    cases p.hidden.mapM fun h => pairLayer a h.1 h.2 <;> rfl
  rw [hstages, bind_eq_ok_iff]
  simp only [mapM_eq_ok_iff]
  constructor
  · rintro ⟨rest, hrest, heq⟩
    cases heq
    exact ⟨rest, rfl, hrest⟩
  · rintro ⟨rest, rfl, hrest⟩
    exact ⟨rest, hrest, rfl⟩

variable {start : Arena α} {inputs : List NodeId} {n : IpqNetwork} {chain : Chain} {id : NodeId}

theorem Rebuilt.mem_inputs_of_lies (h : f.Rebuilt strict start inputs vars a p b c n)
    (hid : n.network.Lies 0 chain id) : id ∈ inputs := by
  obtain ⟨rest, hlayers, -⟩ := pairLayers_eq_ok_iff.1 h.layers
  obtain ⟨layer, hlayer, hchain, hid⟩ := hid
  rw [hlayers] at hlayer
  cases hlayer
  obtain ⟨j, hj, rfl⟩ := List.mem_map.1 hchain
  rwa [List.mem_singleton.1 hid]

/-- The nodes of a layer behind the first one are those of its round. -/
theorem Rebuilt.adds_of_lies (h : f.Rebuilt strict start inputs vars a p b c n)
    (hid : n.network.Lies (l + 1) chain id) : p.Adds l id := by
  obtain ⟨rest, hlayers, hrest⟩ := pairLayers_eq_ok_iff.1 h.layers
  obtain ⟨layer, hlayer, hchain, hid⟩ := hid
  rw [hlayers, List.getElem?_cons_succ] at hlayer
  obtain ⟨hl, rfl⟩ := List.getElem?_eq_some_iff.1 hlayer
  obtain ⟨hlen, hall⟩ := List.forall₂_iff_get.1 hrest
  have hpair := hall l (hlen ▸ hl) hl
  exact ⟨p.stages[l], List.getElem?_eq_getElem _,
    ((pairLayer_eq_ok hpair).2 id).1 ⟨chain, hchain, hid⟩⟩

theorem Rebuilt.lies_zero (h : f.Rebuilt strict start inputs vars a p b c n) {v : Nat}
    (hv : vars.get? v = some id) : n.network.Lies 0 [id] id := by
  obtain ⟨rest, hlayers, -⟩ := pairLayers_eq_ok_iff.1 h.layers
  refine ⟨inputs.map ([·]), by rw [hlayers]; rfl, ?_, List.mem_singleton_self id⟩
  exact List.mem_map_of_mem (h.mem_inputs v id hv)

theorem Rebuilt.lies_of_adds (h : f.Rebuilt strict start inputs vars a p b c n)
    (hid : p.Adds l id) : ∃ chain, n.network.Lies (l + 1) chain id := by
  obtain ⟨rest, hlayers, hrest⟩ := pairLayers_eq_ok_iff.1 h.layers
  obtain ⟨st, hst, hid⟩ := hid
  obtain ⟨hl, rfl⟩ := List.getElem?_eq_some_iff.1 hst
  obtain ⟨hlen, hall⟩ := List.forall₂_iff_get.1 hrest
  obtain ⟨-, hnodes⟩ := pairLayer_eq_ok (hall l hl (hlen ▸ hl))
  obtain ⟨chain, hchain, hid⟩ := (hnodes id).2 hid
  refine ⟨chain, _, ?_, hchain, hid⟩
  rw [hlayers, List.getElem?_cons_succ]
  exact List.getElem?_eq_getElem _

/-- Every rectifier reads an affine node of its round. -/
theorem Rebuilt.paired (h : f.Rebuilt strict start inputs vars a p b c n)
    (hst : p.stages[l]? = some st) : ∀ r ∈ st.2, r.1 ∈ st.1 := by
  obtain ⟨rest, -, hrest⟩ := pairLayers_eq_ok_iff.1 h.layers
  obtain ⟨hl, rfl⟩ := List.getElem?_eq_some_iff.1 hst
  obtain ⟨hlen, hall⟩ := List.forall₂_iff_get.1 hrest
  exact (pairLayer_eq_ok (hall l hl (hlen ▸ hl))).1

end IpqFile

end PiecewiseNet
