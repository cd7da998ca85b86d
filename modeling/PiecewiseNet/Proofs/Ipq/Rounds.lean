import PiecewiseNet.Proofs.Ipq.Passes

/-!
# Rounds of a reconstruction

The layers behind the inputs are built in rounds of an affine pass and a rectifier pass. A run of
all rounds only adds nodes and variables, so what is true of the inputs and passes from a table of
variables to what the records define with it, is true of all variables.

## Main definitions

- `IpqFile.Round`: an affine pass with the rectifier pass behind it.
- `IpqFile.Run`: all rounds, from a table of variables on.

## Main statements

- `IpqFile.run_of_buildLayers`: building the layers is a run.
- `IpqFile.Run.within`, `IpqFile.Run.get?_of_lt`: variables keep their nodes, and further ones get
  nodes behind the old ones.
- `IpqFile.Run.names`: what is true of all variables behind a run.
-/

namespace PiecewiseNet

namespace IpqFile

variable {α : Type} [Scalar α] {strict : Bool} {stem : String} {vars d d' : VarMap NodeId} {i : Nat}
  {a b : Arena α} {v : Nat}

/-- An affine pass and the rectifier pass behind it, in which `affine` and `relus` are added. -/
structure Round (f : IpqFile α) (strict : Bool) (vars : VarMap NodeId) (a : Arena α)
    (d : VarMap NodeId) (m : Arena α) (affine : List NodeId) (d' : VarMap NodeId) (b : Arena α)
    (relus : List (NodeId × NodeId)) : Prop where
  affinePass : Pass (fun e _ => AffineStep vars e) f.equations OrderedMap.empty a d m affine
  checked : ∀ e ∈ f.equations, Checked strict vars e
  reluPass : Pass (ReluStep (vars.insertAll d.entries)) f.constraints OrderedMap.empty m d' b
    (relus.map Prod.snd)
  /-- Each rectifier comes with the node that it reads. -/
  reads : ∀ r ∈ relus, ∃ n, b.get? r.2 = some n ∧ n.kind = .relu r.1 false

/-- The variables with a node behind a round. -/
def extended (vars d d' : VarMap NodeId) : VarMap NodeId :=
  (vars.insertAll d.entries).insertAll d'.entries

/-- All rounds, from a table of variables on. The last one adds no rectifier. -/
inductive Run (f : IpqFile α) (strict : Bool) :
    VarMap NodeId → Arena α → Passes → Arena α → Prop
  | stop (vars : VarMap NodeId) (a : Arena α) : Run f strict vars a ⟨[], [], vars⟩ a
  | last {vars d d' : VarMap NodeId} {a m b : Arena α} {affine : List NodeId}
      (h : f.Round strict vars a d m affine d' b []) :
      Run f strict vars a ⟨[], affine, extended vars d d'⟩ b
  | more {vars d d' : VarMap NodeId} {a m b c : Arena α} {affine : List NodeId}
      {relus : List (NodeId × NodeId)} {p : Passes}
      (h : f.Round strict vars a d m affine d' b relus)
      (hrest : Run f strict (extended vars d d') b p c) :
      Run f strict vars a { p with hidden := (affine, relus) :: p.hidden } c

/-- Building the layers is a run. -/
theorem run_of_buildLayers {f : IpqFile α} {rounds : Nat} {p : Passes}
    (h : (buildLayers f strict stem rounds i vars).Yields a p b) : f.Run strict vars a p b := by
  induction rounds generalizing i vars a p with
  | zero =>
    obtain ⟨rfl, rfl⟩ := Edit.yields_pure.1 h
    exact .stop vars b
  | succ rounds ih =>
    obtain ⟨⟨d, affine⟩, m, haffine, h⟩ := Edit.yields_bind.1 h
    dsimp only at h
    split at h
    · exact absurd h Edit.not_yields_throw
    · obtain ⟨⟨d', relus⟩, c, hrelus, h⟩ := Edit.yields_bind.1 h
      obtain ⟨hpass, hreads⟩ := pass_of_reluLayer hrelus
      have hround : f.Round strict vars a d m affine d' c relus :=
        ⟨pass_of_affineLayer haffine, checked_of_affineLayer haffine, hpass, hreads⟩
      dsimp only at h
      split at h
      · rename_i hempty
        obtain ⟨rfl, rfl⟩ := Edit.yields_pure.1 h
        rw [List.isEmpty_iff] at hempty
        exact .last (hempty ▸ hround)
      · obtain ⟨rest, c', hrest, h⟩ := Edit.yields_bind.1 h
        obtain ⟨rfl, rfl⟩ := Edit.yields_pure.1 h
        exact .more hround (ih hrest)

/-- One table is part of another. -/
def Within (t u : VarMap NodeId) : Prop :=
  ∀ v id, t.get? v = some id → u.get? v = some id

theorem Within.insertAll (h : ∀ v id, d.get? v = some id → vars.get? v = none) :
    Within vars (vars.insertAll d.entries) := by
  intro v id hv
  rw [VarMap.get?_insertAll_entries]
  cases hd : d.get? v with
  | none => simpa using hv
  | some j =>
    rw [h v j hd] at hv
    cases hv

/-- Variables with listed nodes have these nodes in every table that the table is part of. -/
theorem Within.map_get?_eq {t u : VarMap NodeId} (hwithin : Within t u) {vs : List Nat}
    {ids : List NodeId} (h : vs.map t.get? = ids.map some) : vs.map u.get? = ids.map some := by
  rw [← h]
  refine List.map_congr_left fun v hv => ?_
  obtain ⟨id, -, hid⟩ := VarMap.exists_get?_of_map_eq h v hv
  rw [hid, hwithin v id hid]

section

variable {f : IpqFile α} {m : Arena α} {affine : List NodeId} {relus : List (NodeId × NodeId)}
  {p : Passes}

theorem Round.affineNames (h : f.Round strict vars a d m affine d' b relus) :
    a.Names m d fun v k => vars.get? v = none ∧ ∃ e ∈ f.equations, AffineStep vars e v k :=
  h.affinePass.names (.empty a _) fun e he _ _ _ hstep => ⟨hstep.get?_eq_none, e, he, hstep⟩

theorem Round.reluNames (h : f.Round strict vars a d m affine d' b relus) :
    m.Names b d' fun v k => (vars.insertAll d.entries).get? v = none ∧ ∃ g input,
      .relu v g ∈ f.constraints ∧ (vars.insertAll d.entries).get? g = some input ∧
        k = .relu input false :=
  names_of_reluPass h.reluPass

theorem Round.within_middle (h : f.Round strict vars a d m affine d' b relus) :
    Within vars (vars.insertAll d.entries) := by
  refine .insertAll fun v id hv => ?_
  obtain ⟨-, n, -, -, hnone, -⟩ := h.affineNames.node v id hv
  exact hnone

theorem Round.middle_within (h : f.Round strict vars a d m affine d' b relus) :
    Within (vars.insertAll d.entries) (extended vars d d') := by
  refine .insertAll fun v id hv => ?_
  obtain ⟨-, n, -, -, hnone, -⟩ := h.reluNames.node v id hv
  exact hnone

/-- The nodes of a round lie behind those of the arena before it. -/
theorem Round.bounds (h : f.Round strict vars a d m affine d' b relus) :
    (∀ id ∈ affine, a.size ≤ id ∧ id < m.size) ∧
      ∀ id ∈ relus.map Prod.snd, m.size ≤ id ∧ id < b.size := by
  refine ⟨?_, ?_⟩
  · intro id hid
    obtain ⟨v, hv⟩ := h.affinePass.exists_get?_iff.2 (.inr hid)
    exact ⟨(h.affineNames.node v id hv).1, h.affineNames.lt_size hv⟩
  · intro id hid
    obtain ⟨v, hv⟩ := h.reluPass.exists_get?_iff.2 (.inr hid)
    exact ⟨(h.reluNames.node v id hv).1, h.reluNames.lt_size hv⟩

/-- A variable with a node behind a round had that node before, or it is one of the round. -/
theorem Round.get?_extended (h : f.Round strict vars a d m affine d' b relus) {id : NodeId}
    (hv : (extended vars d d').get? v = some id) :
    vars.get? v = some id ∨ id ∈ affine ∨ id ∈ relus.map Prod.snd := by
  have hempty : ¬∃ u, (OrderedMap.empty : VarMap NodeId).get? u = some id := by simp
  rw [extended, VarMap.get?_insertAll_entries, Option.or_eq_some_iff] at hv
  rcases hv with hv | ⟨-, hv⟩
  · exact .inr (.inr ((h.reluPass.exists_get?_iff.1 ⟨v, hv⟩).resolve_left hempty))
  · rw [VarMap.get?_insertAll_entries, Option.or_eq_some_iff] at hv
    rcases hv with hv | ⟨-, hv⟩
    · exact .inr (.inl ((h.affinePass.exists_get?_iff.1 ⟨v, hv⟩).resolve_left hempty))
    · exact .inl hv

/-- A variable with an old node behind a round had that node before. -/
theorem Round.get?_of_lt (h : f.Round strict vars a d m affine d' b relus) {id : NodeId}
    (hv : (extended vars d d').get? v = some id) (hlt : id < a.size) : vars.get? v = some id := by
  obtain ⟨haffine, hrelus⟩ := h.bounds
  rcases h.get?_extended hv with hv | hid | hid
  · exact hv
  · exact absurd (haffine id hid).1 (Nat.not_le.2 hlt)
  · exact absurd (h.affinePass.grows.size.trans (hrelus id hid).1) (Nat.not_le.2 hlt)

theorem Round.grows (h : f.Round strict vars a d m affine d' b relus) : a.GrowsTo b :=
  h.affinePass.grows.trans h.reluPass.grows

theorem Run.grows (h : f.Run strict vars a p b) : a.GrowsTo b := by
  induction h with
  | stop vars a => exact .refl a
  | last h => exact h.grows
  | more h _ ih => exact h.grows.trans ih

theorem Run.within (h : f.Run strict vars a p b) : Within vars p.variableNodes := by
  induction h with
  | stop => exact fun v id hv => hv
  | last h => exact fun v id hv => h.middle_within v id (h.within_middle v id hv)
  | more h _ ih => exact fun v id hv => ih v id (h.middle_within v id (h.within_middle v id hv))

theorem Run.get?_of_lt (h : f.Run strict vars a p b) {id : NodeId}
    (hv : p.variableNodes.get? v = some id) (hlt : id < a.size) : vars.get? v = some id := by
  induction h with
  | stop => exact hv
  | last h => exact h.get?_of_lt hv hlt
  | more h _ ih => exact h.get?_of_lt (ih hv (Nat.lt_of_lt_of_le hlt h.grows.size)) hlt

/-- What is true of the inputs and of all definitions, is true of all variables behind a run. The
definitions look at parts of the final table. -/
theorem Run.names (h : f.Run strict vars a p b) {start : Arena α} {q : Nat → NodeKind α → Prop}
    (hvars : start.Names a vars q)
    (haffine : ∀ t, Within t p.variableNodes → ∀ e ∈ f.equations, ∀ v k, AffineStep t e v k → q v k)
    (hrelu : ∀ t, Within t p.variableNodes → ∀ v g input, .relu v g ∈ f.constraints →
      t.get? g = some input → q v (.relu input false)) :
    start.Names b p.variableNodes q := by
  -- The tables of a round are parts of the final table, which is fixed before the induction.
  have hround : ∀ {vars d d' : VarMap NodeId} {a m b : Arena α} {affine relus},
      f.Round strict vars a d m affine d' b relus → start.Names a vars q →
      Within (extended vars d d') p.variableNodes → start.Names b (extended vars d d') q := by
    intro vars d d' a m b affine relus h hvars hwithin
    have hmiddle : Within (vars.insertAll d.entries) p.variableNodes :=
      fun v id hv => hwithin v id (h.middle_within v id hv)
    have hfirst : Within vars p.variableNodes :=
      fun v id hv => hmiddle v id (h.within_middle v id hv)
    refine (hvars.insertAll (h.affineNames.imp ?_)).insertAll (h.reluNames.imp ?_)
    · rintro v k ⟨-, e, he, hstep⟩
      exact haffine vars hfirst e he v k hstep
    · rintro v k ⟨-, g, input, hg, hinput, rfl⟩
      exact hrelu _ hmiddle v g input hg hinput
  induction h with
  | stop => exact hvars
  | last h => exact hround h hvars fun v id hv => hv
  | more h hrest ih => exact ih (hround h hvars hrest.within) haffine hrelu hround

end

end IpqFile

end PiecewiseNet
