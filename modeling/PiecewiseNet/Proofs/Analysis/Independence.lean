import PiecewiseNet.Proofs.Analysis.Comparison
import PiecewiseNet.Proofs.Analysis.StateCheck
import PiecewiseNet.Proofs.Evaluation.Copies
import PiecewiseNet.Proofs.Replay.Queries

/-!
# Independence of calls

A redundancy test can be asked any number of questions. No call changes what was in the arena before
it, whether it succeeds or fails, and what it returns is made of nodes that it added. So earlier
results stay as they are, and asking again gives the same answer on other nodes.

## Main definitions

- `RedundancyTest.Call`, `RedundancyTest.Outcome`: what can be asked for, and what is returned.
- `RedundancyTest.history`: the steps of a sequence of calls.
- `RedundancyTest.Outcome.lowerings`: the numbered forms of what was returned.

## Main statements

- `RedundancyTest.repeats_run`: a call run again does the same on other nodes.
- `RedundancyTest.history_independent`: calls leave each other's nodes alone and can be repeated.
-/

namespace PiecewiseNet

variable {α : Type}

/-! ## What a successful edit leaves behind -/

namespace Edit

/-- Whenever the edit succeeds, its result and what it leaves behind are related. -/
def Ensures {ε β : Type} (e : Edit ε α β) (Q : β → Arena α → Prop) : Prop :=
  ∀ a x b, e.Yields a x b → Q x b

variable {ε β γ : Type} {Q : γ → Arena α → Prop}

/-- Only the last edit counts. -/
theorem Ensures.bind {e : Edit ε α β} {f : β → Edit ε α γ} (h : ∀ x, (f x).Ensures Q) :
    (e >>= f).Ensures Q := by
  intro a y c hy
  obtain ⟨x, b, -, hf⟩ := yields_bind.1 hy
  exact h x b y c hf

theorem Ensures.adapt {δ : Type} {f : ε → δ} {e : Edit ε α γ} (h : e.Ensures Q) :
    Ensures (ExceptT.adapt f e : Edit δ α γ) Q :=
  fun a x b hx => h a x b (yields_adapt.1 hx)

end Edit

theorem ensures_finished (q : Query α) :
    (finished q).Ensures fun q b => q.checkIntegrity b = .ok () := by
  intro a q' b h
  obtain ⟨rfl, rfl, hcheck⟩ := finished_yields.1 h
  exact hcheck

theorem ensures_joinedQuery (base altered : Network) (ov : Overrides) :
    (joinedQuery (α := α) base altered ov).Ensures fun q b => q.checkIntegrity b = .ok () :=
  .bind fun _ => .bind ensures_finished

variable [Scalar α]

theorem ensures_compareExact (base altered : Network) (ov : Overrides) (d : Direction)
    (index : Nat) (margin : α) :
    (compareExact base altered ov d index margin).Ensures fun q b =>
      q.checkIntegrity b = .ok () :=
  .bind fun _ => .bind fun _ => .bind fun _ => .bind fun _ => .bind fun _ => .bind ensures_finished

theorem ensures_compareMinimum (base altered : Network) (ov : Overrides) (index counter : Nat)
    (margin : α) :
    (compareMinimum base altered ov index counter margin).Ensures fun q b =>
      q.checkIntegrity b = .ok () := by
  unfold compareMinimum
  split
  · exact fun a x b h => absurd h Edit.not_yields_throw
  · exact .bind fun _ => .bind fun _ => .bind fun _ => .bind fun _ => .bind fun _ =>
      .bind ensures_finished

namespace RedundancyTest

/-! ## Calls -/

/-- What a test can be asked for. -/
inductive Call where
  | modified (overrides : List NeuronOverride) (range : Option ClipRange)
  | modifiedPair (overrides : List NeuronOverride) (range : Option ClipRange)
  | comparedExact (overrides : List NeuronOverride) (d : Direction) (index : Nat)
      (range : Option ClipRange)
  | comparedMinimum (overrides : List NeuronOverride) (index counter : Nat)
      (range : Option ClipRange)
  | joined (overrides : List NeuronOverride) (range : Option ClipRange)
  | stateCheck (layer neuron : Nat) (phase : Phase) (range : Option ClipRange)
deriving DecidableEq

/-- What a call returns. -/
inductive Outcome (α : Type) where
  | network (net : Network)
  | pair (base altered : Network)
  | query (q : Query α)

/-- Makes a call. -/
def Call.run (t : RedundancyTest α) : Call → Edit (AnalysisError α) α (Outcome α)
  | modified overrides range => do return .network (← t.modified overrides range)
  | modifiedPair overrides range => do
    let (base, altered) ← t.modifiedPair overrides range
    return .pair base altered
  | comparedExact overrides d index range => do
    return .query (← t.comparedExact overrides d index range)
  | comparedMinimum overrides index counter range => do
    return .query (← t.comparedMinimum overrides index counter range)
  | joined overrides range => do return .query (← t.joined overrides range)
  | stateCheck layer neuron phase range => do
    return .query (← t.stateCheck layer neuron phase range)

/-- A call with the arenas before and after it. -/
structure Step (α : Type) where
  before : Arena α
  call : Call
  result : Except (AnalysisError α) (Outcome α)
  after : Arena α

/-- A call made in an arena. -/
def step (t : RedundancyTest α) (a : Arena α) (c : Call) : Step α :=
  { before := a, call := c, result := ((c.run t).run a).1, after := ((c.run t).run a).2 }

/-- Calls made one after the other. A call that fails leaves behind what it added. -/
def history (t : RedundancyTest α) : Arena α → List Call → List (Step α)
  | _, [] => []
  | a, c :: cs => t.step a c :: t.history (t.step a c).after cs

namespace Outcome

section

omit [Scalar α]

/-- The nodes of what was returned. -/
def nodes : Outcome α → List NodeId
  | network net => net.nodes
  | pair base altered => base.nodes ++ altered.nodes
  | query q => q.nodes

/-- The queries that what was returned stands for: a network stands for the query for any run. -/
def queries : Outcome α → List (Except (GraphError α) (Query α))
  | network net => [net.toQuery]
  | pair base altered => [base.toQuery, altered.toQuery]
  | query q => [.ok q]

/-- The labels of the nodes of what was returned. -/
def labels (a : Arena α) (out : Outcome α) : List (Option String) :=
  out.nodes.map fun id => (a.get? id).bind Node.label

/-- The same outcome on the nodes of a later run. -/
def shifted (p : Replay α) : Outcome α → Outcome α
  | network net => network (net.moved p.shift)
  | pair base altered => pair (base.moved p.shift) (altered.moved p.shift)
  | query q => query (q.redirect p.shift p.shift_injective)

/-- What was returned passes its check in the arena. -/
def Sound (a : Arena α) : Outcome α → Prop
  | network net => net.WellFormed a
  | pair base altered => base.WellFormed a ∧ altered.WellFormed a
  | query q => q.checkIntegrity a = .ok ()

end

/-- The numbered forms of the queries that what was returned stands for. -/
def lowerings (a : Arena α) (out : Outcome α) : List (Except (EvalError α) (ConstraintSystem α)) :=
  out.queries.map fun q => q.mapError .graph >>= ConstraintSystem.ofQuery a

end Outcome

/-! ## A call run again -/

variable {p : Replay α} {t : RedundancyTest α}

section

variable (hsource : t.network.nodes ⊆ p.source)
include hsource

omit [Scalar α] in
/-- The network of the test lies where the two runs agree. -/
theorem repeats_duplicateAndClip_network (r : ClipRange) (suffix : String) :
    p.Repeats (·.moved p.shift) p.FreshNetwork (t.network.duplicateAndClip (α := α) r suffix)
      (t.network.duplicateAndClip r suffix) := by
  have h := Replay.repeats_duplicateAndClip (fun id hid => .inl (hsource hid)) r suffix
  rwa [Network.moved_of_eq fun id hid => Replay.shift_of_mem_source (hsource hid)] at h

theorem repeats_prepare (overrides : List NeuronOverride) (range : Option ClipRange) :
    p.Repeats (fun r => (r.1.moved p.shift, r.2.1.moved p.shift, r.2.2))
      (fun r => p.FreshNetwork r.1 ∧ p.FreshNetwork r.2.1) (t.prepare overrides range)
      (t.prepare overrides range) := by
  unfold prepare ofGraph
  refine .bind (.ofExcept (.refl _)) fun relative _ => ?_
  refine .bind (.adapt (repeats_duplicateAndClip_network hsource _ _)) fun base hbase => ?_
  refine .bind (.adapt (repeats_duplicateAndClip_network hsource _ _)) fun copy hcopy => ?_
  refine .bind (.adapt (Replay.repeats_override hcopy relative)) fun altered haltered => ?_
  exact .pure ⟨hbase, haltered⟩ rfl

/-- A call run again later does the same over nodes further up. -/
theorem repeats_run (c : Call) :
    p.Repeats (Outcome.shifted p) (fun out => ∀ id ∈ out.nodes, p.Fresh id) (c.run t)
      (c.run t) := by
  have hpair : ∀ overrides range, p.Repeats (Prod.map (·.moved p.shift) (·.moved p.shift))
      (fun r => p.FreshNetwork r.1 ∧ p.FreshNetwork r.2) (t.modifiedPair overrides range)
      (t.modifiedPair overrides range) := by
    intro overrides range
    unfold modifiedPair
    exact .bind (repeats_prepare hsource overrides range) fun r hr => .pure hr rfl
  have hquery : ∀ e : Edit (AnalysisError α) α (Query α),
      p.Repeats (·.redirect p.shift p.shift_injective) p.FreshQuery e e →
      p.Repeats (Outcome.shifted p) (fun out => ∀ id ∈ out.nodes, p.Fresh id)
        (do return .query (← e)) (do return .query (← e)) :=
    fun e he => .bind he fun q hq => .pure hq rfl
  cases c with
  | modified overrides range =>
    unfold Call.run modified
    refine .bind (.bind (hpair overrides range) (Q := p.FreshNetwork) (k := (·.moved p.shift))
      fun r hr => .pure hr.2 rfl) fun net hnet => ?_
    exact .pure hnet rfl
  | modifiedPair overrides range =>
    unfold Call.run
    refine .bind (hpair overrides range) ?_
    rintro ⟨base, altered⟩ ⟨hbase, haltered⟩
    exact .pure (List.forall_mem_append.2 ⟨hbase, haltered⟩) rfl
  | comparedExact overrides d index range =>
    refine hquery _ (.bind (repeats_prepare hsource overrides range) ?_)
    rintro ⟨base, altered, relative⟩ ⟨hbase, haltered⟩
    exact .adapt (Replay.repeats_compareExact hbase haltered relative d index _)
  | comparedMinimum overrides index counter range =>
    refine hquery _ (.bind (.ofExcept (.refl _)) fun _ _ =>
      .bind (repeats_prepare hsource overrides range) ?_)
    rintro ⟨base, altered, relative⟩ ⟨hbase, haltered⟩
    exact .adapt (Replay.repeats_compareMinimum hbase haltered relative index counter _)
  | joined overrides range =>
    refine hquery _ (.bind (repeats_prepare hsource overrides range) ?_)
    rintro ⟨base, altered, relative⟩ ⟨hbase, haltered⟩
    exact .adapt (Replay.repeats_joinedQuery hbase haltered relative)
  | stateCheck layer neuron phase range =>
    refine hquery _ (.bind (.ofExcept (.refl _)) fun _ _ =>
      .bind (.adapt (repeats_duplicateAndClip_network hsource _ _)) fun clipped hclipped => ?_)
    exact .adapt (Replay.repeats_stateCheck hclipped neuron phase _ _)

end

/-! ## What a call leaves behind -/

/-- Clipping a copy of the network and overriding it only adds nodes. -/
theorem growsTo_of_override {a b c : Arena α} (hnet : t.network.WellFormed a) {r : ClipRange}
    {suffix : String} {ov : Overrides} {twin altered : Network}
    (htwin : (t.network.duplicateAndClip r suffix).Yields a twin b)
    (hover : (twin.override ov).Yields b altered c) : a.GrowsTo c := by
  let p : Replay α := .ofNetwork hnet (.refl a)
  let steps : Edit (GraphError α) α Network := do
    (← t.network.duplicateAndClip r suffix).override ov
  have hsteps : p.Repeats (·.moved p.shift) p.FreshNetwork steps steps :=
    .bind (repeats_duplicateAndClip_network (List.Subset.refl _) _ _)
      fun _ hcopy => Replay.repeats_override hcopy ov
  have hrun : steps.Yields a altered c := Edit.yields_bind.2 ⟨twin, b, htwin, hover⟩
  have hgrows := (hsteps a a (.start p)).2.first
  rwa [hrun] at hgrows

/-- What a test prepares is well-formed. -/
theorem wellFormed_of_prepare {a b : Arena α} (hnet : t.network.WellFormed a)
    {overrides : List NeuronOverride} {range : Option ClipRange} {base altered : Network}
    {ov : Overrides} (h : (t.prepare overrides range).Yields a (base, altered, ov) b) :
    base.WellFormed b ∧ altered.WellFormed b := by
  obtain ⟨-, twin, b₁, b₂, hbase, htwin, hover⟩ := prepare_yields.1 h
  obtain ⟨-, -, -, hgrows, -, hwell, -⟩ := Network.duplicateAndClip_yields hbase hnet
  have hnet₁ := hgrows.wellFormed hnet
  obtain ⟨-, -, -, -, -, hwell₂, -⟩ := Network.duplicateAndClip_yields htwin hnet₁
  obtain ⟨-, -, halt⟩ := Network.override_yields hover hwell₂.nodup hwell₂.held
  exact ⟨(growsTo_of_override hnet₁ htwin hover).wellFormed hwell, halt⟩

/-- What a call returns passes its check. -/
theorem sound_of_run {a b : Arena α} (hnet : t.network.WellFormed a) {c : Call} {out : Outcome α}
    (h : (c.run t).Yields a out b) : out.Sound b := by
  have hprepared : ∀ {overrides range base altered ov b},
      (t.prepare overrides range).Yields a (base, altered, ov) b →
        base.WellFormed b ∧ altered.WellFormed b :=
    fun h => wellFormed_of_prepare hnet h
  have hquery : ∀ e : Edit (AnalysisError α) α (Query α),
      (e.Ensures fun q b => q.checkIntegrity b = .ok ()) →
      Edit.Yields (do return Outcome.query (← e)) a out b → out.Sound b := by
    intro e he h
    obtain ⟨q, b', hq, h⟩ := Edit.yields_bind.1 h
    obtain ⟨rfl, rfl⟩ := Edit.yields_pure.1 h
    exact he a q b hq
  cases c with
  | modified overrides range =>
    obtain ⟨net, b₁, hmodified, h⟩ := Edit.yields_bind.1 h
    obtain ⟨rfl, rfl⟩ := Edit.yields_pure.1 h
    obtain ⟨⟨base, altered⟩, b₂, hpair, hmodified⟩ := Edit.yields_bind.1 hmodified
    obtain ⟨rfl, rfl⟩ := Edit.yields_pure.1 hmodified
    obtain ⟨ov, hprepare⟩ := modifiedPair_yields.1 hpair
    exact (hprepared hprepare).2
  | modifiedPair overrides range =>
    obtain ⟨⟨base, altered⟩, b₁, hpair, h⟩ := Edit.yields_bind.1 h
    obtain ⟨rfl, rfl⟩ := Edit.yields_pure.1 h
    obtain ⟨ov, hprepare⟩ := modifiedPair_yields.1 hpair
    exact hprepared hprepare
  | comparedExact overrides d index range =>
    exact hquery _ (.bind fun _ => (ensures_compareExact _ _ _ _ _ _).adapt) h
  | comparedMinimum overrides index counter range =>
    exact hquery _ (.bind fun _ => .bind fun _ => (ensures_compareMinimum _ _ _ _ _ _).adapt) h
  | joined overrides range =>
    exact hquery _ (.bind fun _ => (ensures_joinedQuery _ _ _).adapt) h
  | stateCheck layer neuron phase range =>
    refine hquery _ (.bind fun _ => .bind fun clipped => .adapt ?_) h
    intro a' q b' hq
    obtain ⟨hcheck, rfl⟩ := Edit.yields_reading.1 hq
    exact Network.checkIntegrity_of_stateCheck hcheck

namespace Outcome

variable {out : Outcome α} {a b c c' : Arena α}

omit [Scalar α] in
/-- The nodes of what passes its check are in the arena. -/
theorem Sound.held (h : out.Sound a) : ∀ id ∈ out.nodes, id < a.size := by
  cases out with
  | network net => exact Network.WellFormed.held h
  | pair base altered => exact List.forall_mem_append.2 ⟨h.1.held, h.2.held⟩
  | query q =>
    intro id hid
    obtain ⟨n, hn, -⟩ := Query.checkIntegrity_eq_ok_iff.1 h id hid
    exact Arena.lt_size_of_get? hn

/-- A query and the query of a later run, both looked at after further changes. -/
theorem sameLowering_shifted (h : p.Matches a b) (hac : a.GrowsTo c) (hbc : b.GrowsTo c')
    {q : Query α} (hq : q.checkIntegrity a = .ok ()) (hfresh : p.FreshQuery q) :
    ConstraintSystem.SameLowering (ConstraintSystem.ofQuery c q)
      (ConstraintSystem.ofQuery c' (q.redirect p.shift p.shift_injective)) := by
  rw [Query.checkIntegrity_eq_ok_iff] at hq
  have hcheck : q.checkIntegrity c = .ok () := by
    rw [Query.checkIntegrity_eq_ok_iff]
    intro id hid
    obtain ⟨n, hn, hrefs⟩ := hq id hid
    exact ⟨n, hac.get?_eq_some hn, hrefs⟩
  refine Query.Copy.sameLowering ⟨rfl, rfl, rfl, rfl, ?_, ?_⟩ hcheck
  · intro i _ j _ hij
    exact p.shift_injective hij
  · intro id hid
    obtain ⟨n, hn, -⟩ := hq id hid
    refine ⟨n, n.redirect p.shift, hac.get?_eq_some hn, ?_, rfl, rfl⟩
    rw [h.get?_of_growsTo hac hbc (hfresh id hid) (Arena.lt_size_of_get? hn),
      hac.get?_eq_some hn, Option.map_some]

/-- A well-formed network and the network of a later run, lowered after further changes. -/
theorem sameLowering_toQuery (h : p.Matches a b) (hac : a.GrowsTo c) (hbc : b.GrowsTo c')
    {net : Network} (hnet : net.WellFormed a) (hfresh : p.FreshNetwork net) :
    ConstraintSystem.SameLowering
      (net.toQuery.mapError .graph >>= ConstraintSystem.ofQuery c)
      ((net.moved p.shift).toQuery.mapError .graph >>= ConstraintSystem.ofQuery c') := by
  have hquery := Replay.Alike.new_query p net.nodes net.inputs net.outputs []
  rw [← Network.nodes_moved, ← Replay.inputs_moved, ← Replay.outputs_moved, List.map_nil] at hquery
  unfold Network.toQuery
  generalize Query.new net.nodes net.inputs net.outputs [] = r at hquery
  generalize Query.new (net.moved p.shift).nodes (net.moved p.shift).inputs
    (net.moved p.shift).outputs [] = r' at hquery
  cases hquery with
  | error e e' => exact .error _ _
  | ok hq =>
    rename_i q
    have hmem : ∀ id, id ∈ q.nodes ↔ id ∈ net.nodes := by
      intro id
      rw [hq, List.mem_eraseDups]
    refine sameLowering_shifted h hac hbc ?_ fun id hid => hfresh id ((hmem id).1 hid)
    rw [Query.checkIntegrity_eq_ok_iff]
    intro id hid
    rw [hmem] at hid
    obtain ⟨n, hn⟩ := Arena.exists_get? (hnet.held id hid)
    refine ⟨n, hn, fun r hr => (hmem r).2 ?_⟩
    exact hnet.closed id hid r ((Arena.reads_iff hn).2 hr)

/-- What a later run returns has the same tables, also after further changes. -/
theorem lowerings_shifted (h : p.Matches a b) (hac : a.GrowsTo c) (hbc : b.GrowsTo c')
    (hsound : out.Sound a) (hfresh : ∀ id ∈ out.nodes, p.Fresh id) :
    List.Forall₂ ConstraintSystem.SameLowering (out.lowerings c)
      ((out.shifted p).lowerings c') := by
  cases out with
  | network net => exact .cons (sameLowering_toQuery h hac hbc hsound hfresh) .nil
  | pair base altered =>
    obtain ⟨hbase, haltered⟩ := List.forall_mem_append.1 hfresh
    exact .cons (sameLowering_toQuery h hac hbc hsound.1 hbase)
      (.cons (sameLowering_toQuery h hac hbc hsound.2 haltered) .nil)
  | query q => exact .cons (sameLowering_shifted h hac hbc hsound hfresh) .nil

omit [Scalar α] in
theorem nodes_shifted (p : Replay α) (out : Outcome α) :
    (out.shifted p).nodes = out.nodes.map p.shift := by
  cases out with
  | network net => exact Network.nodes_moved
  | pair base altered =>
    show (base.moved p.shift).nodes ++ (altered.moved p.shift).nodes = _
    rw [Network.nodes_moved, Network.nodes_moved, ← List.map_append]
    rfl
  | query q => rfl

omit [Scalar α] in
/-- What a later run returns has the same labels, also after further changes. -/
theorem labels_shifted (h : p.Matches a b) (hac : a.GrowsTo c) (hbc : b.GrowsTo c')
    (hsound : out.Sound a) (hfresh : ∀ id ∈ out.nodes, p.Fresh id) :
    (out.shifted p).labels c' = out.labels c := by
  rw [labels, nodes_shifted, List.map_map, labels]
  refine List.map_congr_left fun id hid => ?_
  rw [Function.comp_apply, h.get?_of_growsTo hac hbc (hfresh id hid) (hsound.held id hid)]
  cases c.get? id <;> rfl

end Outcome

/-! ## Sequences of calls -/

/-- The two steps end alike: both calls fail, or both succeed, and what they return has the same
numbered forms and the same labels, now and after whatever is added later. -/
def Step.Agrees (s s' : Step α) : Prop :=
  match s.result, s'.result with
  | .ok out, .ok out' => ∀ b b', s.after.GrowsTo b → s'.after.GrowsTo b' →
      List.Forall₂ ConstraintSystem.SameLowering (out.lowerings b) (out'.lowerings b') ∧
        out'.labels b' = out.labels b
  | .error _, .error _ => True
  | _, _ => False

section

variable {a b : Arena α}

/-- A call leaves every node as it is, and returns nodes that it added. -/
theorem step_frame (hnet : t.network.WellFormed a) (c : Call) :
    a.GrowsTo (t.step a c).after ∧ ∀ out, (t.step a c).result = .ok out →
      ∀ id ∈ out.nodes, a.size ≤ id ∧ id < (t.step a c).after.size := by
  let p : Replay α := .ofNetwork hnet (.refl a)
  obtain ⟨halike, hmatches⟩ := repeats_run (p := p) (List.Subset.refl _) c a a (.start p)
  refine ⟨hmatches.first, ?_⟩
  intro out hout id hid
  have hyields : (c.run t).Yields a out (t.step a c).after := Prod.ext hout rfl
  refine ⟨?_, (sound_of_run hnet hyields).held id hid⟩
  have hresult : ((c.run t).run a).1 = .ok out := hout
  rw [hresult] at halike
  exact halike.eq_of_ok.2 id hid

/-- The same call, made in an arena and in a later state of it, ends alike. -/
theorem step_agrees (hnet : t.network.WellFormed a) (hab : a.GrowsTo b) (c : Call) :
    (t.step a c).Agrees (t.step b c) := by
  let p : Replay α := .ofNetwork hnet hab
  obtain ⟨halike, hmatches⟩ := repeats_run (p := p) (List.Subset.refl _) c a b (.start p)
  unfold Step.Agrees step
  dsimp only
  cases hout : ((c.run t).run a).1 with
  | error e =>
    rw [hout] at halike
    cases hout' : ((c.run t).run b).1 with
    | error e' => trivial
    | ok out' =>
      rw [hout'] at halike
      cases halike
  | ok out =>
    have hsound := sound_of_run hnet (Prod.ext hout rfl)
    rw [hout] at halike
    obtain ⟨hout', hfresh⟩ := halike.eq_of_ok
    rw [hout']
    intro c₁ c₂ h₁ h₂
    exact ⟨Outcome.lowerings_shifted hmatches h₁ h₂ hsound hfresh,
      Outcome.labels_shifted hmatches h₁ h₂ hsound hfresh⟩

/-- Every step of a sequence is a call made in a later state of the arena. -/
theorem exists_of_mem_history (hnet : t.network.WellFormed a) {cs : List Call} {s : Step α}
    (hs : s ∈ t.history a cs) : ∃ b c, s = t.step b c ∧ a.GrowsTo b := by
  induction cs generalizing a with
  | nil => cases hs
  | cons c cs ih =>
    rcases List.mem_cons.1 hs with rfl | hs
    · exact ⟨a, c, rfl, .refl a⟩
    · obtain ⟨hgrows, -⟩ := step_frame hnet c
      obtain ⟨b, c', rfl, hb⟩ := ih (hgrows.wellFormed hnet) hs
      exact ⟨b, c', rfl, hgrows.trans hb⟩

/-- Of two steps of a sequence, the second one starts from what the first one leaves behind and
further calls add. -/
theorem pairwise_history (hnet : t.network.WellFormed a) (cs : List Call) :
    (t.history a cs).Pairwise fun s s' => s.after.GrowsTo s'.before := by
  induction cs generalizing a with
  | nil => exact .nil
  | cons c cs ih =>
    obtain ⟨hgrows, -⟩ := step_frame hnet c
    have hnet' := hgrows.wellFormed hnet
    refine .cons ?_ (ih hnet')
    intro s hs
    obtain ⟨b, c', rfl, hb⟩ := exists_of_mem_history hnet' hs
    exact hb

/-- Calls made one after the other, whether they succeed or fail: each leaves all nodes that were
there unchanged, returns nodes that it added, and leaves the network of the test acceptable. What
two calls return has no node in common, and the same call ends alike whenever it is made. -/
theorem history_independent (hnet : t.network.Accepted a) (cs : List Call) :
    (∀ s ∈ t.history a cs, s.before.GrowsTo s.after ∧ t.network.Accepted s.after ∧
        ∀ out, s.result = .ok out → ∀ id ∈ out.nodes, s.before.size ≤ id ∧ id < s.after.size) ∧
      (t.history a cs).Pairwise fun s s' => s.after.GrowsTo s'.before ∧
        (∀ out out', s.result = .ok out → s'.result = .ok out' → out.nodes.Disjoint out'.nodes) ∧
        (s.call = s'.call → s.Agrees s') := by
  rw [Network.accepted_iff] at hnet
  have hsteps : ∀ s ∈ t.history a cs, t.network.WellFormed s.before ∧
      ∃ c, s = t.step s.before c := by
    intro s hs
    obtain ⟨b, c, rfl, hb⟩ := exists_of_mem_history hnet hs
    exact ⟨hb.wellFormed hnet, c, rfl⟩
  have hframe : ∀ s ∈ t.history a cs, s.before.GrowsTo s.after ∧
      ∀ out, s.result = .ok out → ∀ id ∈ out.nodes, s.before.size ≤ id ∧ id < s.after.size := by
    intro s hs
    obtain ⟨hwell, c, hstep⟩ := hsteps s hs
    rw [hstep]
    exact step_frame hwell c
  refine ⟨?_, (pairwise_history hnet cs).imp_of_mem ?_⟩
  · intro s hs
    obtain ⟨hgrows, hadded⟩ := hframe s hs
    exact ⟨hgrows, Network.accepted_iff.2 (hgrows.wellFormed (hsteps s hs).1), hadded⟩
  · intro s s' hs hs' hafter
    obtain ⟨hgrows, hadded⟩ := hframe s hs
    obtain ⟨-, hadded'⟩ := hframe s' hs'
    refine ⟨hafter, ?_, ?_⟩
    · intro out out' hout hout' id hid hid'
      have hlt := (hadded out hout id hid).2
      have hge := (hadded' out' hout' id hid').1
      exact absurd (Nat.lt_of_lt_of_le hlt (hafter.size.trans hge)) (Nat.lt_irrefl _)
    · intro hcall
      obtain ⟨hwell, c, hstep⟩ := hsteps s hs
      obtain ⟨-, c', hstep'⟩ := hsteps s' hs'
      have hc : c = c' := by
        have h : (t.step s.before c).call = (t.step s'.before c').call := by
          rw [← hstep, ← hstep']
          exact hcall
        exact h
      rw [hstep, hstep', ← hc]
      exact step_agrees hwell (hgrows.trans hafter) c

end

/-- Asking the sample twice whether an output moves, and in between for the phase of a rectifier
that it does not have. -/
theorem history_independent_sample :
    let steps := sample.history Arena.sample
      [.comparedExact [⟨1, 0, .active⟩] .gt 0 none, .stateCheck 1 2 .active none,
        .comparedExact [⟨1, 0, .active⟩] .gt 0 none]
    steps.map (·.result.isOk) = [true, false, true] ∧
      (∀ s ∈ steps, s.before.GrowsTo s.after ∧ Network.sample.Accepted s.after ∧
        ∀ out, s.result = .ok out → ∀ id ∈ out.nodes, s.before.size ≤ id ∧ id < s.after.size) ∧
      steps.Pairwise fun s s' => s.after.GrowsTo s'.before ∧
        (∀ out out', s.result = .ok out → s'.result = .ok out' → out.nodes.Disjoint out'.nodes) ∧
        (s.call = s'.call → s.Agrees s') := by
  have haccepted : Network.sample.Accepted Arena.sample := by rfl
  exact ⟨by decide +kernel, history_independent haccepted _⟩

end RedundancyTest

end PiecewiseNet
