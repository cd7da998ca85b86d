import PiecewiseNet.Ipq.Reconstruction
import PiecewiseNet.Proofs.Maps
import PiecewiseNet.Proofs.Network.Duplication

/-!
# Passes over the records of a query file

The network of a query file is built in passes. A pass goes through the equations or the constraints
once, and every record is either skipped or defines one variable by one new node. The table of
variables that a pass looks at does not change during the pass.

## Main definitions

- `Arena.Names`: a table that gives variables nodes of their own, without bounds.
- `Pass`: one pass over a list of records.
- `IpqFile.AffineStep`, `IpqFile.ReluStep`: when a record defines a variable, and by which node.

## Main statements

- `Pass.names`, `Pass.at_record`: what a pass adds, and what it did at one of its records.
- `Pass.map_get?_filterMap`: a pass adds its nodes in the order of the records.
- `IpqFile.pass_of_affineLayer`, `IpqFile.pass_of_reluLayer`: the layers are built in passes.
-/

namespace PiecewiseNet

variable {α : Type}

/-! ## Tables of variables -/

/-- The arena grew, and the table gives its variables nodes behind the old ones: each variable has a
node of its own without bounds, of a kind that suits the variable. -/
structure Arena.Names (a b : Arena α) (table : VarMap NodeId) (p : Nat → NodeKind α → Prop) :
    Prop where
  grows : a.GrowsTo b
  node : ∀ v id, table.get? v = some id →
    a.size ≤ id ∧ ∃ n, b.get? id = some n ∧ n.bounds = .unbounded ∧ p v n.kind
  injective : ∀ u v id, table.get? u = some id → table.get? v = some id → u = v

namespace Arena.Names

variable {a b c : Arena α} {table defined : VarMap NodeId} {p q : Nat → NodeKind α → Prop} {v : Nat}
  {id : NodeId}

theorem lt_size (h : a.Names b table p) (hv : table.get? v = some id) : id < b.size := by
  obtain ⟨-, n, hn, -⟩ := h.node v id hv
  exact lt_size_of_get? hn

theorem empty (a : Arena α) (p : Nat → NodeKind α → Prop) : a.Names a OrderedMap.empty p :=
  ⟨.refl a, by simp, by simp⟩

theorem frame (h : a.Names b table p) (hgrows : b.GrowsTo c) : a.Names c table p := by
  refine ⟨h.grows.trans hgrows, ?_, h.injective⟩
  intro v id hv
  obtain ⟨hnew, n, hn, hrest⟩ := h.node v id hv
  exact ⟨hnew, n, hgrows.get?_eq_some hn, hrest⟩

theorem imp (h : a.Names b table p) (himp : ∀ v k, p v k → q v k) : a.Names b table q := by
  refine ⟨h.grows, ?_, h.injective⟩
  intro v id hv
  obtain ⟨hnew, n, hn, hbounds, hk⟩ := h.node v id hv
  exact ⟨hnew, n, hn, hbounds, himp v n.kind hk⟩

/-- No node is listed for two variables. -/
theorem nodup_nodes (h : a.Names b table p) : (table.entries.map Prod.snd).Nodup := by
  refine List.Nodup.map_on ?_ (List.Nodup.of_map _ table.nodup_keys)
  rintro ⟨u, i⟩ hu ⟨w, j⟩ hw (rfl : i = j)
  rw [h.injective u w i (VarMap.get?_eq_some_iff.2 hu) (VarMap.get?_eq_some_iff.2 hw)]

theorem push (h : a.Names b table p) {k : NodeKind α} (hk : p v k) (label : Option String) :
    a.Names (b.push { kind := k, label }) (table.insert v b.size) p := by
  have hframe := h.frame (growsTo_push b { kind := k, label })
  refine ⟨hframe.grows, ?_, ?_⟩
  · intro u id hu
    rw [OrderedMap.get?_insert] at hu
    split at hu
    · rename_i heq
      cases hu
      exact ⟨h.grows.size, _, by rw [get?_push, if_pos rfl], rfl, heq ▸ hk⟩
    · exact hframe.node u id hu
  · intro u w id hu hw
    rw [OrderedMap.get?_insert] at hu hw
    split at hu <;> split at hw
    · simp [*]
    · cases hu
      exact absurd (h.lt_size hw) (Nat.lt_irrefl _)
    · cases hw
      exact absurd (h.lt_size hu) (Nat.lt_irrefl _)
    · exact h.injective u w id hu hw

/-- The entries of a table for later nodes are entered into a table. -/
theorem insertAll (h : a.Names b table p) (hd : b.Names c defined p) :
    a.Names c (table.insertAll defined.entries) p := by
  have hframe := h.frame hd.grows
  refine ⟨hframe.grows, ?_, ?_⟩
  · intro v id hv
    rw [VarMap.get?_insertAll_entries, Option.or_eq_some_iff] at hv
    rcases hv with hv | ⟨-, hv⟩
    · obtain ⟨hnew, hrest⟩ := hd.node v id hv
      exact ⟨h.grows.size.trans hnew, hrest⟩
    · exact hframe.node v id hv
  · intro u v id hu hv
    rw [VarMap.get?_insertAll_entries, Option.or_eq_some_iff] at hu hv
    rcases hu with hu | ⟨-, hu⟩ <;> rcases hv with hv | ⟨-, hv⟩
    · exact hd.injective u v id hu hv
    · exact absurd (h.lt_size hv) (Nat.not_lt.2 (hd.node u id hu).1)
    · exact absurd (h.lt_size hu) (Nat.not_lt.2 (hd.node v id hv).1)
    · exact h.injective u v id hu hv

end Arena.Names

/-! ## Passes -/

/-- One pass over records. From the variables that the pass has defined so far, `step` says which
variable a record defines and by which kind of node. The pass skips records that define nothing, and
adds one node for each of the others; `ids` are the new nodes. -/
inductive Pass {ρ : Type} (step : ρ → VarMap NodeId → Nat → NodeKind α → Prop) :
    List ρ → VarMap NodeId → Arena α → VarMap NodeId → Arena α → List NodeId → Prop
  | nil (d : VarMap NodeId) (a : Arena α) : Pass step [] d a d a []
  | skip {r : ρ} {rs : List ρ} {d d' : VarMap NodeId} {a b : Arena α} {ids : List NodeId}
      (hskip : ∀ v k, ¬step r d v k) (h : Pass step rs d a d' b ids) :
      Pass step (r :: rs) d a d' b ids
  | define {r : ρ} {rs : List ρ} {d d' : VarMap NodeId} {a b : Arena α} {ids : List NodeId}
      {v : Nat} {k : NodeKind α} {label : Option String} (hstep : step r d v k)
      (hnew : d.get? v = none)
      (h : Pass step rs (d.insert v a.size) (a.push { kind := k, label }) d' b ids) :
      Pass step (r :: rs) d a d' b (a.size :: ids)

namespace Pass

variable {ρ : Type} {step : ρ → VarMap NodeId → Nat → NodeKind α → Prop} {rs : List ρ}
  {d d' : VarMap NodeId} {a b : Arena α} {ids : List NodeId}

theorem grows (h : Pass step rs d a d' b ids) : a.GrowsTo b := by
  induction h with
  | nil d a => exact .refl a
  | skip _ _ ih => exact ih
  | define _ _ _ ih => exact (Arena.growsTo_push _ _).trans ih

theorem keeps (h : Pass step rs d a d' b ids) {v : Nat} {id : NodeId} (hv : d.get? v = some id) :
    d'.get? v = some id := by
  induction h with
  | nil => exact hv
  | skip _ _ ih => exact ih hv
  | define _ hnew _ ih =>
    refine ih ?_
    rw [OrderedMap.get?_insert, if_neg, hv]
    rintro rfl
    rw [hv] at hnew
    cases hnew

/-- The new nodes are those of the variables that were defined. -/
theorem exists_get?_iff (h : Pass step rs d a d' b ids) {id : NodeId} :
    (∃ v, d'.get? v = some id) ↔ (∃ v, d.get? v = some id) ∨ id ∈ ids := by
  induction h with
  | nil => simp
  | skip _ _ ih => exact ih
  | @define r rs d d' a b ids v k label _ hnew _ ih =>
    have hinsert : (∃ u, (d.insert v a.size).get? u = some id) ↔
        id = a.size ∨ ∃ u, d.get? u = some id := by
      constructor
      · rintro ⟨u, hu⟩
        rw [OrderedMap.get?_insert] at hu
        split at hu
        · cases hu
          exact .inl rfl
        · exact .inr ⟨u, hu⟩
      · rintro (rfl | ⟨u, hu⟩)
        · exact ⟨v, by rw [OrderedMap.get?_insert, if_pos rfl]⟩
        · refine ⟨u, ?_⟩
          rw [OrderedMap.get?_insert, if_neg, hu]
          rintro rfl
          rw [hu] at hnew
          cases hnew
    rw [ih, hinsert, List.mem_cons]
    tauto

/-- The table goes on giving variables nodes of their own. -/
theorem names (h : Pass step rs d a d' b ids) {start : Arena α} {p : Nat → NodeKind α → Prop}
    (hd : start.Names a d p) (hp : ∀ r ∈ rs, ∀ d v k, step r d v k → p v k) :
    start.Names b d' p := by
  induction h with
  | nil => exact hd
  | skip _ _ ih =>
    rw [List.forall_mem_cons] at hp
    exact ih hd hp.2
  | define hstep _ _ ih =>
    rw [List.forall_mem_cons] at hp
    exact ih (hd.push (hp.1 _ _ _ hstep) _) hp.2

/-- The new nodes lie behind those of the arena, and no node is added twice. -/
theorem nodup (h : Pass step rs d a d' b ids) : (∀ id ∈ ids, a.size ≤ id) ∧ ids.Nodup := by
  induction h with
  | nil => simp
  | skip _ _ ih => exact ih
  | @define r rs d d' a b ids v k label _ _ _ ih =>
    obtain ⟨hlater, hnd⟩ := ih
    rw [Arena.size_push] at hlater
    refine ⟨List.forall_mem_cons.2 ⟨Nat.le_refl _, fun id hid => ?_⟩, List.nodup_cons.2 ⟨?_, hnd⟩⟩
    · exact Nat.le_of_succ_le (hlater id hid)
    · exact fun hid => Nat.not_succ_le_self _ (hlater _ hid)

/-- Where it does not depend on the table which variable a record defines, the new nodes are those
of the defined variables, in the order of the records. -/
theorem map_get?_filterMap (h : Pass step rs d a d' b ids) {g : ρ → Option Nat}
    (hg : ∀ r ∈ rs, ∀ d v, (∃ k, step r d v k) ↔ g r = some v) :
    (rs.filterMap g).map d'.get? = ids.map some := by
  induction h with
  | nil => rfl
  | @skip r rs d d' a b ids hskip _ ih =>
    rw [List.forall_mem_cons] at hg
    have hnone : g r = none := by
      rw [Option.eq_none_iff_forall_ne_some]
      intro v hv
      obtain ⟨k, hstep⟩ := (hg.1 d v).2 hv
      exact hskip v k hstep
    rw [List.filterMap_cons_none hnone, ih hg.2]
  | @define r rs d d' a b ids v k label hstep _ hrest ih =>
    rw [List.forall_mem_cons] at hg
    have hnode : d'.get? v = some a.size :=
      hrest.keeps (by rw [OrderedMap.get?_insert, if_pos rfl])
    rw [List.filterMap_cons_some ((hg.1 d v).1 ⟨k, hstep⟩), List.map_cons, hnode, ih hg.2,
      List.map_cons]

/-- What a pass did at one of its records: the records before it gave some table, with which the
record defines nothing, or else defined its variable. -/
theorem at_record {rs₁ rs₂ : List ρ} {r : ρ} (h : Pass step (rs₁ ++ r :: rs₂) d a d' b ids) :
    ∃ e c ids₁, Pass step rs₁ d a e c ids₁ ∧ c.GrowsTo b ∧
      (∀ v id, e.get? v = some id → d'.get? v = some id) ∧
      ((∀ v k, ¬step r e v k) ∨
        ∃ v k id n, step r e v k ∧ d'.get? v = some id ∧ b.get? id = some n ∧ n.kind = k) := by
  induction rs₁ generalizing d a ids with
  | nil =>
    refine ⟨d, a, [], .nil d a, h.grows, fun v id hv => h.keeps hv, ?_⟩
    rw [List.nil_append] at h
    cases h with
    | skip hskip _ => exact .inl hskip
    | @define _ _ _ _ _ _ _ v k label hstep _ hrest =>
      refine .inr ⟨v, k, a.size, { kind := k, label }, hstep, hrest.keeps ?_, ?_, rfl⟩
      · rw [OrderedMap.get?_insert, if_pos rfl]
      · rw [hrest.grows.get? a.size (by rw [Arena.size_push]; omega), Arena.get?_push, if_pos rfl]
  | cons r' rs₁ ih =>
    rw [List.cons_append] at h
    cases h with
    | skip hskip hrest =>
      obtain ⟨e, c, ids₁, hpass, hdid⟩ := ih hrest
      exact ⟨e, c, ids₁, .skip hskip hpass, hdid⟩
    | define hstep hnew hrest =>
      obtain ⟨e, c, ids₁, hpass, hdid⟩ := ih hrest
      exact ⟨e, c, a.size :: ids₁, .define hstep hnew hpass, hdid⟩

end Pass

namespace IpqFile

variable [Scalar α] {strict : Bool} {stem : String} {vars d d' : VarMap NodeId} {i : Nat}
  {a b : Arena α} {v : Nat} {k : NodeKind α}

/-! ## Inputs -/

omit [Scalar α] in
/-- The inputs are free nodes behind those of the arena, and further variables have inputs. -/
theorem names_of_inputLayer {vs : List Nat} {ids : List NodeId} {start : Arena α}
    (h : (inputLayer stem i vs vars).Yields a (ids, d') b)
    (hvars : start.Names a vars fun _ k => k = .plain) :
    start.Names b d' (fun _ k => k = .plain) ∧ a.GrowsTo b ∧ (∀ id ∈ ids, id < b.size) ∧
      ∀ v id, d'.get? v = some id → vars.get? v = some id ∨ id ∈ ids := by
  induction vs generalizing i vars a ids with
  | nil =>
    obtain ⟨heq, rfl⟩ := Edit.yields_pure.1 h
    cases heq
    exact ⟨hvars, .refl b, by simp, fun _ _ hv => .inl hv⟩
  | cons v vs ih =>
    obtain ⟨id, c, hpush, h⟩ := Edit.yields_bind.1 h
    obtain ⟨rfl, rfl⟩ := Edit.yields_push.1 hpush
    obtain ⟨⟨ids', vars'⟩, c, hrest, h⟩ := Edit.yields_bind.1 h
    obtain ⟨heq, rfl⟩ := Edit.yields_pure.1 h
    cases heq
    obtain ⟨hnames, hgrows, hlt, hmem⟩ :=
      ih hrest (hvars.push rfl (some (stem ++ "00_" ++ labelIndex i)))
    refine ⟨hnames, (Arena.growsTo_push _ _).trans hgrows, List.forall_mem_cons.2 ⟨?_, hlt⟩, ?_⟩
    · have hsize := hgrows.size
      rw [Arena.size_push] at hsize
      exact Nat.lt_of_succ_le hsize
    · intro u id hu
      rcases hmem u id hu with hu | hid
      · rw [OrderedMap.get?_insert] at hu
        split at hu
        · cases hu
          exact .inr (List.mem_cons_self ..)
        · exact .inl hu
      · exact .inr (List.mem_cons_of_mem _ hid)

/-! ## Equations -/

omit [Scalar α] in
/-- One addend of an equation is fresh where it stands among addends whose variables have nodes. -/
theorem freshAddends_eq_singleton_iff {e : IpqEquation α} {o : Nat × α} :
    freshAddends vars e = [o] ↔ ∃ l r, e.addends = l ++ o :: r ∧ vars.get? o.1 = none ∧
      ∀ a ∈ l ++ r, ∃ id, vars.get? a.1 = some id := by
  have hold : ∀ as : List (Nat × α), (∀ a ∈ as, ∃ id, vars.get? a.1 = some id) ↔
      ∀ a ∈ as, ¬(!vars.contains a.1) = true := by
    intro as
    refine forall₂_congr fun a _ => ?_
    rw [← VarMap.contains_iff_exists]
    simp
  have hnew : (!vars.contains o.1) = true ↔ vars.get? o.1 = none := by
    simp [OrderedMap.contains]
  rw [freshAddends, List.filter_eq_cons_iff]
  simp only [hold, List.forall_mem_append, List.filter_eq_nil_iff, hnew]
  constructor
  · rintro ⟨l, r, haddends, hl, hv, hr⟩
    exact ⟨l, r, haddends, hv, hl, hr⟩
  · rintro ⟨l, r, haddends, hv, hl, hr⟩
    exact ⟨l, r, haddends, hl, hv, hr⟩

/-- An equation with one fresh addend defines its variable. -/
def AffineStep (vars : VarMap NodeId) (e : IpqEquation α) (v : Nat) (k : NodeKind α) : Prop :=
  e.comparator = .eq ∧ ∃ c, (c == 0) = false ∧ freshAddends vars e = [(v, c)] ∧
    k = definition vars e v c

/-- What is asked of an equation: in strict mode it is an equality, and an equality does not define
its variable with the coefficient zero. -/
structure Checked (strict : Bool) (vars : VarMap NodeId) (e : IpqEquation α) : Prop where
  equality : strict = true → e.comparator = .eq
  coefficient : e.comparator = .eq → ∀ v c, freshAddends vars e = [(v, c)] → (c == 0) = false

theorem AffineStep.get?_eq_none {e : IpqEquation α} (h : AffineStep vars e v k) :
    vars.get? v = none := by
  obtain ⟨-, c, -, hfresh, -⟩ := h
  obtain ⟨l, r, -, hv, -⟩ := freshAddends_eq_singleton_iff.1 hfresh
  exact hv

/-- What a pass does at an equation: it skips the equation, or adds the node that it defines. -/
theorem affineLayer_cons {e : IpqEquation α} {es : List (IpqEquation α)} {ids : List NodeId}
    (h : (affineLayer strict stem vars i (e :: es) d).Yields a (d', ids) b) :
    Checked strict vars e ∧
      ((∀ v k, ¬AffineStep vars e v k) ∧
          (affineLayer strict stem vars (i + 1) es d).Yields a (d', ids) b ∨
        ∃ v k label rest, AffineStep vars e v k ∧ d.get? v = none ∧ ids = a.size :: rest ∧
          (affineLayer strict stem vars (i + 1) es (d.insert v a.size)).Yields
            (a.push { kind := k, label }) (d', rest) b) := by
  unfold affineLayer at h
  by_cases hcomparator : e.comparator = .eq
  · rw [if_neg (not_not.2 hcomparator)] at h
    split at h
    · rename_i v c hfresh
      split at h
      · exact absurd h Edit.not_yields_throw
      · split at h
        · exact absurd h Edit.not_yields_throw
        · rename_i hzero
          split at h
          · exact absurd h Edit.not_yields_throw
          · rename_i hnew
            obtain ⟨id, m, hpush, h⟩ := Edit.yields_bind.1 h
            obtain ⟨rfl, rfl⟩ := Edit.yields_push.1 hpush
            obtain ⟨⟨defined, rest⟩, m, hrest, h⟩ := Edit.yields_bind.1 h
            obtain ⟨heq, rfl⟩ := Edit.yields_pure.1 h
            cases heq
            have hc : (c == 0) = false := by simpa using hzero
            refine ⟨⟨fun _ => hcomparator, ?_⟩, .inr ⟨v, definition vars e v c, _, rest,
              ⟨hcomparator, c, hc, hfresh, rfl⟩, ?_, rfl, hrest⟩⟩
            · rintro - v' c' hfresh'
              rw [hfresh] at hfresh'
              cases hfresh'
              exact hc
            · simpa [OrderedMap.contains] using hnew
    · rename_i hfresh
      refine ⟨⟨fun _ => hcomparator, ?_⟩, .inl ⟨?_, h⟩⟩
      · rintro - v c hone
        exact absurd hone (hfresh v c)
      · rintro v k ⟨-, c, -, hone, -⟩
        exact hfresh v c hone
  · rw [if_pos hcomparator] at h
    cases hstrict : strict with
    | true =>
      rw [hstrict, if_pos rfl] at h
      exact absurd h Edit.not_yields_throw
    | false =>
      rw [hstrict, if_neg Bool.false_ne_true] at h
      refine ⟨⟨fun hfalse => absurd hfalse Bool.false_ne_true, fun heq => absurd heq hcomparator⟩,
        .inl ⟨?_, h⟩⟩
      rintro v k ⟨heq, -⟩
      exact hcomparator heq

theorem pass_of_affineLayer {es : List (IpqEquation α)} {ids : List NodeId}
    (h : (affineLayer strict stem vars i es d).Yields a (d', ids) b) :
    Pass (fun e _ => AffineStep vars e) es d a d' b ids := by
  induction es generalizing i d a ids with
  | nil =>
    obtain ⟨heq, rfl⟩ := Edit.yields_pure.1 h
    cases heq
    exact .nil d' b
  | cons e es ih =>
    obtain ⟨-, ⟨hskip, hrest⟩ | ⟨v, k, label, rest, hstep, hnew, rfl, hrest⟩⟩ := affineLayer_cons h
    · exact .skip hskip (ih hrest)
    · exact .define hstep hnew (ih hrest)

theorem checked_of_affineLayer {es : List (IpqEquation α)} {ids : List NodeId}
    (h : (affineLayer strict stem vars i es d).Yields a (d', ids) b) :
    ∀ e ∈ es, Checked strict vars e := by
  induction es generalizing i d a ids with
  | nil => simp
  | cons e es ih =>
    obtain ⟨he, hrest⟩ := affineLayer_cons h
    refine List.forall_mem_cons.2 ⟨he, ?_⟩
    rcases hrest with ⟨-, hrest⟩ | ⟨v, k, label, rest, -, -, -, hrest⟩
    · exact ih hrest
    · exact ih hrest

/-! ## Rectifiers -/

/-- A rectifier with a defined input and a fresh output defines its output. -/
def ReluStep (vars : VarMap NodeId) (r : IpqConstraint) (d : VarMap NodeId) (v : Nat)
    (k : NodeKind α) : Prop :=
  ∃ b input, r = .relu v b ∧ vars.get? b = some input ∧ vars.get? v = none ∧ d.get? v = none ∧
    k = .relu input false

omit [Scalar α] in
/-- The rectifiers of a pass are for variables that constraints define. -/
theorem names_of_reluPass {cs : List IpqConstraint} {ids : List NodeId}
    (h : Pass (ReluStep vars) cs OrderedMap.empty a d' b ids) :
    a.Names b d' fun v k => vars.get? v = none ∧ ∃ g input,
      .relu v g ∈ cs ∧ vars.get? g = some input ∧ k = .relu input false := by
  refine h.names (.empty a _) ?_
  rintro _ hr _ v k ⟨g, input, rfl, hg, hv, -, rfl⟩
  exact ⟨hv, g, input, hr, hg, rfl⟩

omit [Scalar α] in
/-- Going through the constraints is a pass; each new node comes with the node that it reads. -/
theorem pass_of_reluLayer {cs : List IpqConstraint} {relus : List (NodeId × NodeId)}
    (h : (reluLayer stem vars cs d).Yields a (d', relus) b) :
    Pass (ReluStep vars) cs d a d' b (relus.map Prod.snd) ∧
      ∀ r ∈ relus, ∃ n, b.get? r.2 = some n ∧ n.kind = .relu r.1 false := by
  induction cs generalizing d a relus with
  | nil =>
    obtain ⟨heq, rfl⟩ := Edit.yields_pure.1 h
    cases heq
    exact ⟨.nil d' b, by simp⟩
  | cons r cs ih =>
    have hpassed : (∀ v b, r ≠ .relu v b) → (reluLayer stem vars cs d).Yields a (d', relus) b →
        Pass (ReluStep vars) (r :: cs) d a d' b (relus.map Prod.snd) ∧
          ∀ r ∈ relus, ∃ n, b.get? r.2 = some n ∧ n.kind = .relu r.1 false := by
      intro hother h
      obtain ⟨hpass, hreads⟩ := ih h
      refine ⟨.skip ?_ hpass, hreads⟩
      rintro v k ⟨b, input, heq, -⟩
      exact hother v b heq
    cases r with
    | abs f g => exact hpassed (by simp) h
    | max f inputs => exact hpassed (by simp) h
    | relu f g =>
      rw [reluLayer] at h
      split at h
      · rename_i hinput
        obtain ⟨hpass, hreads⟩ := ih h
        refine ⟨.skip ?_ hpass, hreads⟩
        rintro v k ⟨b, input, heq, hb, -⟩
        cases heq
        rw [hinput] at hb
        cases hb
      · rename_i input hinput
        split at h
        · rename_i hold
          obtain ⟨hpass, hreads⟩ := ih h
          refine ⟨.skip ?_ hpass, hreads⟩
          rintro v k ⟨b, input, heq, -, hvars, hd, -⟩
          cases heq
          simp [OrderedMap.contains, hvars, hd] at hold
        · rename_i hnew
          simp only [OrderedMap.contains, Bool.or_eq_true, not_or, Bool.not_eq_true,
            Option.isSome_eq_false_iff, Option.isNone_iff_eq_none] at hnew
          obtain ⟨id, m, hpush, h⟩ := Edit.yields_bind.1 h
          obtain ⟨rfl, rfl⟩ := Edit.yields_push.1 hpush
          obtain ⟨⟨defined, rest⟩, m, hrest, h⟩ := Edit.yields_bind.1 h
          obtain ⟨heq, rfl⟩ := Edit.yields_pure.1 h
          cases heq
          obtain ⟨hpass, hreads⟩ := ih hrest
          have hnode : b.get? a.size =
              some { kind := .relu input false, label := some (stem ++ labelIndex d.size) } := by
            rw [hpass.grows.get? a.size (by rw [Arena.size_push]; omega), Arena.get?_push,
              if_pos rfl]
          exact ⟨.define ⟨g, input, rfl, hinput, hnew.1, hnew.2, rfl⟩ hnew.2 hpass,
            List.forall_mem_cons.2 ⟨⟨_, hnode, rfl⟩, hreads⟩⟩

end IpqFile

end PiecewiseNet
