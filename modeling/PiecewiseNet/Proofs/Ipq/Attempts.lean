import PiecewiseNet.Proofs.Ipq.Rounds

/-!
# Passes that may fail

A pass over the records of a query file may be refused at one of them. What it had defined by then
stays in the arena. Both kinds of passes, those over equations and those over constraints, take one
decision at each record, from what the pass has defined so far; what they define, whether they are
refused or not, can be read off these decisions.

## Main definitions

- `IpqFile.Verdict`, `IpqFile.affineVerdict`, `IpqFile.reluVerdict`: the decision at a record.
- `IpqFile.passOver`: a pass that follows such decisions.
- `IpqFile.Made`, `IpqFile.madeBy`: the definitions that a pass makes.

## Main statements

- `IpqFile.affineLayer_eq_passOver`, `IpqFile.reluLayer_eq_passOver`: both kinds are such passes.
- `IpqFile.made_of_run`: the nodes that a pass adds are those of its definitions.
- `IpqFile.nodup_madeBy`: a pass defines no variable twice, and no record defines two variables.
-/

namespace PiecewiseNet

namespace IpqFile

variable {α ρ : Type}

/-- A record of a query file. -/
inductive Record where
  | equation (number : Nat)
  | constraint (number : Nat)
deriving DecidableEq, Repr

/-- A definition that was made. -/
structure Made where
  /-- The record by which it was made. -/
  record : Record
  /-- The variable that it defines. -/
  defined : Nat
  /-- The node that was added for it. -/
  node : NodeId
deriving DecidableEq, Repr

/-- What a pass does at a record. -/
inductive Verdict (α : Type) where
  | skip
  | define (v : Nat) (kind : NodeKind α)
  | refuse (cause : FileError α)

/-- What a pass over the equations does at number `i`, if it has defined these variables. -/
def affineVerdict [Scalar α] (strict : Bool) (vars : VarMap NodeId) (i : Nat) (e : IpqEquation α)
    (defined : VarMap NodeId) : Verdict α :=
  if e.comparator ≠ .eq then
    if strict then .refuse (.inequality i) else .skip
  else
    match freshAddends vars e with
    | [(v, c)] =>
      if strict && !(c == -1) then .refuse (.wrongCoefficient i v c)
      else if c == 0 then .refuse (.degenerateEquation i v)
      else if defined.contains v then .refuse (.definedTwice v)
      else .define v (definition vars e v c)
    | _ => .skip

/-- What a pass over the constraints does, if it has defined these variables. -/
def reluVerdict (vars : VarMap NodeId) (_ : Nat) (c : IpqConstraint) (defined : VarMap NodeId) :
    Verdict α :=
  match c with
  | .relu f b =>
    match vars.get? b with
    | none => .skip
    | some input =>
      if vars.contains f || defined.contains f then .skip else .define f (.relu input false)
  | _ => .skip

/-- A pass over records, from number `i` on, that follows the decisions. -/
def passOver (verdict : Nat → ρ → VarMap NodeId → Verdict α) (stem : String) :
    Nat → List ρ → VarMap NodeId → Edit (FileError α) α (VarMap NodeId × List NodeId)
  | _, [], defined => pure (defined, [])
  | i, r :: rs, defined =>
    match verdict i r defined with
    | .skip => passOver verdict stem (i + 1) rs defined
    | .refuse cause => throw cause
    | .define v kind => do
      let id ← Edit.push { kind, label := some (stem ++ labelIndex defined.size) }
      let (defined, ids) ← passOver verdict stem (i + 1) rs (defined.insert v id)
      return (defined, id :: ids)

/-- The definitions that such a pass makes, up to the record that it is refused at if there is one.
The first of their nodes is `next`. -/
def madeBy (verdict : Nat → ρ → VarMap NodeId → Verdict α) (record : Nat → Record) :
    Nat → List ρ → VarMap NodeId → NodeId → List Made
  | _, [], _, _ => []
  | i, r :: rs, defined, next =>
    match verdict i r defined with
    | .skip => madeBy verdict record (i + 1) rs defined next
    | .refuse _ => []
    | .define v _ => ⟨record i, v, next⟩ ::
        madeBy verdict record (i + 1) rs (defined.insert v next) (next + 1)

/-! ## The two kinds of passes -/

theorem affineLayer_eq_passOver [Scalar α] (strict : Bool) (stem : String) (vars : VarMap NodeId)
    (i : Nat) (es : List (IpqEquation α)) (d : VarMap NodeId) :
    affineLayer strict stem vars i es d = passOver (affineVerdict strict vars) stem i es d := by
  induction es generalizing i d with
  | nil => rfl
  | cons e es ih =>
    unfold affineLayer
    rw [passOver, affineVerdict]
    by_cases hcomparator : e.comparator = .eq
    · simp only [hcomparator, ne_eq, not_true_eq_false, if_false]
      rcases freshAddends vars e with _ | ⟨⟨v, c⟩, _ | ⟨o, os⟩⟩
      · exact ih (i + 1) d
      · dsimp only
        by_cases hstrict : (strict && !(c == -1)) = true
        · simp only [hstrict, if_true]
        · by_cases hzero : (c == 0) = true
          · simp only [hstrict, hzero, if_true, if_false, Bool.false_eq_true]
          · by_cases htwice : d.contains v = true
            · simp only [hstrict, hzero, htwice, if_true, if_false, Bool.false_eq_true]
            · simp only [hstrict, hzero, htwice, if_false, Bool.false_eq_true, ih]
      · exact ih (i + 1) d
    · cases strict with
      | true => simp only [ne_eq, hcomparator, not_false_eq_true, if_true]
      | false =>
        simp only [ne_eq, hcomparator, not_false_eq_true, if_true, Bool.false_eq_true, if_false]
        exact ih (i + 1) d

/-- A pass over the constraints never fails, and remembers for each new node which one it reads. -/
theorem reluLayer_eq_passOver (stem : String) (vars : VarMap NodeId) (i : Nat)
    (cs : List IpqConstraint) (d : VarMap NodeId) (a : Arena α) :
    ∃ d' relus b, (reluLayer stem vars cs d).Yields a (d', relus) b ∧
      (passOver (reluVerdict vars) stem i cs d).Yields a (d', relus.map Prod.snd) b := by
  induction cs generalizing i d a with
  | nil => exact ⟨d, [], a, Edit.yields_pure.2 ⟨rfl, rfl⟩, Edit.yields_pure.2 ⟨rfl, rfl⟩⟩
  | cons c cs ih =>
    cases c with
    | abs f g => exact ih (i + 1) d a
    | max f inputs => exact ih (i + 1) d a
    | relu f g =>
      unfold reluLayer
      rw [passOver, reluVerdict]
      cases vars.get? g with
      | none => exact ih (i + 1) d a
      | some input =>
        dsimp only
        by_cases hold : (vars.contains f || d.contains f) = true
        · simp only [hold, if_true]
          exact ih (i + 1) d a
        · simp only [hold, if_false, Bool.false_eq_true]
          obtain ⟨d', relus, b, hrelu, hpass⟩ := ih (i + 1) (d.insert f a.size)
            (a.push { kind := .relu input false, label := some (stem ++ labelIndex d.size) })
          refine ⟨d', (input, a.size) :: relus, b, ?_, ?_⟩
          · exact Edit.yields_bind.2 ⟨_, _, Edit.yields_push.2 ⟨rfl, rfl⟩,
              Edit.yields_bind.2 ⟨_, _, hrelu, Edit.yields_pure.2 ⟨rfl, rfl⟩⟩⟩
          · exact Edit.yields_bind.2 ⟨_, _, Edit.yields_push.2 ⟨rfl, rfl⟩,
              Edit.yields_bind.2 ⟨_, _, hpass, Edit.yields_pure.2 ⟨rfl, rfl⟩⟩⟩

/-- An equation that a pass defines a variable by has no other fresh variable. -/
theorem affineStep_of_verdict [Scalar α] {strict : Bool} {vars d : VarMap NodeId} {i v : Nat}
    {e : IpqEquation α} {k : NodeKind α} (h : affineVerdict strict vars i e d = .define v k) :
    AffineStep vars e v k ∧ d.get? v = none := by
  unfold affineVerdict at h
  split at h
  · split at h <;> cases h
  · rename_i hcomparator
    split at h
    · rename_i u c hfresh
      split at h
      · cases h
      · split at h
        · cases h
        · rename_i hzero
          split at h
          · cases h
          · rename_i hnew
            cases h
            exact ⟨⟨not_not.1 hcomparator, c, by simpa using hzero, hfresh, rfl⟩,
              by simpa [OrderedMap.contains] using hnew⟩
    · cases h

/-- A constraint that a pass defines a variable by is a rectifier with a fresh output. -/
theorem reluStep_of_verdict {vars d : VarMap NodeId} {i v : Nat} {c : IpqConstraint}
    {k : NodeKind α} (h : reluVerdict vars i c d = .define v k) : ReluStep vars c d v k := by
  unfold reluVerdict at h
  split at h
  · rename_i f g
    split at h
    · cases h
    · rename_i input hinput
      split at h
      · cases h
      · rename_i hnew
        cases h
        simp only [OrderedMap.contains, Bool.or_eq_true, not_or, Bool.not_eq_true,
          Option.isSome_eq_false_iff, Option.isNone_iff_eq_none] at hnew
        exact ⟨g, input, rfl, hinput, hnew.1, hnew.2, rfl⟩
  · cases h

/-! ## What passes make -/

section

variable {verdict : Nat → ρ → VarMap NodeId → Verdict α} {record : Nat → Record} {i : Nat}
  {rs : List ρ} {d : VarMap NodeId} {next : NodeId} {m : Made}

/-- The nodes of the definitions follow each other. -/
theorem map_node_madeBy (verdict : Nat → ρ → VarMap NodeId → Verdict α) (record : Nat → Record)
    (i : Nat) (rs : List ρ) (d : VarMap NodeId) (next : NodeId) :
    (madeBy verdict record i rs d next).map Made.node =
      List.range' next (madeBy verdict record i rs d next).length := by
  induction rs generalizing i d next with
  | nil => rfl
  | cons r rs ih =>
    rw [madeBy]
    split
    · exact ih (i + 1) d next
    · rfl
    · rw [List.map_cons, List.length_cons, List.range'_succ, ih]

/-- A definition is made by a record that says so. -/
theorem of_mem_madeBy (hm : m ∈ madeBy verdict record i rs d next) :
    ∃ j r e k, m.record = record (i + j) ∧ rs[j]? = some r ∧
      verdict (i + j) r e = .define m.defined k := by
  induction rs generalizing i d next with
  | nil => cases hm
  | cons r rs ih =>
    -- A later record has its number from the number of the one behind this.
    have hlater : ∀ {e n}, m ∈ madeBy verdict record (i + 1) rs e n →
        ∃ j r' e k, m.record = record (i + j) ∧ (r :: rs)[j]? = some r' ∧
          verdict (i + j) r' e = .define m.defined k := by
      intro e n hm
      obtain ⟨j, r', e', k, hrecord, hr, hk⟩ := ih hm
      rw [Nat.add_assoc, Nat.add_comm 1] at hrecord hk
      exact ⟨j + 1, r', e', k, hrecord, hr, hk⟩
    rw [madeBy] at hm
    split at hm
    · exact hlater hm
    · cases hm
    · rename_i v k hverdict
      rcases List.mem_cons.1 hm with rfl | hm
      · exact ⟨0, r, d, k, rfl, rfl, hverdict⟩
      · exact hlater hm

/-- Where records define fresh variables only, a pass defines no variable twice, and no record
defines two variables. -/
theorem nodup_madeBy (i : Nat) (rs : List ρ) (d : VarMap NodeId) (next : NodeId)
    (hnew : ∀ i r d v k, verdict i r d = .define v k → d.get? v = none)
    (hinj : ∀ i j, record i = record j → i = j) :
    ((madeBy verdict record i rs d next).map Made.record).Nodup ∧
      ((madeBy verdict record i rs d next).map Made.defined).Nodup ∧
      ∀ m ∈ madeBy verdict record i rs d next, d.get? m.defined = none := by
  induction rs generalizing i d next with
  | nil => simp [madeBy]
  | cons r rs ih =>
    rw [madeBy]
    split
    · exact ih _ _ _
    · simp
    · rename_i v k hverdict
      obtain ⟨hrecords, hdefined, hfresh⟩ := ih (i + 1) (d.insert v next) (next + 1)
      have hnone := hnew i r d v k hverdict
      -- What is defined later is another variable, by a record with a greater number.
      have hlater : ∀ m ∈ madeBy verdict record (i + 1) rs (d.insert v next) (next + 1),
          m.record ≠ record i ∧ m.defined ≠ v ∧ d.get? m.defined = none := by
        intro m hm
        have hget := hfresh m hm
        rw [OrderedMap.get?_insert] at hget
        split at hget
        · cases hget
        · rename_i hne
          obtain ⟨j, -, -, -, hrecord, -⟩ := of_mem_madeBy hm
          refine ⟨fun heq => ?_, hne, hget⟩
          have := hinj _ _ (hrecord.symm.trans heq)
          omega
      simp only [List.map_cons, List.nodup_cons, List.mem_map, List.forall_mem_cons]
      refine ⟨⟨?_, hrecords⟩, ⟨?_, hdefined⟩, hnone, fun m hm => (hlater m hm).2.2⟩
      · rintro ⟨m, hm, heq⟩
        exact (hlater m hm).1 heq
      · rintro ⟨m, hm, heq⟩
        exact (hlater m hm).2.1 heq

/-- A definition is made before those that follow it, and stays where one of them is refused. -/
theorem run_defining {ε β : Type} (n : Node α) (f : NodeId → Edit ε α (β × List NodeId))
    (a : Arena α) :
    ExceptT.run (do
        let id ← Edit.push n
        let (d, ids) ← f id
        return (d, id :: ids) : Edit ε α (β × List NodeId)) a =
      (((f a.size).run (a.push n)).1.map fun p => (p.1, a.size :: p.2),
        ((f a.size).run (a.push n)).2) := by
  have hpush : (Edit.push n : Edit ε α NodeId).run a = (.ok a.size, a.push n) := rfl
  rw [run_bind, hpush]
  dsimp only
  rw [run_bind]
  rcases (f a.size).run (a.push n) with ⟨_ | _, b⟩ <;> rfl

/-- A pass adds the nodes of its definitions and changes no other, whether it is refused or not. If
it is not, its table has these definitions on top of the earlier ones. -/
theorem made_of_run (record : Nat → Record)
    (hnew : ∀ i r d v k, verdict i r d = .define v k → d.get? v = none)
    {stem : String} {a b : Arena α} {o : Except (FileError α) (VarMap NodeId × List NodeId)}
    (h : (passOver verdict stem i rs d).run a = (o, b)) :
    a.GrowsTo b ∧ b.size = a.size + (madeBy verdict record i rs d a.size).length ∧
      (∀ m ∈ madeBy verdict record i rs d a.size, ∃ j r e n, m.record = record (i + j) ∧
        rs[j]? = some r ∧ b.get? m.node = some n ∧
        verdict (i + j) r e = .define m.defined n.kind) ∧
      ∀ d' ids, o = .ok (d', ids) →
        ids = (madeBy verdict record i rs d a.size).map Made.node ∧
          ∀ v id, d'.get? v = some id ↔ d.get? v = some id ∨
            ∃ m ∈ madeBy verdict record i rs d a.size, m.defined = v ∧ m.node = id := by
  induction rs generalizing i d a o with
  | nil =>
    cases h
    refine ⟨.refl b, rfl, by simp [madeBy], ?_⟩
    intro d' ids heq
    cases heq
    simp [madeBy]
  | cons r rs ih =>
    rw [passOver] at h
    rw [madeBy]
    cases hverdict : verdict i r d with
    | skip =>
      simp only [hverdict] at h
      obtain ⟨hgrows, hsize, hmade, hok⟩ := ih h
      refine ⟨hgrows, hsize, fun m hm => ?_, hok⟩
      obtain ⟨j, r', e, n, hrecord, hr, hn, hk⟩ := hmade m hm
      rw [Nat.add_assoc, Nat.add_comm 1] at hrecord hk
      exact ⟨j + 1, r', e, n, hrecord, hr, hn, hk⟩
    | refuse cause =>
      simp only [hverdict] at h
      cases h
      exact ⟨.refl b, rfl, by simp, by simp⟩
    | define v k =>
      simp only [hverdict] at h
      dsimp only
      rw [run_defining] at h
      generalize hrest : (passOver verdict stem (i + 1) rs (d.insert v a.size)).run
        (a.push { kind := k, label := some (stem ++ labelIndex d.size) }) = p at h
      obtain ⟨o', c⟩ := p
      obtain ⟨rfl, rfl⟩ := Prod.mk.inj h
      obtain ⟨hgrows, hsize, hmade, hok⟩ := ih hrest
      rw [Arena.size_push] at hsize hmade hok
      have hnode := hgrows.get?_eq_some ((Arena.get?_push a _ a.size).trans (if_pos rfl))
      refine ⟨(Arena.growsTo_push a _).trans hgrows, ?_, ?_, ?_⟩
      · rw [hsize, List.length_cons]
        omega
      · refine List.forall_mem_cons.2 ⟨⟨0, r, d, _, rfl, rfl, hnode, hverdict⟩, fun m hm => ?_⟩
        obtain ⟨j, r', e, n, hrecord, hr, hn, hk⟩ := hmade m hm
        rw [Nat.add_assoc, Nat.add_comm 1] at hrecord hk
        exact ⟨j + 1, r', e, n, hrecord, hr, hn, hk⟩
      · intro d' ids heq
        cases o' with
        | error cause => cases heq
        | ok x =>
          obtain ⟨d'', rest⟩ := x
          cases heq
          obtain ⟨rfl, hentries⟩ := hok _ _ rfl
          refine ⟨by rw [List.map_cons], fun u id => ?_⟩
          have hnone := hnew i r d v k hverdict
          rw [hentries, OrderedMap.get?_insert]
          simp only [List.mem_cons, exists_eq_or_imp]
          by_cases hu : u = v
          · subst hu
            simp [hnone]
          · simp [hu, Ne.symm hu]

end

end IpqFile

end PiecewiseNet
