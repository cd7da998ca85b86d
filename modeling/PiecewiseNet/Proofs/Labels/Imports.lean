import PiecewiseNet.Ipq.Reconstruction
import PiecewiseNet.Nnet.Basic
import PiecewiseNet.Proofs.FailedEdits
import PiecewiseNet.Proofs.Labels.Naming
import PiecewiseNet.Proofs.Maps

/-!
# Labels in a session

Every node that an import adds has a label, and no two nodes of a session that were imported have
the same one: whether the imports succeed or fail, whichever files they read, and in whatever order
the two formats come. Within an import the names are used up in ascending order of layers and
positions; between imports the prefixes differ, since an import uses up its prefix before it adds
its first node.

## Main definitions

- `Arena.labels`: the labels of all nodes.
- `Edit.Names`: an edit adds nodes with distinct names of some kind, and changes no label.
- `Import`, `Session.importAll`: imports one after the other.

## Main statements

- `Edit.Names.bind`: edits whose names are of different kinds.
- `NnetFile.names_buildWith`, `IpqFile.names_rebuildWith`: the nodes of one import.
- `Session.importAll_labels`: the labels of a session.
-/

namespace PiecewiseNet

variable {α : Type}

/-- The labels of all nodes, in the order of the nodes. -/
def Arena.labels (a : Arena α) : List (Option String) :=
  a.nodes.toList.map Node.label

theorem Arena.labels_push (a : Arena α) (n : Node α) :
    (a.push n).labels = a.labels ++ [n.label] := by
  simp [labels, push]

/-- Other bounds leave the labels as they are. -/
theorem Arena.labels_set {a : Arena α} {id : NodeId} {n : Node α} (hn : a.get? id = some n)
    (m : Node α) (hlabel : m.label = n.label) : (a.set id m).labels = a.labels := by
  refine List.ext_getElem? fun i => ?_
  have hget : ∀ b : Arena α, b.labels[i]? = (b.get? i).map Node.label := fun b => by
    rw [labels, List.getElem?_map, Array.getElem?_toList, get?]
  rw [hget, hget, get?_set]
  split
  · rename_i h
    rw [← h.1, hn, Option.map_some, Option.map_some, hlabel]
  · rfl

namespace Edit

variable {ε δ β γ : Type} {stem : Stem} {p q : NodeName → Prop}

/-- However it ends, the edit adds nodes whose labels are distinct names of the given kind behind
the prefix, and changes no other label. -/
def Names (stem : Stem) (p : NodeName → Prop) (e : Edit ε α β) : Prop :=
  ∀ a : Arena α, ∃ names : List NodeName, names.Nodup ∧ (∀ x ∈ names, p x) ∧
    (e.run a).2.labels = a.labels ++ names.map fun x => some (stem.text ++ x.text)

/-! ## Rules -/

/-- An edit that changes no label adds no names. -/
theorem Names.of_labels_eq {e : Edit ε α β} (h : ∀ a, (e.run a).2.labels = a.labels) :
    e.Names stem p :=
  fun a => ⟨[], List.nodup_nil, List.forall_mem_nil _, by rw [h, List.map_nil, List.append_nil]⟩

theorem names_pure (x : β) : (pure x : Edit ε α β).Names stem p :=
  .of_labels_eq fun _ => rfl

theorem names_throw (err : ε) : (throw err : Edit ε α β).Names stem p :=
  .of_labels_eq fun _ => rfl

theorem names_reading (f : Arena α → Except ε β) : (reading f).Names stem p :=
  .of_labels_eq fun _ => rfl

theorem Names.mono {e : Edit ε α β} (h : e.Names stem p) (himp : ∀ x, p x → q x) :
    e.Names stem q := by
  intro a
  obtain ⟨names, hnodup, hp, hlabels⟩ := h a
  exact ⟨names, hnodup, fun x hx => himp x (hp x hx), hlabels⟩

/-- Telling a failure in other words changes no label. -/
theorem Names.adapt {f : ε → δ} {e : Edit ε α β} (h : e.Names stem p) :
    Names stem p (ExceptT.adapt f e : Edit δ α β) :=
  h

/-- One edit after the other adds the names of both, if it is not possible that they agree. -/
theorem Names.bind {e : Edit ε α β} {f : β → Edit ε α γ} (he : e.Names stem p)
    (hf : ∀ x, (f x).Names stem q) (hdisjoint : ∀ x, p x → ¬q x) :
    (e >>= f).Names stem fun x => p x ∨ q x := by
  intro a
  obtain ⟨names, hnodup, hp, hlabels⟩ := he a
  rw [run_bind]
  split
  · rename_i x b hrun
    rw [hrun] at hlabels
    obtain ⟨names', hnodup', hq, hlabels'⟩ := hf x b
    refine ⟨names ++ names', ?_, ?_, ?_⟩
    · refine List.nodup_append.2 ⟨hnodup, hnodup', ?_⟩
      rintro x hx _ hx' rfl
      exact hdisjoint x (hp x hx) (hq x hx')
    · rw [List.forall_mem_append]
      exact ⟨fun x hx => .inl (hp x hx), fun x hx => .inr (hq x hx)⟩
    · rw [hlabels', hlabels, List.map_append, List.append_assoc]
  · rename_i err b hrun
    rw [hrun] at hlabels
    exact ⟨names, hnodup, fun x hx => .inl (hp x hx), hlabels⟩

/-- What is only computed adds no names. -/
theorem Names.bind_left {e : Edit ε α β} {f : β → Edit ε α γ} (he : e.Names stem p)
    (hf : ∀ x, (f x).Names stem fun _ => False) : (e >>= f).Names stem p :=
  (he.bind hf fun _ _ => not_false).mono fun _ hx => hx.resolve_right not_false

theorem Names.bind_right {e : Edit ε α β} {f : β → Edit ε α γ}
    (he : e.Names stem fun _ => False) (hf : ∀ x, (f x).Names stem q) : (e >>= f).Names stem q :=
  (he.bind hf fun _ => False.elim).mono fun _ hx => hx.resolve_left not_false

/-- A node is added under its name. -/
theorem names_push {n : Node α} {x : NodeName} (h : n.label = some (stem.text ++ x.text))
    (hx : p x) : (push n : Edit ε α NodeId).Names stem p :=
  fun a => ⟨[x], List.nodup_singleton x, List.forall_mem_singleton.2 hx,
    (Arena.labels_push a n).trans (by rw [h]; rfl)⟩

/-- Narrowing changes no label, whether it succeeds or fails. -/
theorem names_limit [Scalar α] (id : NodeId) (lower upper : Option α) :
    (limit id lower upper).Names stem p := by
  refine .of_labels_eq fun a => ?_
  cases hrun : (limit id lower upper).run a with
  | mk r b =>
    cases r with
    | error err =>
      obtain ⟨rfl, -⟩ := fails_limit.1 hrun
      rfl
    | ok u =>
      obtain ⟨n, hn, -, rfl⟩ := yields_limit.1 hrun
      exact Arena.labels_set hn _ rfl

end Edit

/-! ## Weight files -/

/-- The names of a layer from a position on. -/
def NodeName.From (index n : Nat) (x : NodeName) : Prop :=
  x.layer = index ∧ n ≤ x.position

/-- A node at the first of some positions, and those behind it. -/
theorem NodeName.From.of_succ {index n : Nat} {x : NodeName}
    (h : (x.layer = index ∧ x.position = n) ∨ x.From index (n + 1)) : x.From index n := by
  rcases h with ⟨hlayer, hposition⟩ | ⟨hlayer, hposition⟩
  · exact ⟨hlayer, hposition.ge⟩
  · exact ⟨hlayer, Nat.le_of_succ_le hposition⟩

theorem NodeName.not_from_succ {index n : Nat} {x : NodeName}
    (h : x.layer = index ∧ x.position = n) : ¬x.From index (n + 1) :=
  fun hfrom => Nat.lt_irrefl n (h.2 ▸ hfrom.2)

theorem text_input (stem : String) (i : Nat) :
    stem ++ "00_" ++ labelIndex i = stem ++ NodeName.text ⟨0, i, .lone⟩ := by
  have hzero : labelIndex 0 = "00" := by decide
  simp [NodeName.text, NodePart.mark, NodePart.ending, hzero, ← String.append_assoc]

namespace NnetFile

variable [Scalar α] {stem : Stem}

theorem names_buildInputs (f : NnetFile α) (count i : Nat) :
    (f.buildInputs stem.text count i).Names stem (NodeName.From 0 i) := by
  induction count generalizing i with
  | zero => exact Edit.names_pure []
  | succ count ih =>
    unfold buildInputs
    split
    · exact Edit.names_throw _
    · have hpush := Edit.names_push (ε := GraphError α) (x := ⟨0, i, .lone⟩)
        (p := fun x => x.layer = 0 ∧ x.position = i)
        (n := ({ kind := .plain, label := some (stem.text ++ "00_" ++ labelIndex i) } : Node α))
        (congrArg some (text_input _ i)) ⟨rfl, rfl⟩
      refine (hpush.bind (fun id => ?_) fun _ => NodeName.not_from_succ).mono
        fun _ => NodeName.From.of_succ
      exact (Edit.names_limit id _ _).bind_right fun _ =>
        (ih (i + 1)).bind_left fun _ => Edit.names_pure _

theorem names_buildNeuron (isLast : Bool) (index n : Nat) (terms : Terms α) (bias : α) :
    (buildNeuron isLast (stem.text ++ labelIndex index ++ "_" ++ labelIndex n) terms bias).Names
      stem fun x => x.layer = index ∧ x.position = n := by
  have hpush : ∀ (part : NodePart) (m : Node α),
      m.label = some (stem.text ++ labelIndex index ++ "_" ++ labelIndex n ++ part.ending) →
      part.mark = "_" →
      (Edit.push (ε := GraphError α) m).Names stem (· = ⟨index, n, part⟩) := by
    intro part m hlabel hmark
    refine Edit.names_push (hlabel.trans ?_) rfl
    simp only [NodeName.text, hmark, String.append_assoc]
  unfold buildNeuron
  split
  · refine ((hpush .lone _ ?_ rfl).bind_left fun _ => Edit.names_pure _).mono ?_
    · rw [NodePart.ending, String.append_empty]
    · rintro x rfl
      exact ⟨rfl, rfl⟩
  · refine ((hpush .before _ rfl rfl).bind (fun _ =>
      (hpush .behind _ rfl rfl).bind_left fun _ => Edit.names_pure _) ?_).mono ?_
    · rintro x rfl
      simp
    · rintro x (rfl | rfl) <;> exact ⟨rfl, rfl⟩

theorem names_buildLayer (isLast : Bool) (index n : Nat) (previous : List NodeId)
    (rows : List (List α × α)) :
    (buildLayer isLast (stem.text ++ labelIndex index ++ "_") previous n rows).Names stem
      (NodeName.From index n) := by
  induction rows generalizing n with
  | nil => exact Edit.names_pure []
  | cons row rows ih =>
    exact ((names_buildNeuron isLast index n _ row.2).bind
      (fun _ => (ih (n + 1)).bind_left fun _ => Edit.names_pure _)
      fun _ => NodeName.not_from_succ).mono fun _ => NodeName.From.of_succ

theorem names_buildLayers (last index : Nat) (previous : List NodeId)
    (layers : List (List (List α) × List α)) :
    (buildLayers last stem.text index previous layers).Names stem (index ≤ ·.layer) := by
  induction layers generalizing index previous with
  | nil => exact Edit.names_pure []
  | cons layer layers ih =>
    refine ((names_buildLayer _ index 0 previous _).bind
      (fun _ => (ih (index + 1) _).bind_left fun _ => Edit.names_pure _) ?_).mono ?_
    · exact fun x hx hnext => absurd hx.1 (Nat.ne_of_gt hnext)
    · rintro x (⟨hlayer, -⟩ | hnext)
      · exact hlayer.ge
      · exact Nat.le_of_succ_le hnext

theorem names_buildWith (f : NnetFile α) : (f.buildWith stem.text).Names stem fun _ => True := by
  unfold buildWith
  split
  · exact Edit.names_throw _
  · refine ((names_buildInputs f _ 0).bind (fun _ =>
      (names_buildLayers _ 1 _ _).bind_left fun _ => Edit.names_reading _) ?_).mono
      fun _ _ => trivial
    exact fun x hx hnext => absurd hx.1 (Nat.ne_of_gt hnext)

end NnetFile

/-! ## Query files -/

namespace IpqFile

variable [Scalar α] {stem : Stem}

omit [Scalar α] in
theorem names_inputLayer (i : Nat) (vs : List Nat) (vars : VarMap NodeId) :
    (inputLayer (α := α) stem.text i vs vars).Names stem (NodeName.From 0 i) := by
  induction vs generalizing i vars with
  | nil => exact Edit.names_pure _
  | cons v vs ih =>
    have hpush := Edit.names_push (ε := FileError α) (x := ⟨0, i, .lone⟩)
      (p := fun x => x.layer = 0 ∧ x.position = i)
      (n := ({ kind := .plain, label := some (stem.text ++ "00_" ++ labelIndex i) } : Node α))
      (congrArg some (text_input _ i)) ⟨rfl, rfl⟩
    exact (hpush.bind (fun _ => (ih (i + 1) _).bind_left fun _ => Edit.names_pure _)
      fun _ => NodeName.not_from_succ).mono fun _ => NodeName.From.of_succ

omit [Scalar α] in
/-- A variable that is new to a pass gets the next position in its layer. -/
theorem names_defining {index : Nat} {defined : VarMap NodeId} {v : Nat}
    (hnew : defined.contains v = false) (part : NodePart) (kind : NodeKind α)
    (hending : part.ending = "") {β : Type} {f : NodeId → Edit (FileError α) α β}
    (hf : ∀ id, (f id).Names stem (NodeName.From index (defined.insert v id).size)) :
    (Edit.push { kind, label := some (stem.text ++ labelIndex index ++ part.mark ++
      labelIndex defined.size) } >>= f).Names stem (NodeName.From index defined.size) := by
  have hpush : (Edit.push { kind, label := some (stem.text ++ labelIndex index ++ part.mark ++
      labelIndex defined.size) } : Edit (FileError α) α NodeId).Names stem
      fun x => x.layer = index ∧ x.position = defined.size := by
    refine Edit.names_push (x := ⟨index, defined.size, part⟩) ?_ ⟨rfl, rfl⟩
    simp only [NodeName.text, hending, String.append_assoc, String.append_empty]
  refine (hpush.bind (fun id => ?_) fun _ => NodeName.not_from_succ).mono
    fun _ => NodeName.From.of_succ
  rw [← OrderedMap.size_insert_of_not_contains hnew]
  exact hf id

theorem names_affineLayer (strict : Bool) (index i : Nat) (vars defined : VarMap NodeId)
    (es : List (IpqEquation α)) :
    (affineLayer strict (stem.text ++ labelIndex index ++ "_w") vars i es defined).Names stem
      (NodeName.From index defined.size) := by
  induction es generalizing i defined with
  | nil => exact Edit.names_pure _
  | cons e es ih =>
    unfold affineLayer
    split
    · split
      · exact Edit.names_throw _
      · exact ih (i + 1) defined
    · split
      · rename_i v c _
        split
        · exact Edit.names_throw _
        · split
          · exact Edit.names_throw _
          · split
            · exact Edit.names_throw _
            · rename_i hnew
              exact names_defining (by simpa using hnew) .sum _ rfl fun id =>
                (ih (i + 1) (defined.insert v id)).bind_left fun _ => Edit.names_pure _
      · exact ih (i + 1) defined

omit [Scalar α] in
theorem names_reluLayer (index : Nat) (vars defined : VarMap NodeId) (cs : List IpqConstraint) :
    (reluLayer (α := α) (stem.text ++ labelIndex index ++ "_r") vars cs defined).Names stem
      (NodeName.From index defined.size) := by
  induction cs generalizing defined with
  | nil => exact Edit.names_pure _
  | cons c cs ih =>
    cases c with
    | relu g b =>
      unfold reluLayer
      split
      · exact ih defined
      · split
        · exact ih defined
        · rename_i hnew
          rw [Bool.or_eq_true, not_or] at hnew
          exact names_defining (by simpa using hnew.2) .rectifier _ rfl fun id =>
            (ih (defined.insert g id)).bind_left fun _ => Edit.names_pure _
    | abs g b => exact ih defined
    | max g inputs => exact ih defined

theorem names_buildLayers (f : IpqFile α) (strict : Bool) (rounds index : Nat)
    (vars : VarMap NodeId) :
    (buildLayers f strict stem.text rounds index vars).Names stem (index ≤ ·.layer) := by
  have hlayer : ∀ {i : Nat} {x : NodeName}, x.From i 0 ∨ i + 1 ≤ x.layer → i ≤ x.layer := by
    rintro i x (⟨rfl, -⟩ | hnext)
    · exact Nat.le_refl _
    · exact Nat.le_of_succ_le hnext
  have hnext : ∀ {i : Nat} {x : NodeName}, x.From i 0 → ¬i + 1 ≤ x.layer :=
    fun hx hnext => absurd hx.1 (Nat.ne_of_gt hnext)
  induction rounds generalizing index vars with
  | zero => exact Edit.names_pure _
  | succ rounds ih =>
    unfold buildLayers
    refine ((names_affineLayer strict index 0 vars OrderedMap.empty f.equations).bind
      (fun r => ?_) fun _ => hnext).mono fun _ => hlayer
    dsimp only
    split
    · exact Edit.names_throw _
    · refine ((names_reluLayer (index + 1) _ OrderedMap.empty f.constraints).bind
        (fun r => ?_) fun _ => hnext).mono fun _ => hlayer
      split
      · exact Edit.names_pure _
      · exact (ih (index + 2) _).bind_left fun _ => Edit.names_pure _

theorem names_limitAll (f : IpqFile α) {p : NodeName → Prop} (vs : List (Nat × NodeId)) :
    (limitAll f vs).Names stem p := by
  induction vs with
  | nil => exact Edit.names_pure _
  | cons v vs ih =>
    exact Edit.Names.bind_right (Edit.Names.adapt (Edit.names_limit v.2 _ _)) fun _ => ih

theorem names_rebuildWith (f : IpqFile α) (strict : Bool) :
    (f.rebuildWith strict stem.text).Names stem fun _ => True := by
  unfold rebuildWith
  refine ((names_inputLayer 0 _ _).bind (q := (1 ≤ ·.layer)) (fun r => ?_) ?_).mono
    fun _ _ => trivial
  · refine (names_buildLayers f strict _ 1 _).bind_left fun passes => ?_
    dsimp only
    split
    · exact .of_labels_eq fun _ => rfl
    · split
      · exact Edit.names_throw _
      · split
        · exact Edit.names_throw _
        · exact (names_limitAll f _).bind_right fun _ =>
            (Edit.names_reading _).bind_right fun _ =>
              (Edit.Names.adapt (Edit.names_reading _)).bind_right fun _ => Edit.names_pure _
  · exact fun x hx hnext => absurd hx.1 (Nat.ne_of_gt hnext)

end IpqFile

/-! ## Sessions -/

/-- The import of a file into a session. -/
inductive Import (α : Type) where
  | nnet (file : NnetFile α)
  | ipq (file : IpqFile α) (strict : Bool)

variable [Scalar α]

/-- The session behind an import, whether it succeeds or fails. -/
def Import.run : Import α → Session α → Session α
  | nnet file, s => (file.build s).2
  | ipq file strict, s => (file.rebuild strict s).2

/-- The session behind imports that are made one after the other. -/
def Session.importAll (s : Session α) (imports : List (Import α)) : Session α :=
  imports.foldl (fun s i => i.run s) s

/-- The supply has not given out the prefix. -/
def NameSupply.Keeps (names : NameSupply) : Stem → Prop
  | .nnet n => names.nnetCount ≤ n
  | .ipq n => names.ipqCount ≤ n

/-- Between two sessions nodes were added, with distinct labels behind prefixes that were used
up. -/
structure Session.Labelled (s t : Session α) : Prop where
  keeps : ∀ stem, t.names.Keeps stem → s.names.Keeps stem
  labels : ∃ added : List (Stem × NodeName), added.Nodup ∧
    (∀ x ∈ added, s.names.Keeps x.1 ∧ ¬t.names.Keeps x.1) ∧
    t.arena.labels = s.arena.labels ++ added.map fun x => some (x.1.text ++ x.2.text)

namespace Session.Labelled

variable {s t u : Session α}

omit [Scalar α] in
theorem refl (s : Session α) : s.Labelled s :=
  ⟨fun _ h => h, [], List.nodup_nil, List.forall_mem_nil _, (List.append_nil _).symm⟩

omit [Scalar α] in
theorem trans (h : s.Labelled t) (h' : t.Labelled u) : s.Labelled u := by
  obtain ⟨added, hnodup, hadded, hlabels⟩ := h.labels
  obtain ⟨added', hnodup', hadded', hlabels'⟩ := h'.labels
  refine ⟨fun stem hstem => h.keeps stem (h'.keeps stem hstem), added ++ added', ?_, ?_, ?_⟩
  · refine List.nodup_append.2 ⟨hnodup, hnodup', ?_⟩
    rintro x hx _ hx' rfl
    exact (hadded x hx).2 (hadded' x hx').1
  · rw [List.forall_mem_append]
    exact ⟨fun x hx => ⟨(hadded x hx).1, fun hkeeps => (hadded x hx).2 (h'.keeps _ hkeeps)⟩,
      fun x hx => ⟨h.keeps _ (hadded' x hx).1, (hadded' x hx).2⟩⟩
  · rw [hlabels', hlabels, List.map_append, List.append_assoc]

omit [Scalar α] in
/-- An edit whose names stand behind a prefix that is used up. -/
theorem of_names {ε β : Type} {e : Edit ε α β} {stem : Stem} {p : NodeName → Prop}
    {names : NameSupply} (h : e.Names stem p) (hstem : s.names.Keeps stem)
    (hused : ¬names.Keeps stem) (hkeeps : ∀ stem, names.Keeps stem → s.names.Keeps stem) :
    s.Labelled ⟨(e.run s.arena).2, names⟩ := by
  obtain ⟨added, hnodup, -, hlabels⟩ := h s.arena
  refine ⟨hkeeps, added.map (stem, ·), ?_, ?_, ?_⟩
  · exact hnodup.map fun x y hxy => congrArg Prod.snd hxy
  · rintro _ hx
    obtain ⟨x, -, rfl⟩ := List.mem_map.1 hx
    exact ⟨hstem, hused⟩
  · rw [hlabels, List.map_map]
    rfl

end Session.Labelled

/-- An import adds nodes with labels of its own. -/
theorem Import.labelled_run (i : Import α) (s : Session α) : s.Labelled (i.run s) := by
  cases i with
  | nnet file =>
    have hnames : Edit.Names (.nnet s.names.nnetCount) (fun _ => True)
        (Edit.ofGraph (file.buildWith s.names.nnet.1)) := Edit.Names.adapt file.names_buildWith
    refine .of_names hnames (Nat.le_refl _) (Nat.not_succ_le_self _) ?_
    rintro (n | n) h
    · exact Nat.le_of_succ_le h
    · exact h
  | ipq file strict =>
    show s.Labelled (file.rebuild strict s).2
    unfold IpqFile.rebuild
    split
    · exact .refl s
    · have hnames : Edit.Names (.ipq s.names.ipqCount) (fun _ => True)
          (file.rebuildWith strict s.names.ipq.1) := file.names_rebuildWith strict
      refine .of_names hnames (Nat.le_refl _) (Nat.not_succ_le_self _) ?_
      rintro (n | n) h
      · exact h
      · exact Nat.le_of_succ_le h

theorem Session.labelled_importAll (s : Session α) (imports : List (Import α)) :
    s.Labelled (s.importAll imports) := by
  induction imports generalizing s with
  | nil => exact .refl s
  | cons i imports ih => exact (i.labelled_run s).trans (ih (i.run s))

/-- Imports of weight files and query files into a session, in any order and whether they succeed
or fail, leave the labels of its nodes as they are, and add nodes which all have labels, no two of
them the same. -/
theorem Session.importAll_labels (s : Session α) (imports : List (Import α)) :
    ∃ labels : List String, labels.Nodup ∧
      (s.importAll imports).arena.labels = s.arena.labels ++ labels.map some := by
  obtain ⟨added, hnodup, -, hlabels⟩ := (s.labelled_importAll imports).labels
  refine ⟨added.map fun x => x.1.text ++ x.2.text, ?_, ?_⟩
  · refine hnodup.map fun x y hxy => ?_
    obtain ⟨hstem, hname⟩ := Stem.append_text_inj hxy
    exact Prod.ext hstem hname
  · rw [hlabels, List.map_map]
    rfl

end PiecewiseNet
