import PiecewiseNet.Clip
import PiecewiseNet.Comparison
import PiecewiseNet.Proofs.FailedEdits
import PiecewiseNet.Proofs.QueryMembers

/-!
# Refusals

A computation fails because it refuses what it was given, or because a caller broke a promise. The
checks of networks and queries only refuse. So does an edit that names nothing but nodes of the
arena.

## Main definitions

- `Orderly`: a fallible computation does not find a promise broken.
- `Edit.Orderly`: an edit does not find a promise broken, and what holds if it succeeds.

## Main statements

- `Edit.Orderly.bind`, `Edit.Orderly.mono`: the rules for edits.
- `Edit.orderly_redirectAll`: letting nodes of the arena read others.
- `Network.orderly_new`, `Query.orderly_new`: a check refuses with a reason.
-/

namespace PiecewiseNet

variable {α β γ : Type}

/-- The computation succeeds, or fails with a reason that is not a broken promise. -/
def Orderly (r : Except (GraphError α) β) : Prop :=
  ∀ m, r ≠ .error (.misuse m)

namespace Orderly

@[simp] theorem ok (x : β) : Orderly (.ok x : Except (GraphError α) β) := by
  intro m h
  cases h

@[simp] theorem error_iff {e : GraphError α} :
    Orderly (.error e : Except (GraphError α) β) ↔ ∀ m, e ≠ .misuse m := by
  simp [Orderly]

/-- A failure that is passed on stays what it is. -/
theorem pass {r : Except (GraphError α) β} {e : GraphError α} (h : Orderly r)
    (hr : r = .error e) : Orderly (.error e : Except (GraphError α) γ) :=
  error_iff.2 fun m hm => h m (hm ▸ hr)

theorem bind {r : Except (GraphError α) β} {f : β → Except (GraphError α) γ} (hr : Orderly r)
    (hf : ∀ x, r = .ok x → Orderly (f x)) : Orderly (r >>= f) := by
  cases h : r with
  | error e => exact hr.pass h
  | ok x => exact hf x h

end Orderly

/-! ## Checks -/

namespace Network

variable {a : Arena α} {all earlier targets ids : List NodeId} {id : NodeId}

theorem orderly_checkChain {seen : List NodeId} {c : Chain} : Orderly (checkChain a seen c) := by
  induction c generalizing seen with
  | nil => exact .ok _
  | cons id c ih =>
    unfold checkChain
    split
    · simp
    · split
      · simp
      · exact ih

theorem orderly_checkLayer {layer neuron : Nat} {seen : List NodeId} {l : Layer} :
    Orderly (checkLayer a layer neuron seen l) := by
  induction l generalizing neuron seen with
  | nil => exact .ok _
  | cons c l ih =>
    unfold checkLayer
    split
    · simp
    · split
      · rename_i hc
        exact orderly_checkChain.pass hc
      · exact ih

theorem orderly_checkLayers {layer : Nat} {seen : List NodeId} {ls : List Layer} :
    Orderly (checkLayers a layer seen ls) := by
  induction ls generalizing layer seen with
  | nil => exact .ok _
  | cons l ls ih =>
    unfold checkLayers
    split
    · rename_i hl
      exact orderly_checkLayer.pass hl
    · exact ih

theorem orderly_checkTargets : Orderly (checkTargets a all earlier id targets) := by
  induction targets with
  | nil => exact .ok _
  | cons target targets ih =>
    unfold checkTargets
    split
    · exact ih
    · split <;> simp

theorem orderly_checkOrder : Orderly (checkOrder a all earlier ids) := by
  induction ids generalizing earlier with
  | nil => exact .ok _
  | cons id ids ih =>
    unfold checkOrder
    split
    · rename_i ht
      exact orderly_checkTargets.pass ht
    · exact ih

theorem orderly_checkIntegrity {net : Network} : Orderly (net.checkIntegrity a) := by
  unfold checkIntegrity
  split
  · simp
  · split
    · rename_i hl
      exact orderly_checkLayers.pass hl
    · exact orderly_checkOrder

/-- A network is built or refused. -/
theorem orderly_new {layers : List Layer} : Orderly (Network.new layers a) := by
  unfold Network.new
  dsimp only
  split
  · rename_i h
    exact orderly_checkIntegrity.pass h
  · exact .ok _

end Network

namespace Query

variable {a : Arena α} {q : Query α} {id : NodeId} {ids : List NodeId}

theorem orderly_requireMembers {members : List NodeId} {role : Role} :
    Orderly (requireMembers (α := α) members role ids) := by
  induction ids with
  | nil => exact .ok _
  | cons id ids ih =>
    unfold requireMembers
    split
    · exact ih
    · simp

theorem orderly_pushEquation {e : Equation α} : Orderly (q.pushEquation e) := by
  by_cases h : e.nodes ⊆ q.nodes
  · rw [pushEquation_eq_ok_iff.2 ⟨h, rfl⟩]
    exact .ok _
  · obtain ⟨err, hr, hrun⟩ := run_addEquation_of_not_subset h
    rw [pushEquation, Change.applied, hrun]
    exact orderly_requireMembers.pass hr

theorem orderly_foldlM_pushEquation {es : List (Equation α)} :
    Orderly (es.foldlM pushEquation q) := by
  induction es generalizing q with
  | nil => exact .ok _
  | cons e es ih =>
    rw [List.foldlM_cons]
    exact orderly_pushEquation.bind fun q' _ => ih

/-- A query is built or refused. -/
theorem orderly_new {nodes inputs outputs : List NodeId} {es : List (Equation α)} :
    Orderly (Query.new nodes inputs outputs es) := by
  unfold Query.new
  split
  · rename_i h
    exact orderly_requireMembers.pass h
  · split
    · rename_i h
      exact orderly_requireMembers.pass h
    · rw [applied_forM_addEquation]
      exact orderly_foldlM_pushEquation

theorem orderly_requireInside {targets : List NodeId} : Orderly (q.requireInside a id targets) := by
  induction targets with
  | nil => exact .ok _
  | cons target targets ih =>
    unfold requireInside
    split
    · exact ih
    · simp

theorem orderly_checkNodes : Orderly (q.checkNodes a ids) := by
  induction ids with
  | nil => exact .ok _
  | cons id ids ih =>
    unfold checkNodes
    split
    · simp
    · split
      · rename_i h
        exact orderly_requireInside.pass h
      · exact ih

theorem orderly_checkIntegrity : Orderly (q.checkIntegrity a) :=
  orderly_checkNodes

end Query

theorem orderly_pickChains {l : Layer} {is : List Nat} : Orderly (pickChains (α := α) l is) := by
  induction is with
  | nil => exact .ok _
  | cons i is ih =>
    unfold pickChains
    split
    · simp
    · split
      · rename_i h
        exact ih.pass h
      · exact .ok _

theorem Network.orderly_truncateLayer {cut : Nat} {l : Layer} :
    Orderly (truncateLayer (α := α) cut l) := by
  induction l with
  | nil => exact .ok _
  | cons c l ih =>
    unfold truncateLayer
    split
    · simp
    · split
      · rename_i h
        exact ih.pass h
      · exact .ok _

theorem Network.orderly_truncateLast {cut : Nat} {ls : List Layer} :
    Orderly (truncateLast (α := α) cut ls) := by
  fun_induction truncateLast (α := α) cut ls with
  | case1 => exact .ok _
  | case2 l e h => exact orderly_truncateLayer.pass h
  | case3 => exact .ok _
  | case4 l m ls e h ih => exact ih.pass h
  | case5 => exact .ok _

/-! ## Edits -/

namespace Edit

/-- Run on arena `a`, the edit does not find a promise broken. If it succeeds, no node is lost, and
the result and what is left behind are related. -/
structure Orderly (e : Edit (GraphError α) α β) (a : Arena α) (Q : β → Arena α → Prop) : Prop where
  yields : ∀ x b, e.Yields a x b → a.size ≤ b.size ∧ Q x b
  fails : ∀ m b, ¬e.Fails a (.misuse m) b

variable {a : Arena α} {Q : β → Arena α → Prop} {P : γ → Arena α → Prop}

namespace Orderly

theorem pure {x : β} (h : Q x a) : (Pure.pure x : Edit (GraphError α) α β).Orderly a Q := by
  refine ⟨fun y b hy => ?_, fun m b => not_fails_pure⟩
  obtain ⟨rfl, rfl⟩ := yields_pure.1 hy
  exact ⟨Nat.le_refl _, h⟩

theorem throw {err : GraphError α} (h : ∀ m, err ≠ .misuse m) :
    (MonadExcept.throw err : Edit (GraphError α) α β).Orderly a Q :=
  ⟨fun _ _ hx => absurd hx not_yields_throw, fun m _ hm => h m (fails_throw.1 hm).1.symm⟩

/-- The second edit may rely on what the first one establishes. -/
theorem bind {e : Edit (GraphError α) α γ} {f : γ → Edit (GraphError α) α β} (he : e.Orderly a P)
    (hf : ∀ x b, a.size ≤ b.size → P x b → (f x).Orderly b Q) : (e >>= f).Orderly a Q := by
  constructor
  · intro y c hy
    obtain ⟨x, b, hx, hy⟩ := yields_bind.1 hy
    obtain ⟨hsize, hP⟩ := he.yields x b hx
    obtain ⟨hsize', hQ⟩ := (hf x b hsize hP).yields y c hy
    exact ⟨Nat.le_trans hsize hsize', hQ⟩
  · intro m c hm
    rcases fails_bind.1 hm with hm | ⟨x, b, hx, hm⟩
    · exact he.fails m c hm
    · obtain ⟨hsize, hP⟩ := he.yields x b hx
      exact (hf x b hsize hP).fails m c hm

theorem mono {Q' : β → Arena α → Prop} {e : Edit (GraphError α) α β} (h : e.Orderly a Q)
    (hQ : ∀ x b, a.size ≤ b.size → Q x b → Q' x b) : e.Orderly a Q' :=
  ⟨fun x b hx => ⟨(h.yields x b hx).1, hQ x b (h.yields x b hx).1 (h.yields x b hx).2⟩, h.fails⟩

/-- A success has come about by running the edit. -/
theorem of_run {e : Edit (GraphError α) α β} (h : e.Orderly a Q) :
    e.Orderly a fun x b => e.Yields a x b ∧ Q x b :=
  ⟨fun x b hx => ⟨(h.yields x b hx).1, hx, (h.yields x b hx).2⟩, h.fails⟩

/-- An edit that succeeds does not fail. -/
theorem of_yields {e : Edit (GraphError α) α β} {x : β} {b : Arena α} (h : e.Yields a x b)
    (hsize : a.size ≤ b.size) (hQ : Q x b) : e.Orderly a Q := by
  refine ⟨fun y c hy => ?_, fun m c => h.not_fails⟩
  obtain ⟨rfl, rfl⟩ := h.unique hy
  exact ⟨hsize, hQ⟩

theorem reading {f : Arena α → Except (GraphError α) β} (h : PiecewiseNet.Orderly (f a)) :
    (Edit.reading f).Orderly a fun x b => f a = .ok x ∧ b = a := by
  refine ⟨fun x b hx => ?_, fun m b hm => h m (fails_reading.1 hm).1⟩
  obtain ⟨hok, rfl⟩ := yields_reading.1 hx
  exact ⟨Nat.le_refl _, hok, rfl⟩

theorem ofExcept {r : Except (GraphError α) β} (h : PiecewiseNet.Orderly r) :
    (Edit.ofExcept r).Orderly a fun x b => r = .ok x ∧ b = a := by
  refine ⟨fun x b hx => ?_, fun m b hm => h m (fails_ofExcept.1 hm).1⟩
  obtain ⟨hok, rfl⟩ := yields_ofExcept.1 hx
  exact ⟨Nat.le_refl _, hok, rfl⟩

end Orderly

variable {id : NodeId}

theorem orderly_push (n : Node α) :
    (push n).Orderly a fun id b => id < b.size := by
  refine ⟨fun x b hx => ?_, fun m b hm => ?_⟩
  · obtain ⟨rfl, rfl⟩ := yields_push.1 hx
    rw [Arena.size_push]
    exact ⟨Nat.le_succ _, Nat.lt_succ_self _⟩
  · cases hm

theorem orderly_node (h : id < a.size) : (node id).Orderly a fun _ b => b = a := by
  refine ⟨fun n b hn => ?_, fun m b hm => ?_⟩
  · obtain ⟨-, rfl⟩ := yields_node.1 hn
    exact ⟨Nat.le_refl _, rfl⟩
  · exact absurd h (Nat.not_lt.2 ((a.get?_eq_none_iff id).1 (fails_node.1 hm).1))

theorem orderly_update (h : id < a.size) (f : Node α → Node α) :
    (update id f).Orderly a fun _ b => b.size = a.size := by
  refine ⟨fun n b hn => ?_, fun m b hm => ?_⟩
  · obtain ⟨n, -, rfl⟩ := yields_update.1 hn
    rw [Arena.size_set]
    exact ⟨Nat.le_refl _, rfl⟩
  · exact absurd h (Nat.not_lt.2 ((a.get?_eq_none_iff id).1 (fails_update.1 hm).1))

/-- A node of the arena can be severed. -/
theorem orderly_sever (h : id < a.size) (suffix : String) :
    (sever id suffix).Orderly a fun input b => input < b.size :=
  (orderly_node h).bind fun n _ _ _ => orderly_push (n.severed suffix)

/-- Nodes of the arena can be made to read others. -/
theorem orderly_redirectAll {ids : List NodeId} (h : ∀ id ∈ ids, id < a.size) (s : Substitution) :
    Orderly (ids.forM (redirect s)) a fun _ b => b.size = a.size := by
  induction ids generalizing a with
  | nil => exact .pure rfl
  | cons id ids ih =>
    obtain ⟨hid, hids⟩ := List.forall_mem_cons.1 h
    refine (orderly_update hid (·.redirect s.apply)).bind fun _ b _ hsize => ?_
    refine (ih fun j hj => hsize ▸ hids j hj).mono fun _ c _ hc => hc.trans hsize

end Edit

end PiecewiseNet
