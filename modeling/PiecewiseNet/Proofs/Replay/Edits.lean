import PiecewiseNet.Proofs.Network.Duplication
import Mathlib.Logic.Function.Basic

/-!
# Edits run again

An edit that only changes nodes it added itself can be run again later, when the arena has more
nodes. It then does the same over other places: what it adds lies further up, and nothing that was
there before either run is touched. The same holds of runs that fail, and of what they leave behind.

## Main definitions

- `Replay`: an arena, a later state of it, and the nodes that edits start from.
- `Replay.shift`: where the later run puts what the first run adds.
- `Replay.Matches`: arenas in the middle of the two runs.
- `Replay.Repeats`: run on arenas that match, two edits do the same.

## Main statements

- `Replay.shift_injective`: distinct nodes stay distinct.
- `Replay.Matches.start`: before anything is added the two arenas match.
- `Replay.Repeats.bind`, `Replay.Repeats.update`, `Replay.repeats_redirectAll`: the rules for edits.
-/

namespace PiecewiseNet

variable {α : Type}

/-! ## Nodes and tables over other nodes -/

theorem Node.redirect_redirect (n : Node α) (f g : NodeId → NodeId) :
    (n.redirect f).redirect g = n.redirect fun r => g (f r) := by
  simp only [Node.redirect, NodeKind.redirect_redirect]

namespace Substitution

/-- The same table over other nodes. -/
def redirect (s : Substitution) (f : NodeId → NodeId) : Substitution :=
  ⟨s.entries.map fun e => (f e.1, f e.2)⟩

variable {f : NodeId → NodeId}

theorem redirect_insert (hf : Function.Injective f) (s : Substitution) (source target : NodeId) :
    (s.insert source target).redirect f = (s.redirect f).insert (f source) (f target) := by
  simp only [redirect, insert, List.map_cons, List.filter_map, Substitution.mk.injEq,
    List.cons.injEq, true_and]
  refine congrArg _ (List.filter_congr ?_)
  intro e _
  simp [bne, hf.eq_iff]

theorem get?_redirect (hf : Function.Injective f) (s : Substitution) (id : NodeId) :
    (s.redirect f).get? (f id) = (s.get? id).map f := by
  obtain ⟨es⟩ := s
  simp only [redirect, get?]
  induction es with
  | nil => rfl
  | cons e es ih =>
    rw [List.map_cons, List.lookup_cons, List.lookup_cons, ih]
    by_cases h : id = e.1
    · simp [h]
    · rw [beq_false_of_ne h, beq_false_of_ne (hf.ne h)]

theorem apply_redirect (hf : Function.Injective f) (s : Substitution) (id : NodeId) :
    (s.redirect f).apply (f id) = f (s.apply id) := by
  rw [apply, get?_redirect hf, apply]
  cases s.get? id <;> rfl

end Substitution

/-- Reading other nodes and then moving everything is the same as moving everything first. -/
theorem Node.redirect_apply_redirect {f : NodeId → NodeId} (hf : Function.Injective f) (n : Node α)
    (s : Substitution) :
    (n.redirect f).redirect (s.redirect f).apply = (n.redirect s.apply).redirect f := by
  rw [Node.redirect_redirect, Node.redirect_redirect]
  congr 1
  funext r
  exact Substitution.apply_redirect hf s r

/-! ## Two runs -/

/-- An arena, a state of it later on, and the nodes of a structure in it. -/
structure Replay (α : Type) where
  /-- Where the first run starts. -/
  first : Arena α
  /-- Where the other run starts. -/
  later : Arena α
  /-- The nodes that an edit may read. -/
  source : List NodeId
  grows : first.GrowsTo later
  held : ∀ id ∈ source, id < first.size
  closed : ∀ id ∈ source, ∀ r, first.Reads id r → r ∈ source

namespace Replay

variable (p : Replay α)

/-- Where the later run puts what the first run puts at a place. -/
def shift (id : NodeId) : NodeId :=
  if id < p.first.size then id else id + (p.later.size - p.first.size)

/-- The first run added the node. -/
def Fresh (id : NodeId) : Prop :=
  p.first.size ≤ id

/-- The runs may read the node. -/
def Known (id : NodeId) : Prop :=
  id ∈ p.source ∨ p.Fresh id

variable {p} {id : NodeId}

theorem shift_of_lt (h : id < p.first.size) : p.shift id = id :=
  if_pos h

theorem shift_of_fresh (h : p.Fresh id) : p.shift id = id + (p.later.size - p.first.size) :=
  if_neg (Nat.not_lt.2 h)

theorem shift_of_mem_source (h : id ∈ p.source) : p.shift id = id :=
  shift_of_lt (p.held id h)

/-- What the later run adds is new in the later arena. -/
theorem le_shift (h : p.Fresh id) : p.later.size ≤ p.shift id := by
  have := p.grows.size
  have : p.first.size ≤ id := h
  rw [shift_of_fresh h]
  omega

theorem shift_injective (p : Replay α) : Function.Injective p.shift := by
  have hnat : ∀ n d x y : Nat,
      (if x < n then x else x + d) = (if y < n then y else y + d) → x = y := by
    intro n d x y h
    split at h <;> split at h <;> omega
  exact fun i j => hnat p.first.size (p.later.size - p.first.size) i j

/-- The arenas of the two runs, somewhere on the way: what was there is unchanged, and the runs have
added the same nodes, each over what it added itself. -/
structure Matches (p : Replay α) (a b : Arena α) : Prop where
  first : p.first.GrowsTo a
  later : p.later.GrowsTo b
  size : b.size = p.shift a.size
  get? : ∀ id, p.Known id → b.get? (p.shift id) = (a.get? id).map (·.redirect p.shift)

namespace Matches

variable {a b : Arena α}

/-- The runs start from arenas that match. -/
theorem start (p : Replay α) : p.Matches p.first p.later := by
  have hsize := p.grows.size
  refine ⟨.refl _, .refl _, ?_, ?_⟩
  · rw [shift_of_fresh (Nat.le_refl _)]
    omega
  · intro id hid
    rcases hid with hid | hid
    · obtain ⟨n, hn⟩ := Arena.exists_get? (p.held id hid)
      have hkind : n.kind.redirect p.shift = n.kind := by
        refine NodeKind.redirect_of_eq ?_
        intro r hr
        exact shift_of_mem_source (p.closed id hid r ((Arena.reads_iff hn).2 hr))
      rw [shift_of_mem_source hid, p.grows.get?_eq_some hn, hn, Option.map_some, Node.redirect,
        hkind]
    · rw [(p.first.get?_eq_none_iff id).2 hid, (p.later.get?_eq_none_iff _).2 (le_shift hid)]
      rfl

theorem fresh_size (h : p.Matches a b) : p.Fresh a.size :=
  h.first.size

/-- Both runs add the same node. -/
theorem push (h : p.Matches a b) (n : Node α) :
    p.Matches (a.push n) (b.push (n.redirect p.shift)) := by
  refine ⟨h.first.trans (Arena.growsTo_push a n), h.later.trans (Arena.growsTo_push b _), ?_, ?_⟩
  · have hfresh : p.Fresh (a.size + 1) := h.fresh_size.trans (Nat.le_succ _)
    rw [Arena.size_push, Arena.size_push, h.size, shift_of_fresh hfresh,
      shift_of_fresh h.fresh_size]
    omega
  · intro id hid
    rw [Arena.get?_push, Arena.get?_push, h.size]
    by_cases heq : id = a.size
    · rw [if_pos heq, if_pos (congrArg p.shift heq), Option.map_some]
    · rw [if_neg heq, if_neg (p.shift_injective.ne heq)]
      exact h.get? id hid

theorem shift_lt_size_iff (h : p.Matches a b) (hid : p.Fresh id) :
    p.shift id < b.size ↔ id < a.size := by
  rw [h.size, shift_of_fresh hid, shift_of_fresh h.fresh_size]
  exact Nat.add_lt_add_iff_right

/-- Both runs change a node that they added. -/
theorem set (h : p.Matches a b) (hid : p.Fresh id) (n : Node α) :
    p.Matches (a.set id n) (b.set (p.shift id) (n.redirect p.shift)) := by
  refine ⟨?_, ?_, ?_, ?_⟩
  · refine ⟨by rw [Arena.size_set]; exact h.first.size, ?_⟩
    intro j hj
    rw [Arena.get?_set, if_neg (by rintro ⟨rfl, -⟩; exact absurd hid (Nat.not_le.2 hj)),
      h.first.get? j hj]
  · refine ⟨by rw [Arena.size_set]; exact h.later.size, ?_⟩
    intro j hj
    rw [Arena.get?_set, if_neg (by rintro ⟨rfl, -⟩; exact absurd (le_shift hid) (Nat.not_le.2 hj)),
      h.later.get? j hj]
  · rw [Arena.size_set, Arena.size_set, h.size]
  · intro j hj
    rw [Arena.get?_set, Arena.get?_set]
    simp only [p.shift_injective.eq_iff, h.shift_lt_size_iff hid]
    split
    · rfl
    · exact h.get? j hj

/-- Arenas that only grew further hold the added nodes unchanged. -/
theorem get?_of_growsTo (h : p.Matches a b) {a' b' : Arena α} (ha : a.GrowsTo a')
    (hb : b.GrowsTo b') (hid : p.Fresh id) (hlt : id < a.size) :
    b'.get? (p.shift id) = (a'.get? id).map (·.redirect p.shift) := by
  rw [ha.get? id hlt, hb.get? _ ((h.shift_lt_size_iff hid).2 hlt), h.get? id (.inr hid)]

end Matches

/-! ## Edits that do the same -/

/-- Both outcomes are failures, or the second one is the image of the first, which has a
property. -/
inductive Alike {ε β : Type} (g : β → β) (P : β → Prop) : Except ε β → Except ε β → Prop where
  | ok {x : β} (h : P x) : Alike g P (.ok x) (.ok (g x))
  | error (e e' : ε) : Alike g P (.error e) (.error e')

/-- Run on arenas that match, the edits have outcomes that are alike and leave arenas behind that
match, whether they succeed or fail. -/
def Repeats {ε β : Type} (p : Replay α) (g : β → β) (P : β → Prop) (e e' : Edit ε α β) : Prop :=
  ∀ a b, p.Matches a b →
    Alike g P (e.run a).1 (e'.run b).1 ∧ p.Matches (e.run a).2 (e'.run b).2

variable {ε β γ : Type} {g : β → β} {P : β → Prop} {k : γ → γ} {Q : γ → Prop}

theorem Alike.mono {P' : β → Prop} {r r' : Except ε β} (h : Alike g P r r')
    (hP : ∀ x, P x → P' x) : Alike g P' r r' := by
  cases h with
  | ok hx => exact .ok (hP _ hx)
  | error e e' => exact .error e e'

/-- Beside a success stands its image. -/
theorem Alike.eq_of_ok {x : β} {r' : Except ε β} (h : Alike g P (.ok x) r') :
    r' = .ok (g x) ∧ P x := by
  cases h with
  | ok hx => exact ⟨rfl, hx⟩

/-- A second outcome that is the image of the first one, failures included. -/
theorem Alike.of_eq_map {r r' : Except ε β} (h : r' = r.map g) (hP : ∀ x, r = .ok x → P x) :
    Alike g P r r' := by
  subst h
  cases r with
  | ok x => exact .ok (hP x rfl)
  | error e => exact .error e e

/-- A computation that does not name any node is like itself. -/
theorem Alike.refl (r : Except ε β) : Alike (fun x => x) (fun _ => True) r r := by
  cases r with
  | ok x => exact .ok (g := fun x => x) trivial
  | error e => exact .error e e

/-- Two checks are alike if one passes exactly when the other does. -/
theorem Alike.of_iff {r r' : Except ε Unit} (h : r = .ok () ↔ r' = .ok ()) :
    Alike (fun u => u) (fun _ => True) r r' := by
  cases r with
  | ok x =>
    rw [h.1 rfl]
    exact .ok trivial
  | error e =>
    cases r' with
    | ok x => cases h.2 rfl
    | error e' => exact .error e e'

/-- One fallible computation after the other. -/
theorem Alike.bind {r r' : Except ε β} {f f' : β → Except ε γ} (h : Alike g P r r')
    (hf : ∀ x, P x → Alike k Q (f x) (f' (g x))) : Alike k Q (r >>= f) (r' >>= f') := by
  cases h with
  | ok hx => exact hf _ hx
  | error e e' => exact .error e e'

namespace Repeats

theorem mono {P' : β → Prop} {e e' : Edit ε α β} (h : p.Repeats g P e e')
    (hP : ∀ x, P x → P' x) : p.Repeats g P' e e' := by
  intro a b hab
  obtain ⟨hout, harena⟩ := h a b hab
  exact ⟨hout.mono hP, harena⟩

theorem pure {x y : β} (h : P x) (hy : y = g x) :
    p.Repeats g P (Pure.pure x : Edit ε α β) (Pure.pure y : Edit ε α β) := by
  subst hy
  intro a b hab
  exact ⟨.ok h, hab⟩

theorem throw (e e' : ε) :
    p.Repeats g P (MonadExcept.throw e : Edit ε α β) (MonadExcept.throw e' : Edit ε α β) := by
  intro a b hab
  exact ⟨.error e e', hab⟩

/-- Edits that do the same, one after the other. -/
theorem bind {e e' : Edit ε α β} {f f' : β → Edit ε α γ} (h : p.Repeats g P e e')
    (hf : ∀ x, P x → p.Repeats k Q (f x) (f' (g x))) : p.Repeats k Q (e >>= f) (e' >>= f') := by
  intro a b hab
  have hstep := h a b hab
  rw [run_bind, run_bind]
  cases he : e.run a with
  | mk r c =>
    cases he' : e'.run b with
    | mk r' c' =>
      rw [he, he'] at hstep
      obtain ⟨hout, harena⟩ := hstep
      cases hout with
      | ok hx => exact hf _ hx c c' harena
      | error err err' => exact ⟨.error err err', harena⟩

theorem ofExcept {r r' : Except ε β} (h : Alike g P r r') :
    p.Repeats g P (Edit.ofExcept r : Edit ε α β) (Edit.ofExcept r') := by
  intro a b hab
  exact ⟨h, hab⟩

theorem reading {f f' : Arena α → Except ε β}
    (h : ∀ a b, p.Matches a b → Alike g P (f a) (f' b)) :
    p.Repeats g P (Edit.reading f) (Edit.reading f') := by
  intro a b hab
  exact ⟨h a b hab, hab⟩

/-- Telling failures in other words changes nothing else. -/
theorem adapt {δ : Type} {f : ε → δ} {e e' : Edit ε α β} (h : p.Repeats g P e e') :
    p.Repeats g P (ExceptT.adapt f e : Edit δ α β) (ExceptT.adapt f e' : Edit δ α β) := by
  intro a b hab
  obtain ⟨hout, harena⟩ := h a b hab
  have hrun : ∀ (e : Edit ε α β) (a : Arena α),
      (ExceptT.adapt f e : Edit δ α β).run a = ((e.run a).1.mapError f, (e.run a).2) :=
    fun _ _ => rfl
  rw [hrun, hrun]
  refine ⟨?_, harena⟩
  generalize (e.run a).1 = r at hout
  generalize (e'.run b).1 = r' at hout
  cases hout with
  | ok hx => exact .ok hx
  | error err err' => exact .error _ _

theorem push (n : Node α) :
    p.Repeats p.shift p.Fresh (Edit.push n : Edit ε α NodeId)
      (Edit.push (n.redirect p.shift) : Edit ε α NodeId) := by
  intro a b hab
  have hout : Alike (ε := ε) p.shift p.Fresh (.ok a.size) (.ok b.size) := by
    rw [hab.size]
    exact .ok hab.fresh_size
  exact ⟨hout, hab.push n⟩

theorem node (hid : p.Known id) :
    p.Repeats (·.redirect p.shift) (fun _ => True)
      (Edit.node id : Edit (GraphError α) α (Node α)) (Edit.node (p.shift id)) := by
  refine reading ?_
  intro a b hab
  have hget := hab.get? id hid
  unfold Arena.node
  cases hn : a.get? id with
  | none =>
    rw [hn, Option.map_none] at hget
    rw [hget]
    exact .error _ _
  | some n =>
    rw [hn, Option.map_some] at hget
    rw [hget]
    exact .ok trivial

/-- A node that the runs added is changed in both. -/
theorem update {f f' : Node α → Node α} (hid : p.Fresh id)
    (hf : ∀ n, f' (n.redirect p.shift) = (f n).redirect p.shift) :
    p.Repeats (fun u => u) (fun _ => True) (Edit.update id f) (Edit.update (p.shift id) f') := by
  unfold Edit.update
  refine bind (node (.inr hid)) ?_
  intro n _ a b hab
  rw [hf]
  exact ⟨.ok trivial, hab.set hid (f n)⟩

theorem copyNode (hid : p.Known id) (suffix : String) :
    p.Repeats p.shift p.Fresh (Edit.copyNode id suffix) (Edit.copyNode (p.shift id) suffix) := by
  unfold Edit.copyNode
  refine bind (node hid) ?_
  intro n _
  exact push (n.copied suffix)

theorem sever (hid : p.Known id) (suffix : String) :
    p.Repeats p.shift p.Fresh (Edit.sever id suffix) (Edit.sever (p.shift id) suffix) := by
  unfold Edit.sever
  refine bind (node hid) ?_
  intro n _
  exact push (n.severed suffix)

theorem redirect (hid : p.Fresh id) (s : Substitution) :
    p.Repeats (fun u => u) (fun _ => True) (Edit.redirect s id : Edit (GraphError α) α Unit)
      (Edit.redirect (s.redirect p.shift) (p.shift id)) :=
  update hid fun n => Node.redirect_apply_redirect p.shift_injective n s

end Repeats

/-- Letting added nodes read others. -/
theorem repeats_redirectAll {ids : List NodeId} (hids : ∀ id ∈ ids, p.Fresh id) (s : Substitution) :
    p.Repeats (fun u => u) (fun _ => True) (ids.forM (Edit.redirect (α := α) s))
      ((ids.map p.shift).forM (Edit.redirect (s.redirect p.shift))) := by
  induction ids with
  | nil => exact .pure trivial rfl
  | cons id ids ih =>
    obtain ⟨hid, hids⟩ := List.forall_mem_cons.1 hids
    exact .bind (.redirect hid s) fun _ _ => ih hids

end Replay

end PiecewiseNet
