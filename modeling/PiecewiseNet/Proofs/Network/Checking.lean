import PiecewiseNet.Proofs.Network.Integrity
import PiecewiseNet.Solution

/-!
# Checking networks and solutions

The conditions on how a network is laid out speak of finitely many layers, neurons and nodes, so
they can be checked. So can what values satisfy, over the rational numbers.

## Main definitions

- Instances of `Decidable` for the conditions on shapes, for runs and for solutions.
- `Network.sample`, `Arena.sample`: a small network.
-/

namespace PiecewiseNet

namespace Network

variable {α : Type} {net : Network} {a : Arena α} {id : NodeId}

theorem isFree_iff_any : IsFree a id ↔ (a.get? id).any (·.kind.isPlain) = true := by
  rw [IsFree, Option.any_eq_true]
  refine exists_congr fun n => and_congr_right fun _ => ?_
  cases n.kind <;> simp [NodeKind.isPlain]

instance : Decidable (IsFree a id) :=
  decidable_of_iff _ isFree_iff_any.symm

instance : Decidable (net.FreeAtInputs a) :=
  decidable_of_iff
    (∀ id ∈ net.nodes, IsFree a id ↔ ∃ l ∈ net.layers.head?.toList, [id] ∈ l)
    (by simp only [FreeAtInputs, Option.mem_toList])

/-- A node lies in a neuron exactly when the layer, with its index, is one of the layers. -/
theorem lies_iff_mem_zipIdx {l : Nat} {c : Chain} :
    net.Lies l c id ↔ ∃ layer, (layer, l) ∈ net.layers.zipIdx ∧ c ∈ layer ∧ id ∈ c := by
  simp only [Lies, List.mem_zipIdx_iff_getElem?]

theorem readsFrom_iff_zipIdx {near : Nat → Nat → Prop} :
    net.ReadsFrom near a ↔ ∀ p ∈ net.layers.zipIdx, ∀ c ∈ p.1, ∀ id ∈ c,
      ∀ t ∈ references a id,
        t ∈ c ∨ ∃ q ∈ net.layers.zipIdx, near q.2 p.2 ∧ ∃ d ∈ q.1, t ∈ d := by
  simp only [ReadsFrom, lies_iff_mem_zipIdx]
  constructor
  · rintro h ⟨layer, l⟩ hp c hc id hid t ht
    rcases h l c id ⟨layer, hp, hc, hid⟩ t ht with hown | ⟨e, d, hnear, layer', hq, hd, htd⟩
    · exact .inl hown
    · exact .inr ⟨(layer', e), hq, hnear, d, hd, htd⟩
  · rintro h l c id ⟨layer, hp, hc, hid⟩ t ht
    rcases h (layer, l) hp c hc id hid t ht with hown | ⟨⟨layer', e⟩, hq, hnear, d, hd, htd⟩
    · exact .inl hown
    · exact .inr ⟨e, d, hnear, layer', hq, hd, htd⟩

instance {near : Nat → Nat → Prop} [∀ e l, Decidable (near e l)] :
    Decidable (net.ReadsFrom near a) :=
  decidable_of_iff _ readsFrom_iff_zipIdx.symm

instance : Decidable (net.ReadsEarlier a) :=
  inferInstanceAs (Decidable (net.ReadsFrom (· < ·) a))

instance : Decidable (net.ReadsPrevious a) :=
  inferInstanceAs (Decidable (net.ReadsFrom (fun e l => e + 1 = l) a))

instance : Decidable net.ShortChains :=
  inferInstanceAs (Decidable (∀ l ∈ net.layers, ∀ c ∈ l, c.length ≤ 2))

/-- A property of all neurons and their places. -/
theorem forall_chainAt_iff {layers : List Layer} {p : Nat → Nat → Chain → Prop} :
    (∀ l n c, chainAt layers l n = some c → p l n c) ↔
      ∀ x ∈ layers.zipIdx, ∀ y ∈ x.1.zipIdx, p x.2 y.2 y.1 := by
  simp only [chainAt_eq_some_iff, Prod.forall, List.mem_zipIdx_iff_getElem?]
  constructor
  · intro h layer l hl c n hn
    exact h l n c ⟨layer, hl, hn⟩
  · rintro h l n c ⟨layer, hl, hn⟩
    exact h layer l hl c n hn

instance {layers : List Layer} {p : Nat → Nat → Chain → Prop} [∀ l n c, Decidable (p l n c)] :
    Decidable (∀ l n c, chainAt layers l n = some c → p l n c) :=
  decidable_of_iff _ forall_chainAt_iff.symm

/-- One input, two rectifiers of it, and their sum. -/
def sample : Network :=
  ⟨[[[0]], [[1, 2], [3, 4]], [[5]]]⟩

end Network

/-! ## Solutions -/

section

variable {a : Arena Rat} {net : Network} {q : Query Rat} {v : Valuation Rat} {id : NodeId}

instance {i : Interval Rat} {x : Rat} : Decidable (i.Holds x) :=
  decidable_of_iff ((∀ l ∈ i.lower, l ≤ x) ∧ ∀ u ∈ i.upper, x ≤ u) Iff.rfl

instance {n : Node Rat} {x : Rat} : Decidable (n.Holds v x) :=
  decidable_of_iff (x = n.kind.value v x ∧ n.bounds.Holds x)
    ⟨fun h => ⟨h.1, h.2⟩, fun h => ⟨h.value, h.bounds⟩⟩

theorem Arena.exists_get?_iff_any {p : Node Rat → Prop} [DecidablePred p] :
    (∃ n, a.get? id = some n ∧ p n) ↔ (a.get? id).any (fun n => decide (p n)) = true := by
  simp only [Option.any_eq_true, decide_eq_true_eq]

instance {p : Node Rat → Prop} [DecidablePred p] :
    Decidable (∃ n, a.get? id = some n ∧ p n) :=
  decidable_of_iff _ Arena.exists_get?_iff_any.symm

instance : Decidable (a.Satisfies v id) :=
  inferInstanceAs (Decidable (∃ n, a.get? id = some n ∧ n.Holds v (v id)))

instance {e : Equation Rat} : Decidable (e.Holds v) :=
  match h : e.comparator with
  | .le => decidable_of_iff (e.terms.value v ≤ e.scalar) (by rw [Equation.Holds, h]; rfl)
  | .eq => decidable_of_iff (e.terms.value v = e.scalar) (by rw [Equation.Holds, h]; rfl)
  | .ge => decidable_of_iff (e.scalar ≤ e.terms.value v) (by rw [Equation.Holds, h]; rfl)

instance : Decidable (net.Runs a v) :=
  inferInstanceAs (Decidable (∀ id ∈ net.nodes, a.Satisfies v id))

instance : Decidable (q.Solves a v) :=
  decidable_of_iff ((∀ id ∈ q.nodes, a.Satisfies v id) ∧ ∀ e ∈ q.equations, e.Holds v)
    ⟨fun h => ⟨h.1, h.2⟩, fun h => ⟨h.nodes, h.equations⟩⟩

end

/-- The nodes of the sample, which compute the absolute value of the input. -/
def Arena.sample : Arena Rat :=
  ⟨#[{ kind := .plain, bounds := ⟨some (-2), some 2⟩ }, { kind := .affine [(1, 0)] 0 },
    { kind := .relu 1 false }, { kind := .affine [(-1, 0)] 0 }, { kind := .relu 3 false },
    { kind := .affine [(1, 2), (1, 4)] 0 }]⟩

/-- The sample has the shape of a network of rectifiers. -/
example : Network.sample.FreeAtInputs Arena.sample ∧ Network.sample.ReadsPrevious Arena.sample ∧
    Network.sample.ShortChains := by
  decide

end PiecewiseNet
