import Mathlib.Algebra.BigOperators.Group.List.Basic
import Mathlib.Tactic.FieldSimp
import Mathlib.Tactic.LinearCombination
import Mathlib.Tactic.Ring
import PiecewiseNet.Proofs.Ipq.Checking
import PiecewiseNet.Proofs.Ipq.Rebuilding

/-!
# Solutions of rebuilt files

Values of the variables that satisfy a file are values of the nodes that its network has for them:
every node computes the value of its variable. Solving an equation for its new variable is what
makes this true of affine nodes.

## Main definitions

- `VarMap.Carries`: values of nodes that are the values of their variables.

## Main statements

- `IpqFile.holds_iff_eq_value`: an equation says the same as the definition that it gives.
- `IpqFile.solutions_survive`: no solution of a file is lost in its network.
-/

namespace PiecewiseNet

/-- The values of the nodes are those of their variables. -/
def VarMap.Carries {α : Type} (vars : VarMap NodeId) (w : Valuation α) (x : Nat → α) : Prop :=
  ∀ v id, vars.get? v = some id → w id = x v

/-- Where variables have nodes of their own, some values of the nodes are those of the variables. -/
theorem VarMap.exists_carries {α : Type} [Zero α] {vars : VarMap NodeId}
    (h : ∀ u v id, vars.get? u = some id → vars.get? v = some id → u = v) (x : Nat → α) :
    ∃ w : Valuation α, vars.Carries w x := by
  classical
  refine ⟨fun id => if hid : ∃ v, vars.get? v = some id then x hid.choose else 0, ?_⟩
  intro v id hv
  have hid : ∃ v, vars.get? v = some id := ⟨v, hv⟩
  dsimp only
  rw [dif_pos hid, h hid.choose v id hid.choose_spec hv]

/-! ## Sums -/

theorem Terms.value_eq_sum (w : Valuation Rat) (ts : Terms Rat) :
    ts.value w = (ts.map fun t => w t.2 * t.1).sum := by
  rw [List.sum_eq_foldl, List.foldl_map]
  rfl

theorem IpqEquation.sum_eq_sum (x : Nat → Rat) (e : IpqEquation Rat) :
    e.sum x = (e.addends.map fun a => x a.1 * a.2).sum := by
  rw [List.sum_eq_foldl, List.foldl_map]
  rfl

namespace IpqFile

variable {f : IpqFile Rat} {vars : VarMap NodeId} {x : Nat → Rat} {w : Valuation Rat}

/-! ## Definitions of variables -/

/-- The terms of a definition have the value of the other addends over the opposite of the
coefficient. -/
theorem value_terms_eq {addends : List (Nat × Rat)} {c : Rat} (hc : c ≠ 0) (hw : vars.Carries w x)
    (h : ∀ a ∈ addends, ∃ id, vars.get? a.1 = some id) :
    Terms.value w (addends.map fun a => (-a.2 / c, (vars.get? a.1).getD 0)) * c =
      -(addends.map fun a => x a.1 * a.2).sum := by
  rw [Terms.value_eq_sum, List.map_map]
  induction addends with
  | nil => simp
  | cons a addends ih =>
    rw [List.forall_mem_cons] at h
    obtain ⟨⟨id, hid⟩, hrest⟩ := h
    have hvalue : w ((vars.get? a.1).getD 0) = x a.1 := by
      rw [hid, Option.getD_some, hw a.1 id hid]
    simp only [List.map_cons, List.sum_cons, Function.comp_apply, add_mul, ih hrest, hvalue]
    field_simp
    ring

/-- An equality says the same as the definition that it gives to its only fresh variable, whatever
the coefficient and wherever it stands. -/
theorem holds_iff_eq_value {e : IpqEquation Rat} {v : Nat} {c : Rat} (heq : e.comparator = .eq)
    (hfresh : freshAddends vars e = [(v, c)]) (hc : c ≠ 0) (hw : vars.Carries w x) :
    e.Holds x ↔ x v = (definition vars e v c).value w (x v) := by
  obtain ⟨l, r, haddends, hv, hothers⟩ := freshAddends_eq_singleton_iff.1 hfresh
  -- The variable has no node, so it occurs only once.
  have hne : ∀ a ∈ l ++ r, (a.1 != v) = true := by
    intro a ha
    obtain ⟨id, hid⟩ := hothers a ha
    rw [bne_iff_ne]
    rintro rfl
    rw [hv] at hid
    cases hid
  rw [List.forall_mem_append] at hne
  have hfilter : e.addends.filter (·.1 != v) = l ++ r := by
    rw [haddends, List.filter_append, List.filter_cons_of_neg (by simp),
      List.filter_eq_self.2 hne.1, List.filter_eq_self.2 hne.2]
  have hsum : e.sum x = ((l ++ r).map fun a => x a.1 * a.2).sum + x v * c := by
    rw [IpqEquation.sum_eq_sum, haddends]
    simp only [List.map_append, List.map_cons, List.sum_append, List.sum_cons]
    ring
  have hvalue := value_terms_eq hc hw hothers
  have hholds : e.Holds x ↔ e.sum x = e.scalar := by
    rw [IpqEquation.Holds, heq]
    exact Iff.rfl
  rw [hholds, hsum, definition, hfilter, NodeKind.value]
  -- The definition divides by the coefficient, so both directions multiply by it.
  constructor
  · intro h
    refine mul_right_cancel₀ hc ?_
    rw [add_mul, hvalue, div_mul_cancel₀ _ hc]
    linear_combination h
  · intro h
    have hmul := congrArg (· * c) h
    simp only [add_mul, hvalue, div_mul_cancel₀ _ hc] at hmul
    linear_combination hmul

/-! ## Definitions of nodes -/

/-- The value of the variable is the one that the kind computes, wherever the nodes of the table
have the values of their variables. -/
def Explains (vars : VarMap NodeId) (x : Nat → Rat) (v : Nat) (k : NodeKind Rat) : Prop :=
  ∀ w : Valuation Rat, vars.Carries w x → x v = k.value w (x v)

theorem carries_of_within {t u : VarMap NodeId} (h : Within t u) (hw : u.Carries w x) :
    t.Carries w x :=
  fun v id hv => hw v id (h v id hv)

/-- The definitions of all variables of a rebuilt file explain a solution of the file. -/
theorem Rebuilt.explains {strict : Bool} {start a b c : Arena Rat} {inputs : List NodeId}
    {p : Passes} {n : IpqNetwork} (h : f.Rebuilt strict start inputs vars a p b c n)
    (hx : f.Solves x) : start.Names b p.variableNodes (Explains p.variableNodes x) := by
  refine h.run.names (h.inputLayer.imp ?_) ?_ ?_
  · rintro v k rfl w -
    rfl
  · rintro t ht e he v k ⟨heq, c, hc, hfresh, rfl⟩ w hw
    have hc : c ≠ 0 := by simpa using hc
    exact (holds_iff_eq_value heq hfresh hc (carries_of_within ht hw)).1 (hx.equations e he)
  · intro t ht v g input hg hinput w hw
    have hvalue : x v = Scalar.positivePart (x g) := hx.constraints _ hg
    rw [NodeKind.value, hw g input (ht g input hinput)]
    exact hvalue

theorem holds_limited {m : Node Rat} {v : Nat} (hbounds : m.bounds = .unbounded) (hx : f.Solves x)
    (hvalue : x v = m.kind.value w (x v)) : (f.limited v m).Holds w (x v) := by
  refine ⟨hvalue, ?_, ?_⟩
  · intro l hl
    rw [limited, hbounds] at hl
    exact hx.lower (v, l) (VarMap.get?_eq_some_iff.1 hl)
  · intro u hu
    rw [limited, hbounds] at hu
    exact hx.upper (v, u) (VarMap.get?_eq_some_iff.1 hu)

/-- No solution is lost. Whenever a file is rebuilt as a network, in strict mode or not, the values
of the variables in a solution of the file can be given to the nodes that the network has for them,
and then satisfy the definitions and the bounds of all these nodes. In particular an equation that
is solved for a variable without a node, which has a coefficient other than zero and stands anywhere
among addends whose variables have nodes, says the same as the definition that it gives. -/
theorem solutions_survive :
    (∀ (f : IpqFile Rat) (strict : Bool) (s s' : Session Rat) (n : IpqNetwork),
      f.rebuild strict s = (.ok n, s') → ∀ x, f.Solves x →
        (∃ w, n.variableNodes.Carries w x) ∧
          ∀ w, n.variableNodes.Carries w x → ∀ v id, n.variableNodes.get? v = some id →
            s'.arena.Satisfies w id) ∧
    ∀ (vars : VarMap NodeId) (e : IpqEquation Rat) (l r : List (Nat × Rat)) (v : Nat) (c : Rat),
      e.comparator = .eq → e.addends = l ++ (v, c) :: r → c ≠ 0 → vars.get? v = none →
        (∀ a ∈ l ++ r, ∃ id, vars.get? a.1 = some id) → ∀ w x, vars.Carries w x →
          (e.Holds x ↔ x v = (definition vars e v c).value w (x v)) := by
  refine ⟨?_, ?_⟩
  · intro f strict s s' n h x hx
    obtain ⟨inputs, vars, a, p, b, hrebuilt⟩ := rebuilt_of_rebuild h
    have hnames := hrebuilt.explains hx
    rw [hrebuilt.variableNodes]
    refine ⟨VarMap.exists_carries hnames.injective x, ?_⟩
    intro w hw v id hv
    obtain ⟨m, hbounds, hexplains, -, hfinal⟩ :=
      hrebuilt.get?_eq_limited hnames (hrebuilt.variableNodes ▸ hv)
    refine ⟨f.limited v m, hfinal, ?_⟩
    rw [hw v id hv]
    exact holds_limited hbounds hx (hexplains w hw)
  · intro vars e l r v c heq haddends hc hv hothers w x hw
    have hfresh := freshAddends_eq_singleton_iff.2 ⟨l, r, haddends, hv, hothers⟩
    exact holds_iff_eq_value heq hfresh hc hw

/-- The coefficients that define variables are 1 and -1/2, an input occurs twice in one equation,
the variable 4 is fixed, and an inequality is passed over. -/
def looseFile : IpqFile Rat where
  variableCount := 5
  inputs := [0]
  outputs := [3]
  lowerBounds := OrderedMap.ofList [(0, 0), (4, 2)]
  upperBounds := OrderedMap.ofList [(2, 10), (4, 2)]
  equations := [⟨.eq, -1, [(0, -1), (1, 1), (0, -1)]⟩, ⟨.le, 50, [(3, 1)]⟩,
    ⟨.eq, 0, [(2, 3), (3, -1 / 2), (4, 1)]⟩]
  constraints := [.relu 2 1]

/-- A solution of the sample. -/
def looseSolution (v : Nat) : Rat :=
  [3, 5, 5, 34, 2].getD v 0

/-- The solution of the sample survives, and its first equation says what it defines. -/
theorem solutions_survive_loose :
    (∃ n s', looseFile.rebuild false {} = (.ok n, s') ∧
      n.variableNodes.entries.map Prod.fst = [0, 1, 2, 3, 4] ∧
        ∃ w, n.variableNodes.Carries w looseSolution ∧ ∀ v id,
          n.variableNodes.get? v = some id → s'.arena.Satisfies w id) ∧
      (IpqEquation.Holds looseSolution ⟨.eq, -1, [(0, -1), (1, 1), (0, -1)]⟩ ↔
        looseSolution 1 = NodeKind.value looseSolution 5
          (definition (OrderedMap.ofList [(0, 0)]) ⟨.eq, -1, [(0, -1), (1, 1), (0, -1)]⟩ 1 1)) := by
  refine ⟨?_, ?_⟩
  · obtain ⟨n, s', hrebuild, hvars⟩ : ∃ n s', looseFile.rebuild false {} = (.ok n, s') ∧
        n.variableNodes.entries.map Prod.fst = [0, 1, 2, 3, 4] :=
      exists_rebuild_iff.2 (by decide +kernel)
    obtain ⟨⟨w, hw⟩, hall⟩ := solutions_survive.1 looseFile false {} s' n hrebuild looseSolution
      (by decide +kernel)
    exact ⟨n, s', hrebuild, hvars, w, hw, hall w hw⟩
  · refine solutions_survive.2 _ _ [(0, -1)] [(0, -1)] 1 1 rfl rfl (by decide) rfl ?_ _ _ ?_
    · simp only [List.singleton_append, List.forall_mem_cons]
      exact ⟨⟨0, rfl⟩, ⟨0, rfl⟩, by simp⟩
    · intro v id hv
      have hmem : (v, id) ∈ [(0, 0)] := VarMap.get?_eq_some_iff.1 hv
      obtain ⟨rfl, rfl⟩ : v = 0 ∧ id = 0 := by simpa using hmem
      rfl

end IpqFile

end PiecewiseNet
