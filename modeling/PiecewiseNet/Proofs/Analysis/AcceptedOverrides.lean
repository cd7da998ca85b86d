import PiecewiseNet.Proofs.Analysis.Overrides

/-!
# Accepted overrides

A list of overrides is accepted for a range exactly when each of them names a neuron of a hidden
layer of the range, and no two the same neuron. The order of the list does not matter then.

## Main definitions

- `NeuronOverride.place`: the place of the neuron that an override names.
- `NeuronOverride.Fits`: an override names a neuron of a hidden layer of the range.

## Main statements

- `RedundancyTest.exists_relativeOverrides_iff`: which lists are accepted.
- `RedundancyTest.relativeOverrides_perm`: their order does not matter.
-/

namespace PiecewiseNet

open Text

/-- Overrides are known from the kinds at all places. -/
theorem Overrides.ext_kindAt {ov ov' : Overrides} (h : ∀ l n, ov.kindAt l n = ov'.kindAt l n) :
    ov = ov' := by
  have hmem : ∀ e, e ∈ ov.entries ↔ e ∈ ov'.entries := by
    rintro ⟨⟨l, n⟩, kind⟩
    rw [← lookup_eq_some_iff_mem ov.nodup_keys, ← lookup_eq_some_iff_mem ov'.nodup_keys]
    exact Eq.congr_left (h l n)
  have hperm : ov.entries.Perm ov'.entries :=
    (List.perm_ext_iff_of_nodup (ov.nodup_keys.of_map _) (ov'.nodup_keys.of_map _)).2 hmem
  have hbefore : ∀ ov : Overrides,
      ov.entries.Pairwise fun e e' => Key.before e.1 e'.1 = true := fun ov =>
    List.pairwise_map.1 ov.ascending
  have hentries : ov.entries = ov'.entries := by
    refine hperm.eq_of_pairwise ?_ (hbefore ov) (hbefore ov')
    intro e e' _ _ hlt hgt
    simp only [Key.before, decide_eq_true_eq] at hlt hgt
    omega
  cases ov
  cases ov'
  cases hentries
  rfl

/-- The place of the neuron that an override names. -/
def NeuronOverride.place (o : NeuronOverride) : Nat × Nat :=
  (o.layer, o.neuron)

/-- The override names a neuron of a hidden layer of the range. -/
def NeuronOverride.Fits (net : Network) (range : ClipRange) (o : NeuronOverride) : Prop :=
  1 ≤ o.layer ∧ o.layer + 1 < net.layerCount ∧ range.firstLayer ≤ o.layer ∧
    o.layer ≤ range.resolveLast net.layerCount ∧ o.neuron < net.layerSize o.layer

/-- Numbered from the first kept layer, overrides name the same neuron when they do so in the whole
network. -/
theorem NeuronOverride.Fits.key_eq_iff {net : Network} {range : ClipRange} {o o' : NeuronOverride}
    (h : o.Fits net range) (h' : o'.Fits net range) :
    (o'.layer - range.firstLayer, o'.neuron) = (o.layer - range.firstLayer, o.neuron) ↔
      o'.place = o.place := by
  obtain ⟨-, -, hfirst, -⟩ := h
  obtain ⟨-, -, hfirst', -⟩ := h'
  simp only [place, Prod.mk.injEq]
  omega

/-- If no neuron is named twice, the override of a neuron is the one in the list. -/
theorem NeuronOverride.kindAt_eq_some_iff {os : List NeuronOverride} {l n : Nat}
    {kind : OverrideKind} (hnd : (os.map place).Nodup) :
    kindAt os l n = some kind ↔ ∃ o ∈ os, o.place = (l, n) ∧ o.kind = kind := by
  induction os with
  | nil => simp [kindAt]
  | cons o os ih =>
    rw [List.map_cons, List.nodup_cons] at hnd
    have hplace : o.layer = l ∧ o.neuron = n ↔ o.place = (l, n) := Prod.mk.injEq .. |>.symm.to_iff
    rw [kindAt_cons]
    by_cases hhere : o.layer = l ∧ o.neuron = n
    · have hother : ∀ o' ∈ os, o'.place ≠ (l, n) := fun o' ho' heq =>
        hnd.1 (List.mem_map.2 ⟨o', ho', heq.trans (hplace.1 hhere).symm⟩)
      rw [if_pos hhere, Option.some.injEq]
      constructor
      · exact fun hkind => ⟨o, List.mem_cons_self .., hplace.1 hhere, hkind⟩
      · rintro ⟨o', ho', hat, hkind⟩
        rcases List.mem_cons.1 ho' with rfl | ho'
        · exact hkind
        · exact absurd hat (hother o' ho')
    · rw [if_neg hhere, ih hnd.2]
      constructor
      · rintro ⟨o', ho', hrest⟩
        exact ⟨o', List.mem_cons_of_mem _ ho', hrest⟩
      · rintro ⟨o', ho', hat, hkind⟩
        rcases List.mem_cons.1 ho' with rfl | ho'
        · exact absurd (hplace.2 hat) hhere
        · exact ⟨o', ho', hat, hkind⟩

/-- The order of a list that names no neuron twice does not matter. -/
theorem NeuronOverride.kindAt_perm {os os' : List NeuronOverride} (hperm : os.Perm os')
    (hnd : (os.map place).Nodup) (l n : Nat) : kindAt os l n = kindAt os' l n := by
  have hnd' : (os'.map place).Nodup := (hperm.map place).nodup_iff.1 hnd
  refine Option.ext fun kind => ?_
  rw [kindAt_eq_some_iff hnd, kindAt_eq_some_iff hnd']
  simp only [hperm.mem_iff]

namespace RedundancyTest

variable {α : Type} {net : Network} {range : ClipRange} {os os' : List NeuronOverride}
  {relative ov : Overrides} {t : RedundancyTest α}

theorem overrideFault?_eq_none_iff (hcount : net.layerCount ≤ indexLimit) {o : NeuronOverride} :
    overrideFault? (α := α) net range o = .ok none ↔ o.Fits net range := by
  constructor
  · exact place_of_overrideFault?
  · rintro ⟨hpos, hlt, hfirst, hlast, hneuron⟩
    unfold overrideFault? nextIndex
    dsimp only
    rw [if_neg (by omega), if_pos (by omega)]
    dsimp only
    rw [if_neg (by omega), if_neg (by omega), if_neg (by omega)]

/-- Overrides that were added each name a neuron of a hidden layer of the range, none of them one
that another one names, and none of them one that had an override. -/
theorem fits_of_addOverrides (h : addOverrides (α := α) net range os relative = .ok ov) :
    (∀ o ∈ os, o.Fits net range) ∧ (os.map NeuronOverride.place).Nodup ∧
      ∀ o ∈ os, relative.contains (o.layer - range.firstLayer, o.neuron) = false := by
  induction os generalizing relative with
  | nil => simp
  | cons o os ih =>
    unfold addOverrides at h
    split at h
    · cases h
    · cases h
    · rename_i hcheck
      have hfits : o.Fits net range := place_of_overrideFault? hcheck
      dsimp only at h
      split at h
      · cases h
      · rename_i hnew
        obtain ⟨hos, hnd, hkeys⟩ := ih h
        simp only [OrderedMap.contains_insert_eq_false_iff] at hkeys
        refine ⟨List.forall_mem_cons.2 ⟨hfits, hos⟩, List.nodup_cons.2 ⟨fun hmem => ?_, hnd⟩,
          List.forall_mem_cons.2 ⟨by simpa using hnew, fun o' ho' => (hkeys o' ho').2⟩⟩
        obtain ⟨o', ho', heq⟩ := List.mem_map.1 hmem
        exact (hkeys o' ho').1 ((hfits.key_eq_iff (hos o' ho')).2 heq)

/-- Such overrides can be added. -/
theorem exists_addOverrides (hcount : net.layerCount ≤ indexLimit)
    (hfits : ∀ o ∈ os, o.Fits net range) (hnd : (os.map NeuronOverride.place).Nodup)
    (hkeys : ∀ o ∈ os, relative.contains (o.layer - range.firstLayer, o.neuron) = false) :
    ∃ ov, addOverrides (α := α) net range os relative = .ok ov := by
  induction os generalizing relative with
  | nil => exact ⟨relative, rfl⟩
  | cons o os ih =>
    obtain ⟨hplace, hnd⟩ := List.nodup_cons.1 hnd
    obtain ⟨hnew, hkeys⟩ := List.forall_mem_cons.1 hkeys
    obtain ⟨ho, hos⟩ := List.forall_mem_cons.1 hfits
    unfold addOverrides
    rw [(overrideFault?_eq_none_iff hcount).2 ho]
    dsimp only
    rw [hnew, if_neg Bool.false_ne_true]
    refine ih hos hnd fun o' ho' => OrderedMap.contains_insert_eq_false_iff.2 ⟨?_, hkeys o' ho'⟩
    exact fun heq => hplace (List.mem_map.2 ⟨o', ho', (ho.key_eq_iff (hos o' ho')).1 heq⟩)

/-- Accepted overrides each name a neuron of a hidden layer of the range, and no two the same. -/
theorem fits_of_relativeOverrides (h : t.relativeOverrides os range = .ok ov) :
    (∀ o ∈ os, o.Fits t.network range) ∧ (os.map NeuronOverride.place).Nodup := by
  obtain ⟨hfits, hnd, -⟩ := fits_of_addOverrides h
  exact ⟨hfits, hnd⟩

/-- Overrides are accepted exactly when each names a neuron of a hidden layer of the range, and no
two the same. -/
theorem exists_relativeOverrides_iff (hcount : t.network.layerCount ≤ indexLimit) :
    (∃ ov, t.relativeOverrides os range = .ok ov) ↔
      (∀ o ∈ os, o.Fits t.network range) ∧ (os.map NeuronOverride.place).Nodup :=
  ⟨fun ⟨_, h⟩ => fits_of_relativeOverrides h,
    fun ⟨hfits, hnd⟩ => exists_addOverrides hcount hfits hnd fun _ _ => rfl⟩

/-- Overrides that are refused are refused for one of them. -/
theorem exists_of_addOverrides_eq_error {e : AnalysisError α}
    (hlt : ∀ o ∈ os, o.layer < indexLimit) (h : addOverrides net range os relative = .error e) :
    ∃ o ∈ os, ∃ fault, e = .badOverride o.layer o.neuron fault := by
  induction os generalizing relative with
  | nil => cases h
  | cons o os ih =>
    obtain ⟨ho, hos⟩ := List.forall_mem_cons.1 hlt
    unfold addOverrides at h
    split at h
    · rename_i hcheck
      unfold overrideFault? nextIndex at hcheck
      dsimp only at hcheck
      rw [if_pos ho] at hcheck
      split at hcheck <;> cases hcheck
    · cases h
      exact ⟨o, List.mem_cons_self .., _, rfl⟩
    · dsimp only at h
      split at h
      · cases h
        exact ⟨o, List.mem_cons_self .., _, rfl⟩
      · obtain ⟨o', ho', hfault⟩ := ih hos h
        exact ⟨o', List.mem_cons_of_mem _ ho', hfault⟩

/-- The order of the overrides does not matter. -/
theorem relativeOverrides_perm (hcount : t.network.layerCount ≤ indexLimit) (hperm : os.Perm os')
    (h : t.relativeOverrides os range = .ok ov) : t.relativeOverrides os' range = .ok ov := by
  obtain ⟨hfits, hnd⟩ := (exists_relativeOverrides_iff hcount).1 ⟨ov, h⟩
  obtain ⟨ov', h'⟩ := (exists_relativeOverrides_iff hcount).2
    ⟨fun o ho => hfits o (hperm.mem_iff.2 ho), (hperm.map NeuronOverride.place).nodup_iff.1 hnd⟩
  have hsame : ov = ov' := Overrides.ext_kindAt fun l n => by
    rw [(kindAt_of_relativeOverrides h).2, (kindAt_of_relativeOverrides h').2,
      NeuronOverride.kindAt_perm hperm hnd]
  rw [h', hsame]

end RedundancyTest

end PiecewiseNet
