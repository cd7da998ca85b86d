import PiecewiseNet.Proofs.Subspace.Rounds
import Mathlib.Data.List.GetD

/-!
# Covering subspaces

The slices of an interval cover it, so all names of a length together cover the input box, as far
as names exist: a name is written in decimal digits, so where there are more than ten slices, those
behind the tenth have no name.

## Main definitions

- `Query.InBox`: values that lie within the bounds of the inputs.
- `interleaved`: the digits of several inputs, round after round.

## Main statements

- `exists_name`: digits below ten can be written.
- `lt_of_named`: with more than ten slices the ends of the inputs are never reached.
- `subspaces_cover_iff`: when the subspaces cover the box.
-/

namespace PiecewiseNet

open Text

/-- The values of the inputs lie within the bounds. -/
def Query.InBox (q : Query Rat) (a : Arena Rat) (p : NodeId → Rat) : Prop :=
  ∀ id ∈ q.inputs, ∃ n, a.get? id = some n ∧ n.bounds.Holds (p id)

/-! ## Names -/

theorem digit?_digitChar {d : Nat} (h : d < 10) : digit? (Nat.digitChar d) = some d := by
  revert d
  decide

/-- Digits below ten can be written. -/
theorem exists_name {ds : List Nat} (h : ∀ d ∈ ds, d < 10) :
    ∃ digits : String, digits.length = ds.length ∧ digits.toList.map digit? = ds.map some := by
  refine ⟨String.ofList (ds.map Nat.digitChar), ?_, ?_⟩
  · rw [String.length_ofList, List.length_map]
  · rw [String.toList_ofList, List.map_map]
    exact List.map_congr_left fun d hd => digit?_digitChar (h d hd)

/-- What is read are digits below ten, one from each character. -/
theorem lt_ten_of_name {ds : List Nat} {digits : String}
    (h : digits.toList.map digit? = ds.map some) :
    ds.length = digits.length ∧ ∀ d ∈ ds, d < 10 := by
  refine ⟨?_, fun d hd => ?_⟩
  · have hlen := congrArg List.length h
    rw [List.length_map, List.length_map, String.length_toList] at hlen
    exact hlen.symm
  · have hmem : some d ∈ digits.toList.map digit? := by
      rw [h]
      exact List.mem_map_of_mem hd
    obtain ⟨c, -, hc⟩ := List.mem_map.1 hmem
    exact (lt_of_digit? hc).1

/-- The digits `f i j` of input `i` in round `j`, for `width` inputs. -/
def interleaved (width rounds : Nat) (f : Nat → Nat → Nat) : List Nat :=
  (List.range (rounds * width)).map fun m => f (m % width) (m / width)

section

variable {width rounds : Nat} {f : Nat → Nat → Nat}

theorem length_interleaved (width rounds : Nat) (f : Nat → Nat → Nat) :
    (interleaved width rounds f).length = rounds * width := by
  rw [interleaved, List.length_map, List.length_range]

theorem getD_interleaved {i j : Nat} (hi : i < width) (hj : j < rounds) :
    (interleaved width rounds f).getD (j * width + i) 0 = f i j := by
  have hlt : j * width + i < rounds * width := by
    calc j * width + i < j * width + width := Nat.add_lt_add_left hi _
      _ = (j + 1) * width := (Nat.succ_mul j width).symm
      _ ≤ rounds * width := Nat.mul_le_mul_right width hj
  have hmod : (j * width + i) % width = i := by
    rw [Nat.add_comm, Nat.add_mul_mod_self_right, Nat.mod_eq_of_lt hi]
  have hdiv : (j * width + i) / width = j := by
    rw [Nat.add_comm, Nat.add_mul_div_right _ _ (Nat.zero_lt_of_lt hi), Nat.div_eq_of_lt hi,
      Nat.zero_add]
  rw [interleaved, List.getD_eq_getElem?_getD, List.getElem?_map, List.getElem?_range hlt,
    Option.map_some, Option.getD_some, hmod, hdiv]

/-- Read back from the rounds, the digits of an input are its own. -/
theorem map_getD_interleaved {i : Nat} (hi : i < width) {ds : List Nat} (hlen : ds.length = rounds)
    (hf : ∀ j, f i j = ds.getD j 0) :
    ((List.range rounds).map fun j => (interleaved width rounds f).getD (j * width + i) 0) =
      ds := by
  refine List.ext_getElem ?_ fun j hj hj' => ?_
  · rw [List.length_map, List.length_range, hlen]
  · rw [List.getElem_map, List.getElem_range, getD_interleaved hi (hlen ▸ hj'), hf,
      List.getD_eq_getElem _ _ hj']

/-- Every digit is one of an input in a round. -/
theorem exists_of_mem_interleaved {d : Nat} (hd : d ∈ interleaved width rounds f) :
    ∃ i < width, ∃ j < rounds, f i j = d := by
  obtain ⟨m, hm, rfl⟩ := List.mem_map.1 hd
  rw [List.mem_range] at hm
  have hpos : 0 < width := Nat.pos_of_ne_zero fun h => by simp [h] at hm
  exact ⟨m % width, Nat.mod_lt m hpos, m / width, Nat.div_lt_of_lt_mul (Nat.mul_comm rounds _ ▸ hm),
    rfl⟩

end

/-! ## The subspaces cover the box -/

section

variable {q : Query Rat} {a b : Arena Rat} {splits rounds : Nat} {digits : String}
  {p : NodeId → Rat}

/-- Every input has digits that name a slice in which its value lies. Of an interval with one value
this is the first slice in every round. -/
theorem exists_digits (hs : 0 < splits) (hbox : q.IsBoxed a) (hp : q.InBox a p) (rounds : Nat) :
    ∃ g : NodeId → List Nat, ∀ id ∈ q.inputs, (g id).length = rounds ∧
      (∀ d ∈ g id, d < splits) ∧ ∀ n ∈ a.get? id,
        (n.bounds.lower = n.bounds.upper → ∀ d ∈ g id, d = 0) ∧
          (n.bounds.sliced splits (g id)).Holds (p id) := by
  have hone : ∀ id ∈ q.inputs, ∃ ds : List Nat, ds.length = rounds ∧ (∀ d ∈ ds, d < splits) ∧
      ∀ n ∈ a.get? id, (n.bounds.lower = n.bounds.upper → ∀ d ∈ ds, d = 0) ∧
        (n.bounds.sliced splits ds).Holds (p id) := by
    intro id hid
    obtain ⟨n, hn, hproper⟩ := hbox id hid
    obtain ⟨m, hm, hholds⟩ := hp id hid
    obtain rfl : n = m := Option.some.inj (hn.symm.trans hm)
    obtain ⟨ds, hlen, hds, hrest⟩ := Interval.exists_sliced hs hproper hholds rounds
    refine ⟨ds, hlen, hds, fun m hm => ?_⟩
    obtain rfl : n = m := Option.some.inj (hn.symm.trans hm)
    exact hrest
  choose! g hg using hone
  exact ⟨g, hg⟩

/-- Where all slices that are needed have a name, every point of the box lies in a subspace. -/
theorem exists_subspace (hs : 0 < splits) (hne : q.inputs ≠ []) (hnd : q.inputs.Nodup)
    (hbox : q.IsBoxed a) (hnames : splits ≤ 10 ∨ rounds = 0 ∨ ∀ id ∈ q.inputs, ∀ n ∈ a.get? id,
      n.bounds.lower = n.bounds.upper) (hp : q.InBox a p) :
    ∃ digits b, digits.length = rounds * q.inputs.length ∧
      (applySubspace q digits splits).Yields a () b ∧ q.InBox b p := by
  obtain ⟨g, hg⟩ := exists_digits hs hbox hp rounds
  have hinput : ∀ i < q.inputs.length, q.inputs.getD i 0 ∈ q.inputs := by
    intro i hi
    rw [List.getD_eq_getElem _ _ hi]
    exact List.getElem_mem hi
  let f : Nat → Nat → Nat := fun i j => (g (q.inputs.getD i 0)).getD j 0
  have hmem : ∀ d ∈ interleaved q.inputs.length rounds f, 0 < rounds ∧
      ∃ id ∈ q.inputs, d ∈ g id := by
    intro d hd
    obtain ⟨i, hi, j, hj, rfl⟩ := exists_of_mem_interleaved hd
    refine ⟨Nat.zero_lt_of_lt hj, _, hinput i hi, ?_⟩
    have hlt : j < (g (q.inputs.getD i 0)).length := by rwa [(hg _ (hinput i hi)).1]
    rw [show f i j = (g (q.inputs.getD i 0))[j] from List.getD_eq_getElem _ _ hlt]
    exact List.getElem_mem hlt
  have hbelow : ∀ d ∈ interleaved q.inputs.length rounds f, d < splits := by
    intro d hd
    obtain ⟨-, id, hid, hdg⟩ := hmem d hd
    exact (hg id hid).2.1 d hdg
  have hten : ∀ d ∈ interleaved q.inputs.length rounds f, d < 10 := by
    intro d hd
    obtain ⟨hpos, id, hid, hdg⟩ := hmem d hd
    rcases hnames with hle | hzero | hsingle
    · exact (hbelow d hd).trans_le hle
    · exact absurd hzero hpos.ne'
    · obtain ⟨n, hn, -⟩ := hbox id hid
      rw [((hg id hid).2.2 n hn).1 (hsingle id hid n hn) d hdg]
      decide
  obtain ⟨digits, hlength, hdigits⟩ := exists_name hten
  obtain ⟨b, hrun, -, hb, -⟩ :=
    exists_applySubspace hne hnd hbox hdigits hbelow (length_interleaved ..)
  refine ⟨digits, b, hlength.trans (length_interleaved ..), hrun, fun id hid => ?_⟩
  obtain ⟨n, hn, -⟩ := hbox id hid
  obtain ⟨i, hi⟩ := List.mem_iff_getElem?.1 hid
  have hlt : i < q.inputs.length := (List.getElem?_eq_some_iff.1 hi).1
  have hget : q.inputs.getD i 0 = id := by
    rw [List.getD_eq_getElem?_getD, hi, Option.getD_some]
  have hown : (List.range rounds).map (fun j =>
      (interleaved q.inputs.length rounds f).getD (j * q.inputs.length + i) 0) = g id := by
    refine map_getD_interleaved hlt (hg id hid).1 fun j => ?_
    show (g (q.inputs.getD i 0)).getD j 0 = _
    rw [hget]
  refine ⟨n.sliced splits (g id), ?_, ((hg id hid).2.2 n hn).2⟩
  rw [hb i id hi, hown, hn, Option.map_some]

/-- With more than ten slices no subspace reaches the upper end of an interval that holds several
values: the last slice that has a name ends before. -/
theorem lt_of_named (hs : 10 < splits) (hrounds : rounds ≠ 0) (hne : q.inputs ≠ [])
    (hnd : q.inputs.Nodup) (hbox : q.IsBoxed a) (hlength : digits.length = rounds * q.inputs.length)
    (hrun : (applySubspace q digits splits).Yields a () b) {id : NodeId} (hid : id ∈ q.inputs)
    {n : Node Rat} {l u : Rat} (hn : a.get? id = some n) (hbounds : n.bounds = ⟨some l, some u⟩)
    (hlt : l < u) {m : Node Rat} (hm : b.get? id = some m) {x : Rat} (hx : m.bounds.Holds x) :
    x < u := by
  obtain ⟨-, -, ds, hdigits, hds, -⟩ := applySubspace_yields_iff.1 hrun
  obtain ⟨hlen, hten⟩ := lt_ten_of_name hdigits
  obtain ⟨b', hrun', -, hb, -⟩ :=
    exists_applySubspace hne hnd hbox hdigits hds (hlen.trans hlength)
  obtain ⟨-, rfl⟩ := hrun.unique hrun'
  obtain ⟨i, hi⟩ := List.mem_iff_getElem?.1 hid
  have hget := hb i id hi
  generalize hown : (List.range rounds).map
    (fun j => ds.getD (j * q.inputs.length + i) 0) = own at hget
  rw [hm, hn, Option.map_some, Option.some.injEq] at hget
  have hownLength : own.length = rounds := by
    rw [← hown, List.length_map, List.length_range]
  have hbelow : ∀ d ∈ own, d + 1 < splits := by
    intro d hd
    rw [← hown] at hd
    obtain ⟨j, -, rfl⟩ := List.mem_map.1 hd
    rw [List.getD_eq_getElem?_getD]
    cases hdigit : ds[j * q.inputs.length + i]? with
    | none =>
      rw [Option.getD_none]
      omega
    | some d =>
      have := hten d (List.mem_of_getElem? hdigit)
      rw [Option.getD_some]
      omega
  have hfraction := fraction_add_lt_one (List.ne_nil_of_length_pos (by omega)) hbelow
  rw [hget, Node.sliced, hbounds, Interval.sliced_mk, Interval.holds_mk_iff] at hx
  have hend : l + (u - l) * fraction splits own + (u - l) / splits ^ own.length =
      l + (u - l) * (fraction splits own + 1 / splits ^ own.length) := by
    ring
  have hwidth : 0 < u - l := sub_pos.2 hlt
  have hless := mul_lt_mul_of_pos_left hfraction hwidth
  linarith [hx.2]

/-- The corner of the box at which all inputs are greatest. -/
theorem exists_corner (hbox : q.IsBoxed a) :
    ∃ p, q.InBox a p ∧ ∀ id ∈ q.inputs, ∀ n ∈ a.get? id, n.bounds.upper = some (p id) := by
  have hone : ∀ id ∈ q.inputs, ∃ x : Rat, ∃ n, a.get? id = some n ∧ n.bounds.Holds x ∧
      n.bounds.upper = some x := by
    intro id hid
    obtain ⟨n, hn, l, u, hbounds, hle⟩ := hbox id hid
    refine ⟨u, n, hn, ?_, by rw [hbounds]⟩
    rw [hbounds, Interval.holds_mk_iff]
    exact ⟨hle, le_refl u⟩
  choose! p hp using hone
  refine ⟨p, fun id hid => ?_, fun id hid n hn => ?_⟩
  · obtain ⟨n, hn, hholds, -⟩ := hp id hid
    exact ⟨n, hn, hholds⟩
  · obtain ⟨m, hm, -, hupper⟩ := hp id hid
    obtain rfl : m = n := Option.some.inj (hm.symm.trans hn)
    exact hupper

/-- Every point of the box lies in an accepted subspace with a given number of rounds exactly when
there are at most ten slices, or no round, or no input has several values: a slice is named by one
decimal digit. -/
theorem subspaces_cover_iff (hs : 1 ≤ splits) (hne : q.inputs ≠ []) (hnd : q.inputs.Nodup)
    (hbox : q.IsBoxed a) (rounds : Nat) :
    (∀ p, q.InBox a p → ∃ digits b, digits.length = rounds * q.inputs.length ∧
        (applySubspace q digits splits).Yields a () b ∧ q.InBox b p) ↔
      splits ≤ 10 ∨ rounds = 0 ∨
        ∀ id ∈ q.inputs, ∀ n ∈ a.get? id, n.bounds.lower = n.bounds.upper := by
  refine ⟨fun hcover => ?_, fun hnames p hp => exists_subspace hs hne hnd hbox hnames hp⟩
  by_contra hnot
  obtain ⟨hmany, hrounds, hwide⟩ : ¬splits ≤ 10 ∧ rounds ≠ 0 ∧
      ¬∀ id ∈ q.inputs, ∀ n ∈ a.get? id, n.bounds.lower = n.bounds.upper := by
    simpa only [not_or] using hnot
  -- The corner at which all inputs are greatest lies in no subspace.
  obtain ⟨p, hp, hupper⟩ := exists_corner hbox
  obtain ⟨digits, b, hlength, hrun, hin⟩ := hcover p hp
  refine hwide fun id hid n hn => ?_
  by_contra hne'
  obtain ⟨n', hn', l, u, hbounds, hle⟩ := hbox id hid
  obtain rfl : n = n' := Option.some.inj (hn.symm.trans hn')
  have hlt : l < u := lt_of_le_of_ne hle fun h => hne' (by rw [hbounds, h])
  have heq : u = p id := by simpa [hbounds] using hupper id hid n hn
  obtain ⟨m, hm, hholds⟩ := hin id hid
  have hless := lt_of_named (Nat.lt_of_not_le hmany) hrounds hne hnd hbox hlength hrun hid hn
    hbounds hlt hm hholds
  exact absurd heq hless.ne'

end

/-- With ten slices the greatest corner of the box lies in a subspace. -/
theorem subspaces_cover_iff_boxed :
    1 ≤ 10 ∧ boxed.inputs ≠ [] ∧ boxed.inputs.Nodup ∧ boxed.IsBoxed boxedArena ∧
      ∃ digits b, digits.length = 2 * boxed.inputs.length ∧
        (applySubspace boxed digits 10).Yields boxedArena () b ∧
          boxed.InBox b fun id => if id = 0 then 8 else 1 := by
  have hin : boxed.InBox boxedArena fun id => if id = 0 then 8 else 1 := by
    intro id hid
    have hcases : id = 0 ∨ id = 1 := by simpa [boxed] using hid
    rcases hcases with rfl | rfl
    · exact ⟨_, rfl, Interval.holds_mk_iff.2 ⟨by decide, by decide⟩⟩
    · exact ⟨_, rfl, Interval.holds_mk_iff.2 ⟨by decide, by decide⟩⟩
  exact ⟨by decide, by decide, by decide, isBoxed_boxed,
    (subspaces_cover_iff (by decide) (by decide) (by decide) isBoxed_boxed 2).2
      (.inl (Nat.le_refl 10)) _ hin⟩

/-- One input. -/
def lone : Query Rat where
  nodes := [0]
  inputs := [0]
  outputs := [0]
  equations := []
  nodes_nodup := by decide
  inputs_subset := by decide
  outputs_subset := by decide
  terms_subset := by decide

/-- With eleven slices of the interval from zero to eleven, eleven lies in none that has a name. -/
theorem subspace_without_name :
    ∃ a : Arena Rat, lone.inputs ≠ [] ∧ lone.inputs.Nodup ∧ lone.IsBoxed a ∧
      (lone.InBox a fun _ => 11) ∧
        ¬∃ digits b, digits.length = 1 * lone.inputs.length ∧
          (applySubspace lone digits 11).Yields a () b ∧ lone.InBox b fun _ => 11 := by
  have hbox : lone.IsBoxed ⟨#[{ kind := .plain, bounds := ⟨some 0, some 11⟩ }]⟩ := by
    intro id hid
    obtain rfl : id = 0 := List.mem_singleton.1 hid
    exact ⟨_, rfl, 0, 11, rfl, by decide⟩
  refine ⟨_, by decide, by decide, hbox, ?_, ?_⟩
  · intro id hid
    obtain rfl : id = 0 := List.mem_singleton.1 hid
    exact ⟨_, rfl, Interval.holds_mk_iff.2 ⟨by decide, by decide⟩⟩
  · rintro ⟨digits, b, hlength, hrun, hin⟩
    obtain ⟨m, hm, hholds⟩ := hin 0 (List.mem_singleton_self 0)
    have hless := lt_of_named (by decide) Nat.one_ne_zero (by decide) (by decide) hbox hlength hrun
      (List.mem_singleton_self 0) rfl rfl (by decide) hm hholds
    exact absurd hless (by decide)

end PiecewiseNet
