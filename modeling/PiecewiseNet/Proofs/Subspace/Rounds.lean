import PiecewiseNet.Proofs.Edits
import PiecewiseNet.Proofs.Subspace.Slices
import PiecewiseNet.Subspace

/-!
# Rounds of digits

The digits of a subspace go round the inputs. Each input keeps the slice of slices that its own
digits name, whatever the digits of the others are, and nothing else in the arena changes.

## Main definitions

- `Node.sliced`: a node whose bounds are a slice of slices.
- `turns`: the digits, each with the input whose turn it is.
- `digitsFor`: the digits of one input.
- `Query.IsBoxed`: the inputs of a query have proper bounds.

## Main statements

- `exists_splitAll`: digits below the number of slices can be used, and what they do.
- `digitsFor_turns`: the digits of an input in whole rounds.
- `subspaceDigits_eq_ok_iff`: which names are read.
-/

namespace PiecewiseNet

open Text

/-! ## Splitting inputs -/

/-- The node with bounds that are a slice of slices of its own. -/
def Node.sliced (n : Node Rat) (splits : Nat) (ds : List Nat) : Node Rat :=
  { n with bounds := n.bounds.sliced splits ds }

/-- The digits of a node. -/
def digitsFor (id : NodeId) (ps : List (NodeId × Nat)) : List Nat :=
  (ps.filter (·.1 == id)).map Prod.snd

section

variable {a b : Arena Rat} {s d : Nat} {id input : NodeId} {n : Node Rat}
  {ps : List (NodeId × Nat)}

@[simp] theorem Node.sliced_nil (n : Node Rat) (s : Nat) : n.sliced s [] = n := rfl

theorem Node.sliced_sliced_singleton (n : Node Rat) (s d : Nat) (ds : List Nat) :
    (n.sliced s [d]).sliced s ds = n.sliced s (d :: ds) := rfl

@[simp] theorem digitsFor_nil (id : NodeId) : digitsFor id [] = [] := rfl

theorem digitsFor_cons (id : NodeId) (p : NodeId × Nat) (ps : List (NodeId × Nat)) :
    digitsFor id (p :: ps) = if p.1 = id then p.2 :: digitsFor id ps else digitsFor id ps := by
  unfold digitsFor
  by_cases h : p.1 = id <;> simp [h]

theorem digitsFor_append (id : NodeId) (ps qs : List (NodeId × Nat)) :
    digitsFor id (ps ++ qs) = digitsFor id ps ++ digitsFor id qs := by
  simp [digitsFor]

theorem mem_digitsFor : d ∈ digitsFor id ps ↔ (id, d) ∈ ps := by
  simp [digitsFor]

theorem digitsFor_eq_nil (h : ∀ p ∈ ps, p.1 ≠ id) : digitsFor id ps = [] := by
  rw [digitsFor, List.filter_eq_nil_iff.2, List.map_nil]
  simpa using h

/-- A digit below the number of slices narrows an input to its slice. -/
theorem splitInput_yields (hn : a.get? input = some n) (hproper : n.bounds.IsProper) (hd : d < s) :
    (splitInput s input d).Yields a () (a.set input (n.sliced s [d])) := by
  obtain ⟨hnarrow, hmeets⟩ := Interval.narrowed_slice hproper hd
  obtain ⟨l, u, hbounds, -⟩ := hproper
  rw [hbounds, Interval.slice_mk] at hnarrow hmeets
  refine Edit.yields_bind.2 ⟨n, a, Edit.yields_node.2 ⟨hn, rfl⟩, ?_⟩
  simp only [hbounds]
  refine Edit.yields_limit.2 ⟨n, hn, ?_, ?_⟩
  · rw [hbounds, hnarrow]
    exact hmeets
  · rw [hbounds, hnarrow, Node.sliced, hbounds, Interval.sliced_cons, Interval.slice_mk,
      Interval.sliced_nil]

/-- Along digits below the number of slices each input is narrowed by its own digits, and no other
node changes. -/
theorem exists_splitAll (hds : ∀ p ∈ ps, p.2 < s)
    (hproper : ∀ p ∈ ps, ∃ n, a.get? p.1 = some n ∧ n.bounds.IsProper) :
    ∃ b, Edit.Yields (ps.forM fun p => splitInput s p.1 p.2) a PUnit.unit b ∧ b.size = a.size ∧
      ∀ id, b.get? id = (a.get? id).map (·.sliced s (digitsFor id ps)) := by
  induction ps generalizing a with
  | nil => exact ⟨a, Edit.yields_pure.2 ⟨rfl, rfl⟩, rfl, fun id => by simp⟩
  | cons p ps ih =>
    obtain ⟨hd, hds⟩ := List.forall_mem_cons.1 hds
    obtain ⟨⟨n, hn, hp⟩, hproper⟩ := List.forall_mem_cons.1 hproper
    have hget : ∀ id, (a.set p.1 (n.sliced s [p.2])).get? id =
        if p.1 = id then some (n.sliced s [p.2]) else a.get? id := by
      intro id
      simp only [Arena.get?_set, Arena.lt_size_of_get? hn, and_true]
    obtain ⟨b, hrest, hsize, hb⟩ := ih (a := a.set p.1 (n.sliced s [p.2])) hds <| by
      intro p' hp'
      obtain ⟨m, hm, hproper'⟩ := hproper p' hp'
      rw [hget]
      split
      · exact ⟨_, rfl, hp.slice s p.2⟩
      · exact ⟨m, hm, hproper'⟩
    refine ⟨b, Edit.yields_bind.2 ⟨_, _, splitInput_yields hn hp hd, hrest⟩, ?_, ?_⟩
    · rw [hsize, Arena.size_set]
    · intro id
      rw [hb, hget, digitsFor_cons]
      split
      · rename_i heq
        subst heq
        rw [hn, Option.map_some, Option.map_some, Node.sliced_sliced_singleton]
      · rfl

end

/-! ## Turns -/

/-- The digits, each with the input whose turn it is; `turn` holds the inputs that are still due in
this round. -/
def turns (inputs : List NodeId) : List NodeId → List Nat → List (NodeId × Nat)
  | _, [] => []
  | input :: turn, d :: ds => (input, d) :: turns inputs turn ds
  | [], d :: ds =>
    match inputs with
    | [] => []
    | input :: turn => (input, d) :: turns inputs turn ds

section

variable {inputs turn : List NodeId} {ds ds' : List Nat} {s : Nat}

theorem turns_nil_left (hne : inputs ≠ []) : turns inputs [] ds = turns inputs inputs ds := by
  cases ds with
  | nil => cases inputs <;> rfl
  | cons d ds =>
    cases inputs with
    | nil => exact absurd rfl hne
    | cons input rest => rfl

/-- The rounds split the inputs whose turn it is. -/
theorem splitRounds_eq_forM {α : Type} [Scalar α] (s : Nat) (inputs turn : List NodeId)
    (ds : List Nat) : splitRounds (α := α) s inputs turn ds =
      (turns inputs turn ds).forM fun p => splitInput s p.1 p.2 := by
  induction ds generalizing turn with
  | nil => cases turn <;> rfl
  | cons d ds ih =>
    cases turn with
    | cons input turn =>
      simp only [splitRounds, turns, ih]
      rfl
    | nil =>
      cases inputs with
      | nil => rfl
      | cons input rest =>
        simp only [splitRounds, turns, ih]
        rfl

/-- The turns go round the inputs. -/
theorem getElem?_turns_drop {k : Nat} (hk : k < inputs.length) (m : Nat) :
    (turns inputs (inputs.drop k) ds)[m]? =
      ds[m]?.bind fun d => inputs[(k + m) % inputs.length]?.map fun input => (input, d) := by
  induction ds generalizing k m with
  | nil => cases inputs.drop k <;> simp [turns]
  | cons d ds ih =>
    rw [List.drop_eq_getElem_cons hk, turns]
    cases m with
    | zero => simp [Nat.mod_eq_of_lt hk, hk]
    | succ m =>
      rw [List.getElem?_cons_succ, List.getElem?_cons_succ, ← Nat.add_assoc, Nat.add_right_comm]
      rcases Nat.lt_or_ge (k + 1) inputs.length with hlt | hge
      · exact ih hlt m
      · -- The round is over.
        have hend : k + 1 = inputs.length := by omega
        have hne : inputs ≠ [] := List.ne_nil_of_length_pos (by omega)
        have hfirst := ih (k := 0) (by omega) m
        rw [List.drop_zero] at hfirst
        rw [hend, List.drop_length, turns_nil_left hne, hfirst, Nat.zero_add, Nat.add_mod_left]

theorem getElem?_turns (hne : inputs ≠ []) (m : Nat) :
    (turns inputs inputs ds)[m]? =
      ds[m]?.bind fun d => inputs[m % inputs.length]?.map fun input => (input, d) := by
  have hdrop : turns inputs inputs ds = turns inputs (inputs.drop 0) ds := by rw [List.drop_zero]
  rw [hdrop, getElem?_turns_drop (List.length_pos_iff.2 hne) m, Nat.zero_add]

/-- A turn is taken by the input that is due, with its own digit. -/
theorem getElem?_turns_eq_some_iff (hne : inputs ≠ []) {m d : Nat} {id : NodeId} :
    (turns inputs inputs ds)[m]? = some (id, d) ↔
      ds[m]? = some d ∧ inputs[m % inputs.length]? = some id := by
  simp only [getElem?_turns hne, Option.bind_eq_some_iff, Option.map_eq_some_iff, Prod.mk.injEq]
  constructor
  · rintro ⟨_, hd, _, hid, rfl, rfl⟩
    exact ⟨hd, hid⟩
  · rintro ⟨hd, hid⟩
    exact ⟨d, hd, id, hid, rfl, rfl⟩

/-- The first digits have the first turns. -/
theorem turns_take (hne : inputs ≠ []) (m : Nat) :
    turns inputs inputs (ds.take m) = (turns inputs inputs ds).take m := by
  refine List.ext_getElem? fun j => ?_
  rw [getElem?_turns hne, List.getElem?_take, List.getElem?_take, getElem?_turns hne]
  split <;> rfl

/-- A turn is taken by an input, with one of the digits. -/
theorem mem_of_mem_turns (hne : inputs ≠ []) {p : NodeId × Nat} (hp : p ∈ turns inputs inputs ds) :
    p.1 ∈ inputs ∧ p.2 ∈ ds := by
  obtain ⟨m, hm⟩ := List.mem_iff_getElem?.1 hp
  obtain ⟨hd, hinput⟩ := (getElem?_turns_eq_some_iff hne).1 hm
  exact ⟨List.mem_of_getElem? hinput, List.mem_of_getElem? hd⟩

/-- A round that is still to be finished, and the rounds behind it. -/
theorem turns_append (hne : inputs ≠ []) (hlen : ds.length = turn.length) :
    turns inputs turn (ds ++ ds') = turn.zip ds ++ turns inputs inputs ds' := by
  induction ds generalizing turn with
  | nil =>
    obtain rfl := List.length_eq_zero_iff.1 hlen.symm
    rw [List.nil_append, List.zip_nil_right, List.nil_append, turns_nil_left hne]
  | cons d ds ih =>
    cases turn with
    | nil => cases hlen
    | cons input turn =>
      rw [List.cons_append, turns, ih (Nat.succ.inj hlen), List.zip_cons_cons, List.cons_append]

/-- In one round an input has one digit. -/
theorem digitsFor_zip (hnd : inputs.Nodup) (hlen : ds.length = inputs.length) {i : Nat}
    {id : NodeId} (hid : inputs[i]? = some id) : digitsFor id (inputs.zip ds) = [ds.getD i 0] := by
  induction inputs generalizing ds i with
  | nil => cases hid
  | cons input inputs ih =>
    obtain ⟨hnot, hnd⟩ := List.nodup_cons.1 hnd
    cases ds with
    | nil => cases hlen
    | cons d ds =>
      rw [List.zip_cons_cons, digitsFor_cons]
      cases i with
      | zero =>
        obtain rfl : input = id := Option.some.inj hid
        rw [if_pos rfl, digitsFor_eq_nil, List.getD_cons_zero]
        rintro ⟨j, e⟩ hp rfl
        exact hnot (List.of_mem_zip hp).1
      | succ i =>
        have hmem : id ∈ inputs := List.mem_of_getElem? hid
        rw [if_neg (by rintro rfl; exact hnot hmem), ih hnd (Nat.succ.inj hlen) hid,
          List.getD_cons_succ]

/-- In whole rounds an input has one digit in each. -/
theorem digitsFor_turns (hnd : inputs.Nodup) {k : Nat} (hlen : ds.length = k * inputs.length)
    {i : Nat} {id : NodeId} (hid : inputs[i]? = some id) :
    digitsFor id (turns inputs inputs ds) =
      (List.range k).map fun j => ds.getD (j * inputs.length + i) 0 := by
  have hne : inputs ≠ [] := List.ne_nil_of_mem (List.mem_of_getElem? hid)
  have hi : i < inputs.length := (List.getElem?_eq_some_iff.1 hid).1
  induction k generalizing ds with
  | zero =>
    rw [Nat.zero_mul] at hlen
    obtain rfl := List.length_eq_zero_iff.1 hlen
    cases inputs <;> rfl
  | succ k ih =>
    have hsplit := List.take_append_drop inputs.length ds
    rw [Nat.succ_mul] at hlen
    have hfirst : (ds.take inputs.length).length = inputs.length := by
      rw [List.length_take]
      omega
    have hrest : (ds.drop inputs.length).length = k * inputs.length := by
      rw [List.length_drop]
      omega
    have hdrop : ∀ j, (ds.drop inputs.length).getD j 0 = ds.getD (inputs.length + j) 0 := by
      intro j
      simp only [List.getD_eq_getElem?_getD, List.getElem?_drop]
    have htake : (ds.take inputs.length).getD i 0 = ds.getD i 0 := by
      simp only [List.getD_eq_getElem?_getD, List.getElem?_take_of_lt hi]
    rw [← hsplit, turns_append hne hfirst, hsplit, digitsFor_append, digitsFor_zip hnd hfirst hid,
      ih hrest, List.range_succ_eq_map, List.map_cons, List.map_map, htake, Nat.zero_mul,
      Nat.zero_add, List.singleton_append]
    refine congrArg _ (List.map_congr_left fun j _ => ?_)
    rw [hdrop, Function.comp_apply, Nat.succ_mul, ← Nat.add_assoc, Nat.add_comm inputs.length]

end

/-! ## Names -/

section

variable {α : Type} {s : Nat} {cs : List Char} {ds : List Nat} {digits : String}

/-- Exactly the decimal digits below the number of slices are read. -/
theorem subspaceDigits_eq_ok_iff {position : Nat} :
    subspaceDigits (α := α) s position cs = .ok ds ↔
      cs.map digit? = ds.map some ∧ ∀ d ∈ ds, d < s := by
  induction cs generalizing position ds with
  | nil => cases ds <;> simp [subspaceDigits]
  | cons c cs ih =>
    have hstep : subspaceDigits (α := α) s position (c :: cs) = .ok ds ↔
        ∃ d rest, digit? c = some d ∧ d < s ∧
          subspaceDigits (α := α) s (position + 1) cs = .ok rest ∧ ds = d :: rest := by
      rw [subspaceDigits]
      cases digit? c with
      | none => simp
      | some d =>
        by_cases hd : d < s
        · have hkeep : (some d).filter (fun d => decide (d < s)) = some d := by simp [hd]
          rw [hkeep]
          cases subspaceDigits (α := α) s (position + 1) cs <;> simp [hd, eq_comm]
        · have hdrop : (some d).filter (fun d => decide (d < s)) = none := by simpa using hd
          rw [hdrop]
          simp [hd]
    rw [hstep]
    constructor
    · rintro ⟨d, rest, hc, hd, hrest, rfl⟩
      obtain ⟨hcs, hds⟩ := ih.1 hrest
      exact ⟨by rw [List.map_cons, List.map_cons, hc, hcs], List.forall_mem_cons.2 ⟨hd, hds⟩⟩
    · rintro ⟨hcs, hds⟩
      cases ds with
      | nil => cases hcs
      | cons d rest =>
        rw [List.map_cons, List.map_cons, List.cons_eq_cons] at hcs
        obtain ⟨hd, hds⟩ := List.forall_mem_cons.1 hds
        exact ⟨d, rest, hcs.1, hd, ih.2 ⟨hcs.2, hds⟩, rfl⟩

theorem lt_of_digit? {c : Char} {d : Nat} (h : digit? c = some d) : d < 10 ∧ c.utf8Size = 1 := by
  unfold digit? at h
  split at h
  · rename_i hrange
    obtain ⟨-, hhigh⟩ := hrange
    obtain rfl := Option.some.inj h
    have hle : c.val.toNat ≤ 57 := hhigh
    refine ⟨?_, ?_⟩
    · have hsub : c.toNat - '0'.toNat = c.val.toNat - 48 := rfl
      omega
    · rw [Char.utf8Size_eq_one_iff, UInt32.le_iff_toNat_le]
      exact hle.trans (by decide)
  · cases h

/-- A digit takes one byte. -/
theorem utf8ByteSize_ofList_of_digits (h : cs.map digit? = ds.map some) :
    (String.ofList cs).utf8ByteSize = ds.length := by
  induction cs generalizing ds with
  | nil =>
    obtain rfl : ds = [] := by simpa using h.symm
    rfl
  | cons c cs ih =>
    cases ds with
    | nil => cases h
    | cons d ds =>
      rw [List.map_cons, List.map_cons, List.cons_eq_cons] at h
      rw [String.ofList_cons, String.utf8ByteSize_append, String.utf8ByteSize_singleton,
        (lt_of_digit? h.1).2, ih h.2, List.length_cons, Nat.add_comm]

theorem utf8ByteSize_of_digits (h : digits.toList.map digit? = ds.map some) :
    digits.utf8ByteSize = ds.length := by
  rw [← String.ofList_toList (s := digits)]
  exact utf8ByteSize_ofList_of_digits h

end

/-! ## Subspaces -/

/-- The inputs of the query have proper bounds. -/
def Query.IsBoxed (q : Query Rat) (a : Arena Rat) : Prop :=
  ∀ id ∈ q.inputs, ∃ n, a.get? id = some n ∧ n.bounds.IsProper

section

variable {q : Query Rat} {a b : Arena Rat} {s k : Nat} {ds : List Nat} {digits : String}

/-- A name is accepted when its digits are read, are as many as whole rounds take, and can be
used. -/
theorem applySubspace_yields_iff :
    (applySubspace q digits s).Yields a () b ↔ q.inputs ≠ [] ∧
      digits.utf8ByteSize % q.inputs.length = 0 ∧ ∃ ds, digits.toList.map digit? = ds.map some ∧
        (∀ d ∈ ds, d < s) ∧ (splitRounds s q.inputs q.inputs ds).Yields a () b := by
  unfold applySubspace
  by_cases hwidth : q.inputs.length = 0 ∨ digits.utf8ByteSize % q.inputs.length ≠ 0
  · simp only [if_pos hwidth, Edit.not_yields_throw, false_iff]
    rintro ⟨hne, hwhole, -⟩
    rcases hwidth with hzero | hnot
    · exact hne (List.length_eq_zero_iff.1 hzero)
    · exact hnot hwhole
  · simp only [if_neg hwidth, Edit.yields_bind, Edit.yields_ofExcept, subspaceDigits_eq_ok_iff]
    rw [not_or, not_not, List.length_eq_zero_iff] at hwidth
    constructor
    · rintro ⟨ds, _, ⟨⟨hchars, hds⟩, rfl⟩, h⟩
      exact ⟨hwidth.1, hwidth.2, ds, hchars, hds, h⟩
    · rintro ⟨-, -, ds, hchars, hds, h⟩
      exact ⟨ds, a, ⟨⟨hchars, hds⟩, rfl⟩, h⟩

/-- Digits below the number of slices can be used, and narrow each input by its own digits. -/
theorem exists_splitRounds (hne : q.inputs ≠ []) (hbox : q.IsBoxed a) (hds : ∀ d ∈ ds, d < s) :
    ∃ b, (splitRounds s q.inputs q.inputs ds).Yields a () b ∧ b.size = a.size ∧
      ∀ id, b.get? id =
        (a.get? id).map (·.sliced s (digitsFor id (turns q.inputs q.inputs ds))) := by
  rw [splitRounds_eq_forM]
  refine exists_splitAll ?_ ?_
  · exact fun p hp => hds p.2 (mem_of_mem_turns hne hp).2
  · exact fun p hp => hbox p.1 (mem_of_mem_turns hne hp).1

/-- Whole rounds of digits are accepted, and narrow each input by its digits in these rounds. -/
theorem exists_applySubspace (hne : q.inputs ≠ []) (hnd : q.inputs.Nodup) (hbox : q.IsBoxed a)
    (hdigits : digits.toList.map digit? = ds.map some) (hds : ∀ d ∈ ds, d < s)
    (hlen : ds.length = k * q.inputs.length) :
    ∃ b, (applySubspace q digits s).Yields a () b ∧ b.size = a.size ∧
      (∀ i id, q.inputs[i]? = some id → b.get? id = (a.get? id).map
        (·.sliced s ((List.range k).map fun j => ds.getD (j * q.inputs.length + i) 0))) ∧
      ∀ id ∉ q.inputs, b.get? id = a.get? id := by
  obtain ⟨b, hrun, hsize, hb⟩ := exists_splitRounds hne hbox hds
  refine ⟨b, applySubspace_yields_iff.2 ⟨hne, ?_, ds, hdigits, hds, hrun⟩, hsize, ?_, ?_⟩
  · rw [utf8ByteSize_of_digits hdigits, hlen, Nat.mul_mod_left]
  · intro i id hid
    rw [hb, digitsFor_turns hnd hlen hid]
  · intro id hid
    have hnone : digitsFor id (turns q.inputs q.inputs ds) = [] :=
      digitsFor_eq_nil fun p hp heq => hid (heq ▸ (mem_of_mem_turns hne hp).1)
    rw [hb, hnone]
    simp

/-- The interval that an input has when its turn comes is proper, and narrowing it gives the slice
that the digit names. -/
theorem exists_narrowing (hne : q.inputs ≠ []) (hbox : q.IsBoxed a) (hds : ∀ d ∈ ds, d < s)
    {m d : Nat} (hd : ds[m]? = some d) :
    ∃ c id n, (splitRounds s q.inputs q.inputs (ds.take m)).Yields a () c ∧
      q.inputs[m % q.inputs.length]? = some id ∧ c.get? id = some n ∧ n.bounds.IsProper ∧
      n.bounds.narrowed (n.bounds.slice s d).lower (n.bounds.slice s d).upper =
        n.bounds.slice s d ∧ (n.bounds.slice s d).isEmpty = false := by
  obtain ⟨c, hrun, -, hc⟩ := exists_splitRounds hne hbox fun e he => hds e (List.mem_of_mem_take he)
  have hlt : m % q.inputs.length < q.inputs.length := Nat.mod_lt _ (List.length_pos_iff.2 hne)
  obtain ⟨n, hn, hproper⟩ := hbox _ (List.getElem_mem hlt)
  have hsliced := hproper.sliced s
    (digitsFor q.inputs[m % q.inputs.length] (turns q.inputs q.inputs (ds.take m)))
  refine ⟨c, _, n.sliced s _, hrun, List.getElem?_eq_getElem hlt, ?_, hsliced, ?_⟩
  · rw [hc, hn, Option.map_some]
  · exact Interval.narrowed_slice hsliced (hds d (List.mem_of_getElem? hd))

/-- Whole rounds of decimal digits below the number of slices are accepted. The input with index
`i` keeps, of its interval, what the digits at its index in all rounds say as the digits of a
fraction, and no other node changes. On the way every interval is narrowed to exactly the slice that
the next digit names, which always holds a value. -/
theorem applySubspace_bounds {splits rounds : Nat} (hne : q.inputs ≠ []) (hnd : q.inputs.Nodup)
    (hbox : q.IsBoxed a) (hdigits : digits.toList.map digit? = ds.map some)
    (hds : ∀ d ∈ ds, d < splits) (hlen : ds.length = rounds * q.inputs.length) :
    ∃ b, (applySubspace q digits splits).Yields a () b ∧ b.size = a.size ∧
      (∀ i id n l u, q.inputs[i]? = some id → a.get? id = some n → n.bounds = ⟨some l, some u⟩ →
        ∃ start, start = l + (u - l) * ∑ j ∈ Finset.range rounds,
            (ds.getD (j * q.inputs.length + i) 0 : Rat) / splits ^ (j + 1) ∧
          b.get? id =
            some { n with bounds := ⟨some start, some (start + (u - l) / splits ^ rounds)⟩ }) ∧
      (∀ id ∉ q.inputs, b.get? id = a.get? id) ∧
      ∀ m d, ds[m]? = some d → ∃ c id n,
        (splitRounds splits q.inputs q.inputs (ds.take m)).Yields a () c ∧
          q.inputs[m % q.inputs.length]? = some id ∧ c.get? id = some n ∧ n.bounds.IsProper ∧
          n.bounds.narrowed (n.bounds.slice splits d).lower (n.bounds.slice splits d).upper =
            n.bounds.slice splits d ∧ (n.bounds.slice splits d).isEmpty = false := by
  obtain ⟨b, hrun, hsize, hinputs, hother⟩ :=
    exists_applySubspace hne hnd hbox hdigits hds hlen
  refine ⟨b, hrun, hsize, ?_, hother, fun m d => exists_narrowing hne hbox hds⟩
  intro i id n l u hid hn hbounds
  refine ⟨_, rfl, ?_⟩
  rw [hinputs i id hid, hn, Option.map_some, Node.sliced, hbounds, Interval.sliced_mk,
    fraction_map_range, List.length_map, List.length_range]

end

/-- Two inputs and their sum. -/
def boxed : Query Rat where
  nodes := [0, 1, 2]
  inputs := [0, 1]
  outputs := [2]
  equations := []
  nodes_nodup := by decide
  inputs_subset := by decide
  outputs_subset := by decide
  terms_subset := by decide

/-- The nodes of the query. -/
def boxedArena : Arena Rat :=
  ⟨#[{ kind := .plain, bounds := ⟨some 0, some 8⟩ },
    { kind := .plain, bounds := ⟨some (-1), some 1⟩ }, { kind := .affine [(1, 0), (1, 1)] 0 }]⟩

theorem isBoxed_boxed : boxed.IsBoxed boxedArena := by
  intro id hid
  have hcases : id = 0 ∨ id = 1 := by simpa [boxed] using hid
  rcases hcases with rfl | rfl
  · exact ⟨_, rfl, 0, 8, rfl, by decide⟩
  · exact ⟨_, rfl, -1, 1, rfl, by decide⟩

/-- Of eight the first half of the second half is left. -/
theorem applySubspace_bounds_boxed :
    boxed.inputs ≠ [] ∧ boxed.inputs.Nodup ∧ boxed.IsBoxed boxedArena ∧
      "1001".toList.map digit? = [1, 0, 0, 1].map some ∧
        ∃ b, (applySubspace boxed "1001" 2).Yields boxedArena () b ∧
          (b.get? 0).map Node.bounds = some ⟨some 4, some 6⟩ ∧
            (b.get? 1).map Node.bounds = some ⟨some (-1 / 2), some 0⟩ := by
  have hdigits : "1001".toList.map digit? = [1, 0, 0, 1].map some := by decide
  have hbelow : ∀ d ∈ [1, 0, 0, 1], d < 2 := by decide
  have hlen : [1, 0, 0, 1].length = 2 * boxed.inputs.length := by rfl
  obtain ⟨b, hrun, -, hinputs, -⟩ :=
    applySubspace_bounds (by decide) (by decide) isBoxed_boxed hdigits hbelow hlen
  obtain ⟨start, hstart, hget⟩ := hinputs 0 0 _ 0 8 rfl rfl rfl
  obtain ⟨start', hstart', hget'⟩ := hinputs 1 1 _ (-1) 1 rfl rfl rfl
  refine ⟨by decide, by decide, isBoxed_boxed, hdigits, b, hrun, ?_, ?_⟩
  · rw [hget, hstart]
    decide +kernel
  · rw [hget', hstart']
    decide +kernel

end PiecewiseNet
