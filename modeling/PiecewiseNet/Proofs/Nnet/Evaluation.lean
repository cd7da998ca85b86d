import PiecewiseNet.Proofs.Evaluation.Networks
import PiecewiseNet.Proofs.Nnet.Building
import PiecewiseNet.Proofs.Numeral

/-!
# What imported networks compute

A weight file describes a function: every layer but the last one takes the positive parts of its
weighted sums plus biases, and the last one the sums themselves. Evaluating the network that was
imported from the file computes this function.

## Main definitions

- `NnetFile.compute`: the function that a file describes.

## Main statements

- `NnetFile.feedforward_of_describes`: networks of weight files are evaluated forwards.
- `NnetFile.forward_of_importText`: evaluation computes what the file describes.
-/

namespace PiecewiseNet.NnetFile

/-! ## The function of a file -/

section

variable {α : Type} [Scalar α]

/-- The sum of values, each times its weight, from the left. -/
def weightedSum (row values : List α) : α :=
  (row.zip values).foldl (fun acc p => acc + p.1 * p.2) 0

/-- The values of a layer: one weighted sum plus bias for each row, or the positive part of it where
the layer is not the last one. -/
def layerValues (isLast : Bool) (rows : List (List α)) (biases values : List α) : List α :=
  List.zipWith (fun row bias =>
    let sum := weightedSum row values + bias
    if isLast then sum else Scalar.positivePart sum) rows biases

/-- The values of the last layer, from the values of the layer before the given ones. -/
def lastValues : List (List (List α)) → List (List α) → List α → List α
  | rows :: weights, bs :: biases, values =>
    lastValues weights biases (layerValues weights.isEmpty rows bs values)
  | _, _, values => values

/-- The value of an input: the given one, unless the scaled range of the input is one value. -/
def inputValue (f : NnetFile α) (i : Nat) (x : α) : α :=
  match f.inputBounds? i with
  | some (low, high) => if low == high then low else x
  | none => x

/-- The function that a file describes. -/
def compute (f : NnetFile α) (xs : List α) : List α :=
  lastValues f.weights f.biases (xs.mapIdx f.inputValue)

/-! ## Nodes of described networks -/

variable {f : NnetFile α} {a : Arena α} {net : Network}

/-- The inputs are neurons of one node each. -/
theorem InputsBuilt.heads {i : Nat} {l : Layer} (h : InputsBuilt f a i l) :
    l.filterMap List.head? = l.flatten ∧ l.filterMap List.getLast? = l.flatten := by
  induction h with
  | nil => exact ⟨rfl, rfl⟩
  | cons _ _ _ _ _ _ ih => exact ⟨congrArg _ ih.1, congrArg _ ih.2⟩

theorem InputsBuilt.isFree {i : Nat} {l : Layer} (h : InputsBuilt f a i l) :
    ∀ id ∈ l.flatten, Network.IsFree a id := by
  induction h with
  | nil => simp
  | cons _ hid hkind _ _ _ ih => exact List.forall_mem_cons.2 ⟨⟨_, hid, hkind⟩, ih⟩

/-- The ranges of the inputs can be met. -/
theorem InputsBuilt.meets {i : Nat} {l : Layer} (h : InputsBuilt f a i l) :
    ∀ id ∈ l.flatten, ∃ n, a.get? id = some n ∧ n.bounds.isEmpty = false := by
  induction h with
  | nil => simp
  | cons _ hid _ _ hmeets _ ih => exact List.forall_mem_cons.2 ⟨⟨_, hid, hmeets⟩, ih⟩

/-- The node is in the arena and is neither free nor an absolute value; its bounds do not coincide,
and they can be met. -/
def IsComputed (a : Arena α) (id : NodeId) : Prop :=
  ∃ n, a.get? id = some n ∧ n.kind ≠ .plain ∧ ConstraintSystem.isAbs n = false ∧
    n.bounds.fixedValue? = none ∧ n.bounds.isEmpty = false

theorem NeuronBuilt.isComputed {previous : List NodeId} {row : List α} {bias : α} {isLast : Bool}
    {c : Chain} (h : NeuronBuilt a previous row bias isLast c) : ∀ id ∈ c, IsComputed a id := by
  have haffine : ∀ {b n}, a.get? b = some n → n.kind = .affine (row.zip previous) bias →
      n.bounds = .unbounded → IsComputed a b := by
    intro b n hb hkind hbounds
    exact ⟨n, hb, by simp [hkind], by simp [ConstraintSystem.isAbs, hkind], by rw [hbounds]; rfl,
      by rw [hbounds]; rfl⟩
  cases h with
  | last hb hkind hbounds => simpa using haffine hb hkind hbounds
  | hidden hb hkind hbounds hr hrectifies hpositive =>
    refine List.forall_mem_cons.2 ⟨haffine hb hkind hbounds, List.forall_mem_singleton.2 ?_⟩
    exact ⟨_, hr, by simp [hrectifies], by simp [ConstraintSystem.isAbs, hrectifies],
      by rw [hpositive]; rfl, by rw [hpositive]; rfl⟩

theorem LayerBuilt.isComputed {previous : List NodeId} {rows : List (List α)} {biases : List α}
    {isLast : Bool} {l : Layer} (h : LayerBuilt a previous isLast rows biases l) :
    ∀ id ∈ l.flatten, IsComputed a id := by
  induction h with
  | nil => simp
  | cons _ hneuron _ ih =>
    rw [List.flatten_cons, List.forall_mem_append]
    exact ⟨hneuron.isComputed, ih⟩

theorem LayersBuilt.isComputed {previous : Layer} {weights : List (List (List α))}
    {biases : List (List α)} {ls : List Layer} (h : LayersBuilt a previous weights biases ls) :
    ∀ id ∈ ls.flatten.flatten, IsComputed a id := by
  induction h with
  | nil => simp
  | cons hlayer _ ih =>
    rw [List.flatten_cons, List.flatten_append, List.forall_mem_append]
    exact ⟨hlayer.isComputed, ih⟩

/-- The networks of weight files are evaluated forwards. -/
theorem feedforward_of_describes (h : f.Describes net a) (hnet : net.WellFormed a) :
    net.Feedforward a := by
  obtain ⟨inputs, layers, hlayers, -, hinputs, hbuilt⟩ := h
  have hnodes : net.nodes = inputs.flatten ++ layers.flatten.flatten := by
    rw [Network.nodes, hlayers, List.flatten_cons, List.flatten_append]
  have hheads : net.inputs = inputs.flatten := by
    rw [Network.inputs, hlayers]
    exact hinputs.heads.1
  -- A node is an input or a computed node, not both.
  have hcases : ∀ id ∈ net.nodes, ∀ n, a.get? id = some n →
      (id ∈ net.inputs ∧ n.kind = .plain) ∨ (id ∉ net.inputs ∧ n.kind ≠ .plain ∧
        ConstraintSystem.isAbs n = false ∧ n.bounds.fixedValue? = none) := by
    intro id hid n hn
    have hnd := hnet.nodup
    rw [hnodes, List.mem_append] at hid
    rw [hnodes, List.nodup_append] at hnd
    rw [hheads]
    rcases hid with hid | hid
    · obtain ⟨m, hm, hkind⟩ := hinputs.isFree id hid
      cases hn.symm.trans hm
      exact .inl ⟨hid, hkind⟩
    · obtain ⟨m, hm, hkind, habs, hfree, -⟩ := hbuilt.isComputed id hid
      cases hn.symm.trans hm
      exact .inr ⟨fun hinput => hnd.2.2 id hinput id hid rfl, hkind, habs, hfree⟩
  refine ⟨hnet, ?_, ?_, ?_⟩
  · intro id hid
    obtain ⟨n, hn⟩ := Arena.exists_get? (hnet.held id hid)
    rcases hcases id hid n hn with ⟨hinput, hkind⟩ | ⟨hinput, hkind, -⟩
    · exact iff_of_true ⟨n, hn, hkind⟩ hinput
    · refine iff_of_false ?_ hinput
      rintro ⟨m, hm, hplain⟩
      cases hn.symm.trans hm
      exact hkind hplain
  · intro id hid n hn
    rcases hcases id hid n hn with ⟨-, hkind⟩ | ⟨-, -, habs, -⟩
    · simp [ConstraintSystem.isAbs, hkind]
    · exact habs
  · intro id hid n hn hfixed
    rcases hcases id hid n hn with ⟨-, hkind⟩ | ⟨-, -, -, hfree⟩
    · exact hkind
    · simp [hfree] at hfixed

end

/-! ## Runs of described networks -/

section Exact

variable {f : NnetFile Rat} {a : Arena Rat} {net : Network} {w : Valuation Rat}

/-- The values of the inputs are those of the file's function. -/
theorem InputsBuilt.values {i : Nat} {l : Layer} {xs : List Rat} (h : InputsBuilt f a i l)
    (hlen : xs.length = l.length)
    (hw : ∀ (k : Nat) id x n, l.flatten[k]? = some id → xs[k]? = some x → a.get? id = some n →
      w id = n.bounds.fixedValue?.getD x) :
    l.flatten.map w = xs.mapIdx fun k => f.inputValue (i + k) := by
  induction h generalizing xs with
  | nil =>
    obtain rfl : xs = [] := List.length_eq_zero_iff.1 hlen
    rfl
  | @cons i low high id n l hrange hid hkind hbounds _ _ ih =>
    cases xs with
    | nil => cases hlen
    | cons x xs =>
      have hrest := ih (Nat.succ.inj hlen) fun k => hw (k + 1)
      have hhead : w id = f.inputValue i x := by
        rw [hw 0 id x n rfl rfl hid, hbounds, inputValue, hrange, Interval.fixedValue?]
        simp only
        split <;> rfl
      have hshift : (fun k => f.inputValue (i + (k + 1))) = fun k => f.inputValue (i + 1 + k) := by
        funext k
        rw [Nat.add_assoc, Nat.add_comm 1 k]
      rw [List.mapIdx_cons, hshift, List.flatten_cons, List.singleton_append, List.map_cons, hhead,
        hrest]
      rfl

/-- A sum of scaled nodes has the value of the weighted sum of their values. -/
theorem value_zip (w : Valuation Rat) (row : List Rat) (ids : List NodeId) :
    Terms.value w (row.zip ids) = weightedSum row (ids.map w) := by
  rw [weightedSum, Terms.value, List.zip_map_right, List.foldl_map]
  simp only [Prod.map_fst, Prod.map_snd, id_eq, mul_comm]

/-- The tail of a neuron has the value that the file describes. -/
theorem NeuronBuilt.value {previous : List NodeId} {row : List Rat} {bias : Rat} {isLast : Bool}
    {c : Chain} (h : NeuronBuilt a previous row bias isLast c)
    (hw : ∀ id ∈ c, ∀ n, a.get? id = some n → w id = n.kind.value w (w id)) :
    c.getLast?.map w = some (
      let sum := weightedSum row (previous.map w) + bias
      if isLast then sum else Scalar.positivePart sum) := by
  have haffine : ∀ {b n}, b ∈ c → a.get? b = some n → n.kind = .affine (row.zip previous) bias →
      w b = weightedSum row (previous.map w) + bias := by
    intro b n hmem hb hkind
    rw [hw b hmem n hb, hkind, NodeKind.value, value_zip]
  cases h with
  | @last b n hb hkind hbounds => simp [haffine (by simp) hb hkind]
  | @hidden b r n m hb hkind hbounds hr hrectifies hpositive =>
    have hr' := hw r (by simp) m hr
    rw [hrectifies, NodeKind.value, haffine (by simp) hb hkind] at hr'
    simp [hr']

/-- The tails of a layer have the values that the file describes. -/
theorem LayerBuilt.values {previous : List NodeId} {rows : List (List Rat)} {biases : List Rat}
    {isLast : Bool} {l : Layer} (h : LayerBuilt a previous isLast rows biases l)
    (hw : ∀ id ∈ l.flatten, ∀ n, a.get? id = some n → w id = n.kind.value w (w id)) :
    (l.filterMap List.getLast?).map w = layerValues isLast rows biases (previous.map w) := by
  induction h with
  | nil => rfl
  | @cons row bias c rows biases l hlength hneuron _ ih =>
    rw [List.flatten_cons, List.forall_mem_append] at hw
    obtain ⟨t, ht, hvalue⟩ := Option.map_eq_some_iff.1 (hneuron.value hw.1)
    rw [List.filterMap_cons_some ht, List.map_cons, ih hw.2, hvalue]
    rfl

/-- So have the tails of the last layer. -/
theorem LayersBuilt.values {previous : Layer} {weights : List (List (List Rat))}
    {biases : List (List Rat)} {ls : List Layer} (h : LayersBuilt a previous weights biases ls)
    (hw : ∀ id ∈ ls.flatten.flatten, ∀ n, a.get? id = some n → w id = n.kind.value w (w id)) :
    ((((previous :: ls).getLast?).getD []).filterMap List.getLast?).map w =
      lastValues weights biases ((previous.filterMap List.getLast?).map w) := by
  induction h with
  | nil => rfl
  | @cons previous l rows bs weights biases ls hlayer _ ih =>
    rw [List.flatten_cons, List.flatten_append, List.forall_mem_append] at hw
    rw [List.getLast?_cons_cons, ih hw.2, hlayer.values hw.1]
    rfl

/-- A run of a described network has the outputs that the file describes. -/
theorem outputs_of_evaluates (h : f.Describes net a) {xs : List Rat}
    (hlen : xs.length = net.inputs.length) (hw : net.Evaluates a xs w) :
    net.outputs.map w = f.compute xs := by
  obtain ⟨inputs, layers, hlayers, -, hinputs, hbuilt⟩ := h
  obtain ⟨hheads, htails⟩ := hinputs.heads
  have hinput : net.inputs = inputs.flatten := by
    rw [Network.inputs, hlayers]
    exact hheads
  have hvalues : inputs.flatten.map w = xs.mapIdx f.inputValue := by
    have hshift : inputs.flatten.map w = xs.mapIdx fun k => f.inputValue (0 + k) := by
      refine hinputs.values ?_ (hinput ▸ hw.inputs)
      rw [hlen, hinput, ← htails, hinputs.length_tails]
    simpa only [Nat.zero_add] using hshift
  rw [Network.outputs, hlayers, hbuilt.values ?_, htails, hvalues, compute]
  intro id hid
  refine hw.nodes id ?_
  rw [Network.nodes, hlayers, List.flatten_cons, List.flatten_append]
  exact List.mem_append_right _ hid

/-- A text that is imported as a network says what a weight file says, and describes the network:
its inputs are those of the file, and it has one neuron for every weight row, with all the weights
of the row and its bias. Evaluating the network on any input vector of the right length computes the
function that the file describes. -/
theorem forward_of_importText [Numeral Rat] {text : String} {s s' : Session Rat}
    (h : importText text s = (.ok net, s')) :
    ∃ f q sys, parse text = .ok f ∧ f.Spelled (rowsFrom 1 (Text.lines text.toList)) ∧ f.Shaped ∧
      f.Describes net s'.arena ∧ net.toQuery = .ok q ∧
      ConstraintSystem.ofQuery s'.arena q = .ok sys ∧
      ∀ xs, f.inputSize? = some xs.length →
        ∃ v, sys.forward xs = .ok v ∧ sys.outputValues? v = some (f.compute xs) := by
  unfold importText at h
  cases hparse : parse (α := Rat) text with
  | error e =>
    rw [hparse] at h
    cases h
  | ok f =>
    rw [hparse] at h
    obtain ⟨hshaped, hspelled⟩ := of_parse hparse
    obtain ⟨-, hdescribes, hnet⟩ := describes_of_build h hshaped
    obtain ⟨q, sys, hq, hsys, hforward⟩ :=
      (feedforward_of_describes hdescribes hnet).exists_forward
    refine ⟨f, q, sys, rfl, hspelled, hshaped, hdescribes, hq, hsys, ?_⟩
    intro xs hlen
    have hlen : xs.length = net.inputs.length := by
      obtain ⟨inputs, layers, hlayers, hsizes, hinputs, -⟩ := hdescribes
      rw [hlayers, List.map_cons] at hsizes
      rw [inputSize?, ← hsizes, List.head?_cons, Option.some.injEq] at hlen
      obtain ⟨hheads, htails⟩ := hinputs.heads
      rw [Network.inputs, hlayers, ← hlen, ← hinputs.length_tails, htails, ← hheads]
      rfl
    obtain ⟨v, w, hv, hout, hw⟩ := hforward xs hlen
    exact ⟨v, hv, by rw [hout, outputs_of_evaluates hdescribes hlen hw]⟩

/-- A network of two inputs, of which the second one is fixed, a hidden neuron and an output. -/
def sampleText : String :=
  "// two layers\n2,2,2,0,\n2,1,1,\n0,\n-1,0.5,\n1,0.5,\n0,0,0,\n1,1,1,\n2,-1,\n0.5,\n-3,\n1,\n"

/-- The sample is imported, and its network computes what the sample describes. -/
theorem forward_of_importText_sample :
    ∃ net s', importText sampleText ({} : Session Rat) = (.ok net, s') ∧
      ∃ f q sys, parse sampleText = .ok f ∧
        f.Spelled (rowsFrom 1 (Text.lines sampleText.toList)) ∧ f.Shaped ∧
        f.Describes net s'.arena ∧ net.toQuery = .ok q ∧
        ConstraintSystem.ofQuery s'.arena q = .ok sys ∧
        ∀ xs, f.inputSize? = some xs.length →
          ∃ v, sys.forward xs = .ok v ∧ sys.outputValues? v = some (f.compute xs) := by
  have hok : (importText sampleText ({} : Session Rat)).1.isOk = true := by decide +kernel
  cases himport : importText sampleText ({} : Session Rat) with
  | mk r s' =>
    rw [himport] at hok
    cases r with
    | error e => cases hok
    | ok net => exact ⟨net, s', rfl, forward_of_importText himport⟩

/-- The hidden neuron of the sample sums `2 * 1 - 0.5 + 0.5`: the second input is fixed. -/
example : (parse (α := Rat) sampleText).toOption.map (·.compute [1, 7]) = some [-5] := by
  decide +kernel

end Exact

end PiecewiseNet.NnetFile
