import PiecewiseNet.Proofs.FailedEdits
import PiecewiseNet.Proofs.Nnet.Building
import PiecewiseNet.Proofs.Nnet.Indexing

/-!
# Building succeeds

The parts of a weight file that was read fit together, so building it looks up nothing that is not
there and drops nothing by pairing lists of different lengths. It adds nodes one after the other,
each over nodes that it has added before; so the network passes its checks, and the only thing that
can be wrong is the range of an input.

## Main definitions

- `Arena.Appends`: nodes are added in order, each over earlier ones from a given one on.

## Main statements

- `Network.wellFormed_of_appends`: layers of nodes that were added so make a well-formed network.
- `NnetFile.buildInputs_cases`, `NnetFile.exists_buildLayers`: what building adds.
- `NnetFile.Describes.affine_over_tails`: an affine node reads all neurons of the layer before it.
- `NnetFile.parse_and_build`: what comes of any text.
-/

namespace PiecewiseNet

variable {α : Type} {a b c : Arena α} {start : NodeId} {ids ids' : List NodeId}

/-! ## Appended nodes -/

/-- From one arena to the other these nodes were added, in their order. Each of them reads nodes
that are before it, but not before `start`. -/
structure Arena.Appends (start : NodeId) (a : Arena α) (ids : List NodeId) (b : Arena α) :
    Prop where
  grows : a.GrowsTo b
  size : b.size = a.size + ids.length
  consecutive : ids = List.range' a.size ids.length
  reads : ∀ id ∈ ids, ∀ r, b.Reads id r → start ≤ r ∧ r < id

namespace Arena

theorem appends_nil (start : NodeId) (a : Arena α) : Appends start a [] a :=
  ⟨.refl a, rfl, rfl, by simp⟩

theorem appends_push (start : NodeId) {n : Node α}
    (h : ∀ r ∈ n.references, start ≤ r ∧ r < a.size) :
    Appends start a [a.size] (a.push n) := by
  refine ⟨growsTo_push a n, size_push .., rfl, List.forall_mem_singleton.2 fun r hr => ?_⟩
  exact h r ((reads_iff (by rw [get?_push, if_pos rfl])).1 hr)

theorem Appends.bounds (h : Appends start a ids b) {id : NodeId} (hid : id ∈ ids) :
    a.size ≤ id ∧ id < b.size := by
  rw [h.consecutive, List.mem_range'_1, ← h.size] at hid
  exact hid

theorem Appends.append (h : Appends start a ids b) (h' : Appends start b ids' c) :
    Appends start a (ids ++ ids') c := by
  refine ⟨h.grows.trans h'.grows, ?_, ?_,
    List.forall_mem_append.2 ⟨fun id hid r hr => ?_, h'.reads⟩⟩
  · rw [h'.size, h.size, List.length_append, Nat.add_assoc]
  · rw [List.length_append, ← List.range'_append_1, ← h.consecutive, ← h.size,
      ← h'.consecutive]
  · exact h.reads id hid r ((reads_congr (h'.grows.get? id (h.bounds hid).2)).1 hr)

end Arena

open Arena

/-- Layers of nodes that were appended to an arena make a well-formed network, if they read no nodes
of this arena. -/
theorem Network.wellFormed_of_appends {layers : List Layer} (hne : layers ≠ [])
    (hchains : ∀ l ∈ layers, ∀ c ∈ l, c ≠ [])
    (h : Appends a.size a layers.flatten.flatten b) : (⟨layers⟩ : Network).WellFormed b := by
  have hnodes : (⟨layers⟩ : Network).nodes = List.range' a.size layers.flatten.flatten.length :=
    h.consecutive
  refine ⟨hne, ?_, fun id hid => (h.bounds hid).2, ?_, ?_, ?_, ?_⟩
  · intro l n c hc
    obtain ⟨layer, hl, hn⟩ := chainAt_eq_some_iff.1 hc
    exact hchains layer (List.mem_of_getElem? hl) c (List.mem_of_getElem? hn)
  · rw [hnodes]
    exact List.nodup_range'
  · intro id hid r hr
    obtain ⟨hstart, hlt⟩ := h.reads id hid r hr
    rw [hnodes, List.mem_range'_1, ← h.size]
    exact ⟨hstart, hlt.trans (h.bounds hid).2⟩
  · intro id hid hself
    exact Nat.lt_irrefl id (h.reads id hid id hself).2
  · -- The nodes are listed in ascending order, and each reads smaller ones.
    have hsorted : (⟨layers⟩ : Network).nodes.Pairwise (· < ·) := by
      rw [hnodes]
      exact List.pairwise_lt_range'
    refine hsorted.imp_of_mem fun {x y} hx _ hlt hread => ?_
    exact Nat.lt_asymm hlt (h.reads x hx y hread).2

namespace NnetFile

variable [Scalar α] {f : NnetFile α} {stem : String}

/-! ## Building -/

/-- An input before its range is entered. -/
def inputNode (stem : String) (i : Nat) : Node α :=
  { kind := .plain, label := some (stem ++ "00_" ++ labelIndex i) }

/-- The inputs are added if their ranges can be met. Otherwise building stops at the first one whose
range cannot. -/
theorem buildInputs_cases (start : NodeId) (stem : String) {count i : Nat}
    (hdata : ∀ k, i ≤ k → k < i + count → ∃ range, f.inputBounds? k = some range) :
    (∃ l b, (f.buildInputs stem count i).Yields a l b ∧ Appends start a l.flatten b ∧
      ∀ c ∈ l, c ≠ []) ∨
    ∃ k low high b, i ≤ k ∧ k < i + count ∧ f.inputBounds? k = some (low, high) ∧ high < low ∧
      (f.buildInputs stem count i).Fails a
        (.emptyBounds (stem ++ "00_" ++ labelIndex k) low high) b := by
  induction count generalizing i a with
  | zero =>
    exact .inl ⟨[], a, Edit.yields_pure.2 ⟨rfl, rfl⟩, appends_nil start a, List.forall_mem_nil _⟩
  | succ count ih =>
    obtain ⟨⟨low, high⟩, hrange⟩ := hdata i (Nat.le_refl i) (by omega)
    unfold buildInputs
    simp only [hrange]
    have hget : (a.push (inputNode stem i)).get? a.size = some (inputNode stem i) := by
      rw [get?_push, if_pos rfl]
    by_cases hempty : high < low
    · have hlimit : (Edit.limit a.size (some low) (some high)).Fails (a.push (inputNode stem i))
          (.emptyBounds (stem ++ "00_" ++ labelIndex i) low high) (a.push (inputNode stem i)) :=
        Edit.fails_limit.2 ⟨rfl, .inr ⟨_, low, high, hget, rfl, hempty, rfl⟩⟩
      refine .inr ⟨i, low, high, a.push (inputNode stem i), Nat.le_refl i, by omega, hrange, hempty,
        ?_⟩
      exact Edit.fails_bind.2 (.inr ⟨_, _, Edit.yields_push.2 ⟨rfl, rfl⟩,
        Edit.fails_bind.2 (.inl hlimit)⟩)
    · have hmeets : ((inputNode stem i).bounds.narrowed (some low) (some high)).isEmpty = false :=
        decide_eq_false hempty
      have hlimit := Edit.yields_limit (u := ()).2 ⟨_, hget, hmeets, rfl⟩
      rw [set_push_size] at hlimit
      rcases ih (i := i + 1) (fun k hk hlt => hdata k (by omega) (by omega)) with
        ⟨l, b, hrest, happends, hchains⟩ | ⟨k, low', high', b, hk, hlt, hrange', hempty', hrest⟩
      · refine .inl ⟨[a.size] :: l, b, ?_, ?_,
          List.forall_mem_cons.2 ⟨List.cons_ne_nil _ _, hchains⟩⟩
        · exact Edit.yields_bind.2 ⟨_, _, Edit.yields_push.2 ⟨rfl, rfl⟩, Edit.yields_bind.2
            ⟨_, _, hlimit, Edit.yields_bind.2 ⟨_, _, hrest, Edit.yields_pure.2 ⟨rfl, rfl⟩⟩⟩⟩
        · exact (appends_push start (List.forall_mem_nil _)).append happends
      · refine .inr ⟨k, low', high', b, by omega, by omega, hrange', hempty', ?_⟩
        exact Edit.fails_bind.2 (.inr ⟨_, _, Edit.yields_push.2 ⟨rfl, rfl⟩, Edit.fails_bind.2 (.inr
          ⟨_, _, hlimit, Edit.fails_bind.2 (.inl hrest)⟩)⟩)

omit [Scalar α] in
theorem nodes_zip_subset (row : List α) (previous : List NodeId) :
    Terms.nodes (row.zip previous) ⊆ previous := by
  intro r hr
  obtain ⟨p, hp, rfl⟩ := List.mem_map.1 hr
  exact (List.of_mem_zip hp).2

theorem exists_buildNeuron (isLast : Bool) (name : String) (row : List α) (bias : α)
    {previous : List NodeId} (hprevious : ∀ r ∈ previous, start ≤ r ∧ r < a.size)
    (hstart : start ≤ a.size) :
    ∃ c b, (buildNeuron isLast name (row.zip previous) bias).Yields a c b ∧
      Appends start a c b ∧ c ≠ [] := by
  have haffine : ∀ n : Node α, n.kind = .affine (row.zip previous) bias →
      Appends start a [a.size] (a.push n) := by
    intro n hn
    refine appends_push start fun r hr => hprevious r (nodes_zip_subset row previous ?_)
    rwa [Node.references, hn] at hr
  unfold buildNeuron
  cases isLast with
  | true =>
    exact ⟨[a.size], _, Edit.yields_bind.2 ⟨_, _, Edit.yields_push.2 ⟨rfl, rfl⟩,
      Edit.yields_pure.2 ⟨rfl, rfl⟩⟩, haffine _ rfl, List.cons_ne_nil _ _⟩
  | false =>
    refine ⟨[a.size, a.size + 1], _, Edit.yields_bind.2 ⟨_, _, Edit.yields_push.2 ⟨rfl, rfl⟩,
      Edit.yields_bind.2 ⟨_, _, Edit.yields_push.2 ⟨(size_push ..).symm, rfl⟩,
        Edit.yields_pure.2 ⟨rfl, rfl⟩⟩⟩, ?_, List.cons_ne_nil _ _⟩
    have hrelu := appends_push start
      (a := a.push { kind := .affine (row.zip previous) bias, label := some (name ++ "_b") })
      (n := { kind := .relu a.size false, bounds := ⟨some 0, none⟩, label := some (name ++ "_f") })
      (by simp [Node.references, NodeKind.references, hstart])
    rw [size_push] at hrelu
    exact (haffine _ rfl).append hrelu

theorem exists_buildLayer (isLast : Bool) (stem : String) (n : Nat) (rows : List (List α × α))
    {previous : List NodeId} (hprevious : ∀ r ∈ previous, start ≤ r ∧ r < a.size)
    (hstart : start ≤ a.size) :
    ∃ l b, (buildLayer isLast stem previous n rows).Yields a l b ∧
      Appends start a l.flatten b ∧ ∀ c ∈ l, c ≠ [] := by
  induction rows generalizing n a with
  | nil =>
    exact ⟨[], a, Edit.yields_pure.2 ⟨rfl, rfl⟩, appends_nil start a, List.forall_mem_nil _⟩
  | cons p rows ih =>
    obtain ⟨row, bias⟩ := p
    obtain ⟨c, d, hneuron, happends, hne⟩ := exists_buildNeuron isLast (stem ++ labelIndex n) row
      bias hprevious hstart
    have hsize := happends.grows.size
    obtain ⟨l, b, hrest, happends', hchains⟩ := ih (n + 1) (a := d)
      (fun r hr => ⟨(hprevious r hr).1, (hprevious r hr).2.trans_le hsize⟩) (hstart.trans hsize)
    exact ⟨c :: l, b, Edit.yields_bind.2 ⟨_, _, hneuron, Edit.yields_bind.2 ⟨_, _, hrest,
      Edit.yields_pure.2 ⟨rfl, rfl⟩⟩⟩, happends.append happends',
      List.forall_mem_cons.2 ⟨hne, hchains⟩⟩

/-- The layers behind the inputs are added in any case, each over nodes of the layer before it. -/
theorem exists_buildLayers (start : NodeId) (last : Nat) (stem : String) (index : Nat)
    (layers : List (List (List α) × List α)) {previous : List NodeId}
    (hprevious : ∀ r ∈ previous, start ≤ r ∧ r < a.size) (hstart : start ≤ a.size) :
    ∃ ls b, (buildLayers last stem index previous layers).Yields a ls b ∧
      Appends start a ls.flatten.flatten b ∧ ∀ l ∈ ls, ∀ c ∈ l, c ≠ [] := by
  induction layers generalizing index previous a with
  | nil =>
    exact ⟨[], a, Edit.yields_pure.2 ⟨rfl, rfl⟩, appends_nil start a, List.forall_mem_nil _⟩
  | cons layer layers ih =>
    obtain ⟨rows, biases⟩ := layer
    obtain ⟨l, d, hlayer, happends, hchains⟩ := exists_buildLayer (index == last)
      (stem ++ labelIndex index ++ "_") 0 (rows.zip biases) hprevious hstart
    have htails : ∀ r ∈ l.filterMap List.getLast?, start ≤ r ∧ r < d.size := by
      intro r hr
      obtain ⟨c, hc, hlast⟩ := List.mem_filterMap.1 hr
      have hbounds := happends.bounds (List.mem_flatten_of_mem hc (List.mem_of_getLast? hlast))
      exact ⟨hstart.trans hbounds.1, hbounds.2⟩
    obtain ⟨ls, b, hrest, happends', hchains'⟩ := ih (index + 1) htails
      (hstart.trans happends.grows.size)
    refine ⟨l :: ls, b, Edit.yields_bind.2 ⟨_, _, hlayer, Edit.yields_bind.2 ⟨_, _, hrest,
      Edit.yields_pure.2 ⟨rfl, rfl⟩⟩⟩, ?_, List.forall_mem_cons.2 ⟨hchains, hchains'⟩⟩
    rw [List.flatten_cons, List.flatten_append]
    exact happends.append happends'

/-- Building a shaped file succeeds if the ranges of its inputs can be met. -/
theorem buildWith_cases (hf : f.Shaped) (stem : String) (a : Arena α) :
    (∃ net b, (f.buildWith stem).Yields a net b) ∨
    ∃ n k low high b, f.inputSize? = some n ∧ k < n ∧ f.inputBounds? k = some (low, high) ∧
      high < low ∧ (f.buildWith stem).Fails a
        (.emptyBounds (stem ++ "00_" ++ labelIndex k) low high) b := by
  obtain ⟨n, hn, hminimums, hmaximums, hmeans, hranges⟩ := hf.inputs
  have hdata : ∀ k, 0 ≤ k → k < 0 + n → ∃ range, f.inputBounds? k = some range := by
    intro k _ hk
    rw [inputBounds?, List.getElem?_eq_getElem (show k < f.minimums.length by omega),
      List.getElem?_eq_getElem (show k < f.maximums.length by omega),
      List.getElem?_eq_getElem (show k < f.means.length by omega),
      List.getElem?_eq_getElem (show k < f.ranges.length by omega)]
    exact ⟨_, rfl⟩
  unfold buildWith
  simp only [hn]
  rcases buildInputs_cases (a := a) a.size stem hdata with
    ⟨inputs, c, hinputs, happends, hchains⟩ | ⟨k, low, high, b, -, hk, hrange, hempty, hfails⟩
  · have htails : ∀ r ∈ inputs.filterMap List.getLast?, a.size ≤ r ∧ r < c.size := by
      intro r hr
      obtain ⟨d, hd, hlast⟩ := List.mem_filterMap.1 hr
      exact happends.bounds (List.mem_flatten_of_mem hd (List.mem_of_getLast? hlast))
    obtain ⟨layers, b, hlayers, happends', hchains'⟩ := exists_buildLayers a.size
      (f.layerSizes.length - 1) stem 1 (f.weights.zip f.biases) htails happends.grows.size
    have hall := happends.append happends'
    rw [← List.flatten_append, ← List.flatten_cons] at hall
    refine .inl ⟨⟨inputs :: layers⟩, b, Edit.yields_bind.2 ⟨_, _, hinputs, Edit.yields_bind.2
      ⟨_, _, hlayers, Edit.yields_reading.2 ⟨Network.new_eq_ok_iff.2 ⟨rfl, ?_⟩, rfl⟩⟩⟩⟩
    exact Network.wellFormed_of_appends (List.cons_ne_nil _ _)
      (List.forall_mem_cons.2 ⟨hchains, hchains'⟩) hall
  · rw [Nat.zero_add] at hk
    exact .inr ⟨n, k, low, high, b, rfl, hk, hrange, hempty, Edit.fails_bind.2 (.inl hfails)⟩

/-! ## Described networks -/

theorem InputsBuilt.map_getLast? {i : Nat} {l : Layer} (h : InputsBuilt f a i l) :
    l.map List.getLast? = (l.filterMap List.getLast?).map some := by
  induction h with
  | nil => rfl
  | cons _ _ _ _ _ _ ih => exact congrArg _ ih

theorem LayerBuilt.map_getLast? {previous : List NodeId} {isLast : Bool} {rows : List (List α)}
    {biases : List α} {l : Layer} (h : LayerBuilt a previous isLast rows biases l) :
    l.map List.getLast? = (l.filterMap List.getLast?).map some := by
  induction h with
  | nil => rfl
  | cons _ hneuron _ ih => cases hneuron <;> exact congrArg _ ih

/-- Every neuron of a layer starts with an affine node over the given nodes. -/
theorem LayerBuilt.affine_over {previous : List NodeId} {isLast : Bool} {rows : List (List α)}
    {biases : List α} {l : Layer} (h : LayerBuilt a previous isLast rows biases l) :
    ∀ c ∈ l, ∃ id rest n terms bias, c = id :: rest ∧ a.get? id = some n ∧
      n.kind = .affine terms bias ∧ terms.nodes = previous := by
  induction h with
  | nil => exact List.forall_mem_nil _
  | cons hlength hneuron _ ih =>
    refine List.forall_mem_cons.2 ⟨?_, ih⟩
    cases hneuron with
    | last hb hkind _ => exact ⟨_, _, _, _, _, rfl, hb, hkind, List.map_snd_zip hlength.ge⟩
    | hidden hb hkind _ _ _ _ => exact ⟨_, _, _, _, _, rfl, hb, hkind, List.map_snd_zip hlength.ge⟩

/-- Every neuron behind the inputs starts with an affine node over the tails of all neurons of the
layer before, in their order. -/
theorem LayersBuilt.affine_over_tails {previous : Layer} {weights : List (List (List α))}
    {biases : List (List α)} {ls : List Layer} (h : LayersBuilt a previous weights biases ls)
    (hprevious : previous.map List.getLast? = (previous.filterMap List.getLast?).map some)
    {k : Nat} {before l : Layer} (hbefore : (previous :: ls)[k]? = some before)
    (hl : ls[k]? = some l) :
    ∀ c ∈ l, ∃ id rest n terms bias, c = id :: rest ∧ a.get? id = some n ∧
      n.kind = .affine terms bias ∧ terms.nodes.map some = before.map List.getLast? := by
  induction h generalizing k with
  | nil => cases hl
  | cons hlayer _ ih =>
    cases k with
    | zero =>
      cases hbefore
      cases hl
      intro c hc
      obtain ⟨id, rest, n, terms, bias, hc, hn, hkind, hnodes⟩ := hlayer.affine_over c hc
      exact ⟨id, rest, n, terms, bias, hc, hn, hkind, by rw [hnodes, hprevious]⟩
    | succ k => exact ih hlayer.map_getLast? hbefore hl

theorem Describes.affine_over_tails {net : Network} (h : f.Describes net a) {k : Nat}
    {before l : Layer} (hbefore : net.layers[k]? = some before)
    (hl : net.layers[k + 1]? = some l) :
    ∀ c ∈ l, ∃ id rest n terms bias, c = id :: rest ∧ a.get? id = some n ∧
      n.kind = .affine terms bias ∧ terms.nodes.map some = before.map List.getLast? := by
  obtain ⟨inputs, layers, hlayers, -, hinputs, hbuilt⟩ := h
  rw [hlayers] at hbefore hl
  exact hbuilt.affine_over_tails hinputs.map_getLast? hbefore hl

/-! ## Texts -/

omit [Scalar α] in
/-- The rows of the layer behind another one have a weight for each neuron of that one. -/
theorem LayersFit.at_layer {sizes : List Nat} {layers : List (List (List α) × List α)}
    (h : LayersFit sizes layers) {l columns size : Nat} (hcolumns : sizes[l]? = some columns)
    (hsize : sizes[l + 1]? = some size) :
    ∃ rows biases, layers[l]? = some (rows, biases) ∧ rows.length = size ∧
      biases.length = size ∧ ∀ row ∈ rows, row.length = columns := by
  induction h generalizing l with
  | nil => cases hsize
  | cons hrows hrow hbiases _ ih =>
    cases l with
    | zero =>
      cases hcolumns
      cases hsize
      exact ⟨_, _, rfl, hrows, hbiases, hrow⟩
    | succ l => exact ih hcolumns hsize

/-- A text is read with every entry in its place and every count within the range of indices, or has
a fault in one of its lines. The lists of a file that was read fit its layer sizes. Building it
makes a network with these layer sizes, in which each affine node is over the tails of all neurons
of the layer before, or stops at an input whose range is empty. -/
theorem parse_and_build [Numeral α] (text : String) :
    (·.1) <$> (readIndexed : Reading α (NnetFile α)).run (Rows.ofText text.toList) = parse text ∧
    (∀ e, parse (α := α) text = .error e → ∃ line cause, e = .nnetLine line cause ∧
      line ≤ (Text.lines text.toList).length + 1) ∧
    ∀ f, parse (α := α) text = .ok f →
      f.weights.length + 1 = f.layerSizes.length ∧ f.biases.length + 1 = f.layerSizes.length ∧
      (∀ l columns size, f.layerSizes[l]? = some columns → f.layerSizes[l + 1]? = some size →
        ∃ rows biases, f.weights[l]? = some rows ∧ f.biases[l]? = some biases ∧
          rows.length = size ∧ biases.length = size ∧ ∀ row ∈ rows, row.length = columns) ∧
      ∃ n, f.layerSizes[0]? = some n ∧ n ≤ f.minimums.length ∧ n ≤ f.maximums.length ∧
        n ≤ f.means.length ∧ n ≤ f.ranges.length ∧
        ∀ s : Session α,
          (∃ net s', f.build s = (.ok net, s') ∧ net.WellFormed s'.arena ∧
            net.layers.map List.length = f.layerSizes ∧ f.Describes net s'.arena ∧
            ∀ k before l, net.layers[k]? = some before → net.layers[k + 1]? = some l →
              ∀ c ∈ l, ∃ id rest m terms bias, c = id :: rest ∧ s'.arena.get? id = some m ∧
                m.kind = .affine terms bias ∧ terms.nodes.map some = before.map List.getLast?) ∨
          ∃ k low high, k < n ∧ f.inputBounds? k = some (low, high) ∧ high < low ∧
            (f.build s).1 = .error (.graph
              (.emptyBounds (s.names.nnet.1 ++ "00_" ++ labelIndex k) low high)) := by
  refine ⟨by rw [readIndexed_eq, parse], fun e h => error_of_parse h, fun f h => ?_⟩
  obtain ⟨hf, -⟩ := of_parse h
  obtain ⟨n, hn, hminimums, hmaximums, hmeans, hranges⟩ := hf.inputs
  have hlayers := hf.layers.length_layers
  rw [List.length_zip, ← hf.weights_length, Nat.min_self] at hlayers
  refine ⟨hlayers, hf.weights_length ▸ hlayers, ?_, n, ?_, hminimums, hmaximums, hmeans, hranges,
    fun s => ?_⟩
  · intro l columns size hcolumns hsize
    obtain ⟨rows, biases, hl, hlengths⟩ := hf.layers.at_layer hcolumns hsize
    obtain ⟨hrows, hbiases⟩ := List.getElem?_zip_eq_some.1 hl
    exact ⟨rows, biases, hrows, hbiases, hlengths⟩
  · rw [← List.head?_eq_getElem?]
    exact hn
  · rcases buildWith_cases hf s.names.nnet.1 s.arena with ⟨net, b, hyields⟩ |
      ⟨m, k, low, high, b, hm, hk, hrange, hempty, hfails⟩
    · have hbuild : f.build s = (.ok net, ⟨b, s.names.nnet.2⟩) := by
        have hrun := Edit.yields_adapt (f := FileError.graph).2 hyields
        unfold build
        simp only
        rw [Edit.ofGraph, hrun]
      obtain ⟨-, hdescribes, hnet⟩ := describes_of_build hbuild hf
      refine .inl ⟨net, _, hbuild, hnet, ?_, hdescribes,
        fun _ _ _ hbefore hl => hdescribes.affine_over_tails hbefore hl⟩
      obtain ⟨-, -, -, hlengths, -⟩ := hdescribes
      exact hlengths
    · obtain rfl : n = m := Option.some.inj (hn.symm.trans hm)
      refine .inr ⟨k, low, high, hk, hrange, hempty, ?_⟩
      have hrun := Edit.fails_adapt (f := FileError.graph).2 ⟨_, hfails, rfl⟩
      unfold build
      simp only
      rw [Edit.ofGraph, hrun]

end NnetFile

end PiecewiseNet
