import PiecewiseNet.Proofs.Network.Duplication
import PiecewiseNet.Proofs.Nnet.Reading

/-!
# Networks of weight files

What building adds for a weight file: a free node for each input, and for each weight row with its
bias a neuron over the tails of the layer before. Rows, biases and neurons correspond one to one,
and a row has exactly one weight for each of these tails.

## Main definitions

- `NnetFile.InputsBuilt`, `NnetFile.LayerBuilt`, `NnetFile.LayersBuilt`: the layers in an arena.
- `NnetFile.Describes`: the file describes the network.

## Main statements

- `NnetFile.describes_of_build`: a shaped file describes the network that is built from it.
-/

namespace PiecewiseNet.NnetFile

variable {α : Type} [Scalar α]

/-- The layer of inputs from index `i` on: free nodes within the ranges of the file. -/
inductive InputsBuilt (f : NnetFile α) (a : Arena α) : Nat → Layer → Prop where
  | nil {i : Nat} : InputsBuilt f a i []
  | cons {i : Nat} {low high : α} {id : NodeId} {n : Node α} {l : Layer}
      (hrange : f.inputBounds? i = some (low, high)) (hid : a.get? id = some n)
      (hkind : n.kind = .plain) (hbounds : n.bounds = ⟨some low, some high⟩)
      (hmeets : n.bounds.isEmpty = false) (rest : InputsBuilt f a (i + 1) l) :
      InputsBuilt f a i ([id] :: l)

/-- The neuron starts with an unbounded affine node that has the weights of the row for the previous
nodes, and the bias. That is all in the last layer; in a hidden layer its positive part follows. -/
inductive NeuronBuilt (a : Arena α) (previous : List NodeId) (row : List α) (bias : α) :
    Bool → Chain → Prop where
  | last {b : NodeId} {n : Node α} (hb : a.get? b = some n)
      (hkind : n.kind = .affine (row.zip previous) bias) (hbounds : n.bounds = .unbounded) :
      NeuronBuilt a previous row bias true [b]
  | hidden {b r : NodeId} {n m : Node α} (hb : a.get? b = some n)
      (hkind : n.kind = .affine (row.zip previous) bias) (hbounds : n.bounds = .unbounded)
      (hr : a.get? r = some m) (hrectifies : m.kind = .relu b false)
      (hpositive : m.bounds = ⟨some 0, none⟩) : NeuronBuilt a previous row bias false [b, r]

/-- Every weight row has a bias and a neuron, and one weight for each of the previous nodes. -/
inductive LayerBuilt (a : Arena α) (previous : List NodeId) (isLast : Bool) :
    List (List α) → List α → Layer → Prop where
  | nil : LayerBuilt a previous isLast [] [] []
  | cons {row : List α} {bias : α} {c : Chain} {rows : List (List α)} {biases : List α} {l : Layer}
      (hlength : row.length = previous.length) (hneuron : NeuronBuilt a previous row bias isLast c)
      (rest : LayerBuilt a previous isLast rows biases l) :
      LayerBuilt a previous isLast (row :: rows) (bias :: biases) (c :: l)

/-- The layers behind one, each over the tails of the layer before it. -/
inductive LayersBuilt (a : Arena α) :
    Layer → List (List (List α)) → List (List α) → List Layer → Prop where
  | nil {previous : Layer} : LayersBuilt a previous [] [] []
  | cons {previous l : Layer} {rows : List (List α)} {bs : List α} {weights : List (List (List α))}
      {biases : List (List α)} {ls : List Layer}
      (hlayer : LayerBuilt a (previous.filterMap List.getLast?) weights.isEmpty rows bs l)
      (rest : LayersBuilt a l weights biases ls) :
      LayersBuilt a previous (rows :: weights) (bs :: biases) (l :: ls)

/-- The network has the layers of the file: an input layer of the right size, and behind it one
layer for each list of weight rows. -/
def Describes (f : NnetFile α) (net : Network) (a : Arena α) : Prop :=
  ∃ inputs layers, net.layers = inputs :: layers ∧ net.layers.map List.length = f.layerSizes ∧
    InputsBuilt f a 0 inputs ∧ LayersBuilt a inputs f.weights f.biases layers

variable {f : NnetFile α} {a b : Arena α} {stem : String}

/-! ## Growing arenas -/

theorem InputsBuilt.mono {i : Nat} {l : Layer} (h : InputsBuilt f a i l) (hgrows : a.GrowsTo b) :
    InputsBuilt f b i l := by
  induction h with
  | nil => exact .nil
  | cons hrange hid hkind hbounds hmeets _ ih =>
    exact .cons hrange (hgrows.get?_eq_some hid) hkind hbounds hmeets ih

theorem NeuronBuilt.mono {previous : List NodeId} {row : List α} {bias : α} {isLast : Bool}
    {c : Chain} (h : NeuronBuilt a previous row bias isLast c) (hgrows : a.GrowsTo b) :
    NeuronBuilt b previous row bias isLast c := by
  cases h with
  | last hb hkind hbounds => exact .last (hgrows.get?_eq_some hb) hkind hbounds
  | hidden hb hkind hbounds hr hrectifies hpositive =>
    exact .hidden (hgrows.get?_eq_some hb) hkind hbounds (hgrows.get?_eq_some hr) hrectifies
      hpositive

theorem LayerBuilt.mono {previous : List NodeId} {isLast : Bool} {rows : List (List α)}
    {biases : List α} {l : Layer} (h : LayerBuilt a previous isLast rows biases l)
    (hgrows : a.GrowsTo b) : LayerBuilt b previous isLast rows biases l := by
  induction h with
  | nil => exact .nil
  | cons hlength hneuron _ ih => exact .cons hlength (hneuron.mono hgrows) ih

/-! ## Building -/

theorem buildInputs_yields {count i : Nat} {l : Layer}
    (h : (f.buildInputs stem count i).Yields a l b) :
    a.GrowsTo b ∧ l.length = count ∧ InputsBuilt f b i l := by
  induction count generalizing i l a with
  | zero =>
    obtain ⟨rfl, rfl⟩ := Edit.yields_pure.1 h
    exact ⟨.refl b, rfl, .nil⟩
  | succ count ih =>
    unfold buildInputs at h
    split at h
    · exact absurd h Edit.not_yields_throw
    · rename_i low high hrange
      obtain ⟨id, c, hpush, h⟩ := Edit.yields_bind.1 h
      obtain ⟨rfl, rfl⟩ := Edit.yields_push.1 hpush
      obtain ⟨_, d, hlimit, h⟩ := Edit.yields_bind.1 h
      obtain ⟨n, hn, hmeets, rfl⟩ := Edit.yields_limit.1 hlimit
      rw [Arena.get?_push, if_pos rfl] at hn
      cases hn
      rw [Arena.set_push_size] at h
      obtain ⟨rest, e, hrest, h⟩ := Edit.yields_bind.1 h
      obtain ⟨rfl, rfl⟩ := Edit.yields_pure.1 h
      obtain ⟨hgrows, hlength, hbuilt⟩ := ih hrest
      refine ⟨(Arena.growsTo_push a _).trans hgrows, by rw [List.length_cons, hlength], ?_⟩
      exact .cons hrange (hgrows.get?_eq_some (by rw [Arena.get?_push, if_pos rfl])) rfl rfl
        hmeets hbuilt

theorem buildNeuron_yields {isLast : Bool} {name : String} {previous : List NodeId} {row : List α}
    {bias : α} {c : Chain}
    (h : (buildNeuron isLast name (row.zip previous) bias).Yields a c b) :
    a.GrowsTo b ∧ NeuronBuilt b previous row bias isLast c := by
  unfold buildNeuron at h
  cases isLast with
  | true =>
    obtain ⟨id, d, hpush, h⟩ := Edit.yields_bind.1 h
    obtain ⟨rfl, rfl⟩ := Edit.yields_push.1 hpush
    obtain ⟨rfl, rfl⟩ := Edit.yields_pure.1 h
    exact ⟨Arena.growsTo_push a _, .last (by rw [Arena.get?_push, if_pos rfl]) rfl rfl⟩
  | false =>
    obtain ⟨id, d, hpush, h⟩ := Edit.yields_bind.1 h
    obtain ⟨rfl, rfl⟩ := Edit.yields_push.1 hpush
    obtain ⟨r, e, hpush, h⟩ := Edit.yields_bind.1 h
    obtain ⟨rfl, rfl⟩ := Edit.yields_push.1 hpush
    obtain ⟨rfl, rfl⟩ := Edit.yields_pure.1 h
    refine ⟨(Arena.growsTo_push a _).trans (Arena.growsTo_push _ _), ?_⟩
    exact .hidden ((Arena.growsTo_push _ _).get?_eq_some (by rw [Arena.get?_push, if_pos rfl])) rfl
      rfl (by rw [Arena.get?_push, if_pos rfl]) rfl rfl

theorem buildLayer_yields {isLast : Bool} {previous : List NodeId} {n : Nat}
    {rows : List (List α)} {biases : List α} {l : Layer}
    (h : (buildLayer isLast stem previous n (rows.zip biases)).Yields a l b)
    (hrows : ∀ row ∈ rows, row.length = previous.length) (hlength : rows.length = biases.length) :
    a.GrowsTo b ∧ l.length = rows.length ∧ LayerBuilt b previous isLast rows biases l := by
  induction rows generalizing n biases l a with
  | nil =>
    obtain rfl : biases = [] := List.length_eq_zero_iff.1 hlength.symm
    obtain ⟨rfl, rfl⟩ := Edit.yields_pure.1 h
    exact ⟨.refl b, rfl, .nil⟩
  | cons row rows ih =>
    cases biases with
    | nil => cases hlength
    | cons bias biases =>
      obtain ⟨hrow, hrows⟩ := List.forall_mem_cons.1 hrows
      obtain ⟨c, d, hneuron, h⟩ := Edit.yields_bind.1 h
      obtain ⟨cs, e, hrest, h⟩ := Edit.yields_bind.1 h
      obtain ⟨rfl, rfl⟩ := Edit.yields_pure.1 h
      obtain ⟨hgrows, hbuilt⟩ := buildNeuron_yields hneuron
      obtain ⟨hgrows', hlen, hbuilt'⟩ := ih hrest hrows (Nat.succ.inj hlength)
      exact ⟨hgrows.trans hgrows', by rw [List.length_cons, List.length_cons, hlen],
        .cons hrow (hbuilt.mono hgrows') hbuilt'⟩

/-- Every neuron has a tail. -/
theorem LayerBuilt.length_tails {previous : List NodeId} {isLast : Bool} {rows : List (List α)}
    {biases : List α} {l : Layer} (h : LayerBuilt a previous isLast rows biases l) :
    (l.filterMap List.getLast?).length = l.length := by
  induction h with
  | nil => rfl
  | cons _ hneuron _ ih => cases hneuron <;> simpa using ih

theorem InputsBuilt.length_tails {i : Nat} {l : Layer} (h : InputsBuilt f a i l) :
    (l.filterMap List.getLast?).length = l.length := by
  induction h with
  | nil => rfl
  | cons _ _ _ _ _ _ ih => simpa using ih

/-- The layers of a shaped file are built one behind the other. The one whose index is `last` is the
last one. -/
theorem buildLayers_yields {last index size : Nat} {sizes : List Nat} {previous : Layer}
    {layers : List (List (List α) × List α)} {ls : List Layer}
    (h : (buildLayers last stem index (previous.filterMap List.getLast?) layers).Yields a ls b)
    (hfit : LayersFit (size :: sizes) layers)
    (hsize : (previous.filterMap List.getLast?).length = size)
    (hlast : index + layers.length = last + 1) :
    a.GrowsTo b ∧ ls.map List.length = sizes ∧
      LayersBuilt b previous (layers.map Prod.fst) (layers.map Prod.snd) ls := by
  induction layers generalizing index size sizes previous ls a with
  | nil =>
    cases hfit
    obtain ⟨rfl, rfl⟩ := Edit.yields_pure.1 h
    exact ⟨.refl b, rfl, .nil⟩
  | cons layer layers ih =>
    obtain ⟨rows, biases⟩ := layer
    cases hfit with
    | cons hrows hrow hbiases hfit =>
      subst hsize
      obtain ⟨l, c, hlayer, h⟩ := Edit.yields_bind.1 h
      obtain ⟨rest, d, hrest, h⟩ := Edit.yields_bind.1 h
      obtain ⟨rfl, rfl⟩ := Edit.yields_pure.1 h
      obtain ⟨hgrows, hlength, hbuilt⟩ := buildLayer_yields hlayer hrow (hrows.trans hbiases.symm)
      obtain ⟨hgrows', hlengths, hbuilt'⟩ := ih hrest hfit
        (hbuilt.length_tails.trans (hlength.trans hrows)) (by simp at hlast; omega)
      have hisLast : (index == last) = (layers.map Prod.fst).isEmpty := by
        rw [List.isEmpty_map, Bool.eq_iff_iff, beq_iff_eq, List.isEmpty_iff_length_eq_zero]
        simp at hlast
        omega
      rw [hisLast] at hbuilt
      exact ⟨hgrows.trans hgrows', by rw [List.map_cons, hlengths, hlength, hrows],
        .cons (hbuilt.mono hgrows') hbuilt'⟩

/-- A shaped file describes the network that is built from it, and this network is well-formed. -/
theorem describes_of_buildWith {net : Network} (h : (f.buildWith stem).Yields a net b)
    (hf : f.Shaped) : a.GrowsTo b ∧ f.Describes net b ∧ net.WellFormed b := by
  unfold buildWith at h
  split at h
  · exact absurd h Edit.not_yields_throw
  · rename_i n hn
    obtain ⟨inputs, c, hinputs, h⟩ := Edit.yields_bind.1 h
    obtain ⟨layers, d, hlayers, h⟩ := Edit.yields_bind.1 h
    obtain ⟨hnew, rfl⟩ := Edit.yields_reading.1 h
    obtain ⟨rfl, hwf⟩ := Network.new_eq_ok_iff.1 hnew
    obtain ⟨sizes, hsizes⟩ := List.head?_eq_some_iff.1 hn
    obtain ⟨hgrows, hlength, hbuilt⟩ := buildInputs_yields hinputs
    have hfit := hf.layers
    rw [hsizes] at hfit
    obtain ⟨hgrows', hlengths, hbuilt'⟩ := buildLayers_yields hlayers hfit
      (hbuilt.length_tails.trans hlength) (by have := hfit.length_layers; rw [hsizes]; omega)
    rw [← List.unzip_fst, ← List.unzip_snd, List.unzip_zip hf.weights_length] at hbuilt'
    refine ⟨hgrows.trans hgrows', ⟨inputs, layers, rfl, ?_, hbuilt.mono hgrows', hbuilt'⟩, hwf⟩
    rw [List.map_cons, hlength, hlengths, hsizes]

/-- A shaped file describes the network that is built from it, and this network is well-formed. -/
theorem describes_of_build {s s' : Session α} {net : Network} (h : f.build s = (.ok net, s'))
    (hf : f.Shaped) : s.arena.GrowsTo s'.arena ∧ f.Describes net s'.arena ∧
      net.WellFormed s'.arena := by
  unfold build at h
  simp only at h
  obtain ⟨hr, rfl⟩ := Prod.mk.inj h
  have hyields : (Edit.ofGraph (f.buildWith s.names.nnet.1)).Yields s.arena net
      ((Edit.ofGraph (f.buildWith s.names.nnet.1)).run s.arena).2 := Prod.ext hr rfl
  exact describes_of_buildWith (Edit.yields_adapt.1 hyields) hf

end PiecewiseNet.NnetFile
