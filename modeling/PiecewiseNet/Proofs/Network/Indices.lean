import PiecewiseNet.Proofs.Network.Trimming
import PiecewiseNet.Proofs.FailedEdits

/-!
# Indices of clips

Clipping adds one to indices and subtracts one index from another. Here are the same computations
with every such step checked: a result that is no index breaks a promise. In a network that is not
larger than there are indices the steps are behind tests that bound them, so the checks change
nothing, whatever the range.

## Main definitions

- `indexDifference`: the difference of two indices, if it is an index.
- `Network.Addressable`: the network is not larger than there are indices.
- `Network.clipChecked`, `Network.duplicateAndClipChecked`: clipping with every step checked.

## Main statements

- `nextIndex_of_lt`, `indexDifference_of_le`: results in the range of indices.
- `Network.Addressable.clipChecked_eq`, `Network.Addressable.duplicateAndClipChecked_eq`: the checks
  change nothing.
-/

namespace PiecewiseNet

open Text

variable {α : Type}

/-- The difference of two indices, if it is an index. -/
def indexDifference (i j : Nat) : Except (GraphError α) Nat :=
  if j ≤ i then .ok (i - j) else .error (.misuse .indexOverflow)

theorem nextIndex_of_lt {i : Nat} (h : i < indexLimit) : nextIndex (α := α) i = .ok (i + 1) :=
  if_pos h

theorem nextIndex_of_le {i : Nat} (h : indexLimit ≤ i) :
    nextIndex (α := α) i = .error (.misuse .indexOverflow) :=
  if_neg (Nat.not_lt.2 h)

theorem indexDifference_of_le {i j : Nat} (h : j ≤ i) :
    indexDifference (α := α) i j = .ok (i - j) :=
  if_pos h

namespace Edit

variable {ε β γ : Type}

/-- A computation that succeeds passes its result on. -/
theorem ofExcept_ok_bind (x : β) (f : β → Edit ε α γ) : ofExcept (.ok x) >>= f = f x :=
  rfl

/-- What comes second matters only for results of the first edit. -/
theorem bind_congr {e : Edit ε α β} {f g : β → Edit ε α γ}
    (h : ∀ a x b, e.Yields a x b → f x = g x) : e >>= f = e >>= g := by
  funext a
  have hrun : (e >>= f).run a = (e >>= g).run a := by
    rw [run_bind, run_bind]
    cases he : e.run a with
    | mk r b =>
      cases r with
      | error err => rfl
      | ok x => exact congrArg (fun e => e.run b) (h a x b he)
  exact hrun

end Edit

namespace Network

/-- There are no more layers, and no more nodes in a neuron, than there are indices. -/
structure Addressable (net : Network) : Prop where
  layers : net.layerCount ≤ indexLimit
  chains : ∀ l ∈ net.layers, ∀ c ∈ l, c.length ≤ indexLimit

/-! ## Checked steps -/

/-- Severs every chain of a layer at a position. -/
def severLayerChecked (cut : Nat) :
    Layer → Substitution → Edit (GraphError α) α (Layer × Substitution)
  | [], table => pure ([], table)
  | chain :: chains, table => do
    match chain[cut]? with
    | none => throw (.outOfRange .firstCut cut chain.length)
    | some boundary =>
      let input ← Edit.sever boundary "_bdr"
      let behind ← Edit.ofExcept (nextIndex cut)
      let (rest, table) ← severLayerChecked cut chains (table.insert boundary input)
      return ((input :: chain.drop behind) :: rest, table)

/-- Cuts every chain of a layer behind a position. -/
def truncateLayerChecked (cut : Nat) : Layer → Except (GraphError α) Layer
  | [] => .ok []
  | c :: cs =>
    if c.length ≤ cut then
      .error (.outOfRange .lastCut cut c.length)
    else
      match nextIndex cut with
      | .error e => .error e
      | .ok size =>
        match truncateLayerChecked cut cs with
        | .error e => .error e
        | .ok rest => .ok (c.take size :: rest)

/-- Cuts every chain of the last layer behind a position. -/
def truncateLastChecked (cut : Nat) : List Layer → Except (GraphError α) (List Layer)
  | [] => .ok []
  | [l] =>
    match truncateLayerChecked cut l with
    | .error e => .error e
    | .ok l => .ok [l]
  | l :: m :: ls =>
    match truncateLastChecked cut (m :: ls) with
    | .error e => .error e
    | .ok rest => .ok (l :: rest)

/-- Cuts a range out of a network. -/
def clipChecked (net : Network) (r : ClipRange) : Edit (GraphError α) α Network := do
  let last := r.resolveLast net.layerCount
  if net.layerCount ≤ last then
    throw (.outOfRange .lastLayer last net.layerCount)
  else if last < r.firstLayer then
    let limit ← Edit.ofExcept (nextIndex last)
    throw (.outOfRange .firstLayer r.firstLayer limit)
  else
    let steps ← Edit.ofExcept (indexDifference last r.firstLayer)
    let count ← Edit.ofExcept (nextIndex steps)
    match (net.layers.drop r.firstLayer).take count with
    | [] => throw (.misuse .noLayers)
    | first :: rest =>
      let (first, table) ← severLayerChecked r.firstCut first Substitution.empty
      let layers ← Edit.ofExcept (truncateLastChecked r.lastCut (first :: rest))
      layers.flatten.flatten.forM (Edit.redirect table)
      Edit.reading (Network.new layers)

/-- Cuts a range of at least two layers out of a copy of the network. -/
def duplicateAndClipChecked (net : Network) (r : ClipRange) (suffix : String) :
    Edit (GraphError α) α Network := do
  let last := r.resolveLast net.layerCount
  if last ≤ r.firstLayer then
    throw (.outOfRange .firstLayer r.firstLayer last)
  else
    let copy ← net.duplicate suffix
    copy.clipChecked r

/-! ## The checks change nothing -/

variable {net : Network} {cut : Nat} {l : Layer} {ls : List Layer}

/-- A position in a chain has a position behind it. -/
theorem nextIndex_of_lt_length {c : Chain} (hc : c.length ≤ indexLimit) (hcut : cut < c.length) :
    nextIndex (α := α) cut = .ok (cut + 1) :=
  nextIndex_of_lt (Nat.lt_of_lt_of_le hcut hc)

theorem severLayerChecked_eq (h : ∀ c ∈ l, c.length ≤ indexLimit) (table : Substitution) :
    severLayerChecked (α := α) cut l table = severLayer cut l table := by
  induction l generalizing table with
  | nil => rfl
  | cons chain l ih =>
    obtain ⟨hchain, hl⟩ := List.forall_mem_cons.1 h
    unfold severLayerChecked severLayer
    cases hcut : chain[cut]? with
    | none => rfl
    | some boundary =>
      obtain ⟨hlt, -⟩ := List.getElem?_eq_some_iff.1 hcut
      simp only [nextIndex_of_lt_length hchain hlt, Edit.ofExcept_ok_bind, ih hl]

theorem truncateLayerChecked_eq (h : ∀ c ∈ l, c.length ≤ indexLimit) :
    truncateLayerChecked (α := α) cut l = truncateLayer cut l := by
  induction l with
  | nil => rfl
  | cons c l ih =>
    obtain ⟨hc, hl⟩ := List.forall_mem_cons.1 h
    unfold truncateLayerChecked truncateLayer
    split
    · rfl
    · rename_i hcut
      cases hrest : truncateLayer (α := α) cut l <;>
        simp only [nextIndex_of_lt_length hc (Nat.not_le.1 hcut), ih hl, hrest]

theorem truncateLastChecked_eq (h : ∀ l ∈ ls, ∀ c ∈ l, c.length ≤ indexLimit) :
    truncateLastChecked (α := α) cut ls = truncateLast cut ls := by
  induction ls with
  | nil => rfl
  | cons l ls ih =>
    obtain ⟨hl, hls⟩ := List.forall_mem_cons.1 h
    cases ls with
    | nil =>
      unfold truncateLastChecked truncateLast
      cases hlast : truncateLayer (α := α) cut l <;>
        simp only [truncateLayerChecked_eq hl, hlast]
    | cons m ls =>
      unfold truncateLastChecked truncateLast
      cases hrest : truncateLast (α := α) cut (m :: ls) <;>
        simp only [ih hls, hrest]

/-- Severing does not lengthen a chain. -/
theorem length_of_severLayer {k : Nat} {l' : Layer} {table table' : Substitution} {a b : Arena α}
    (h : (severLayer cut l table).Yields a (l', table') b) (hl : ∀ c ∈ l, c.length ≤ k) :
    ∀ c ∈ l', c.length ≤ k := by
  induction l generalizing a l' b table table' with
  | nil =>
    obtain ⟨h, -⟩ := Edit.yields_pure.1 h
    cases h
    exact List.forall_mem_nil _
  | cons c l ih =>
    obtain ⟨hc, hl⟩ := List.forall_mem_cons.1 hl
    unfold severLayer at h
    split at h
    · exact absurd h Edit.not_yields_throw
    · rename_i boundary hcut
      obtain ⟨hlt, -⟩ := List.getElem?_eq_some_iff.1 hcut
      obtain ⟨input, d, -, h⟩ := Edit.yields_bind.1 h
      obtain ⟨⟨rest, table₁⟩, e, hrest, h⟩ := Edit.yields_bind.1 h
      obtain ⟨h, -⟩ := Edit.yields_pure.1 h
      cases h
      refine List.forall_mem_cons.2 ⟨?_, ih hrest hl⟩
      rw [List.length_cons, List.length_drop]
      omega

/-- With every step checked, clipping does the same. -/
theorem Addressable.clipChecked_eq (h : net.Addressable) (r : ClipRange) :
    net.clipChecked (α := α) r = net.clip r := by
  have hcount := h.layers
  unfold clipChecked clip
  dsimp only
  split
  · rfl
  · rename_i hlast
    split
    · rw [nextIndex_of_lt (by omega), Edit.ofExcept_ok_bind]
    · rename_i hfirst
      rw [indexDifference_of_le (Nat.not_lt.1 hfirst), Edit.ofExcept_ok_bind,
        nextIndex_of_lt (by omega), Edit.ofExcept_ok_bind]
      cases hkept : (net.layers.drop r.firstLayer).take
          (r.resolveLast net.layerCount - r.firstLayer + 1) with
      | nil => rfl
      | cons first rest =>
        have hmem : ∀ l ∈ first :: rest, ∀ c ∈ l, c.length ≤ indexLimit := fun l hl =>
          h.chains l (List.mem_of_mem_drop (List.mem_of_mem_take (hkept ▸ hl)))
        obtain ⟨hfirst, hrest⟩ := List.forall_mem_cons.1 hmem
        dsimp only
        rw [severLayerChecked_eq hfirst]
        refine Edit.bind_congr ?_
        rintro a ⟨first', table⟩ b hsever
        have hsevered := List.forall_mem_cons.2 ⟨length_of_severLayer hsever hfirst, hrest⟩
        simp only [truncateLastChecked_eq hsevered]

/-- A copy is not larger than its source. -/
theorem Addressable.duplicate {net' : Network} {a b : Arena α} {suffix : String}
    (h : net.Addressable) (hcopy : (net.duplicate suffix).Yields a net' b) : net'.Addressable := by
  obtain ⟨table, c, -, hrest⟩ := Edit.yields_bind.1 hcopy
  obtain ⟨_, d, -, hnew⟩ := Edit.yields_bind.1 hrest
  obtain ⟨rfl, -⟩ := new_eq_ok_iff.1 (Edit.yields_reading.1 hnew).1
  refine ⟨by simpa [layerCount, redirect] using h.layers, ?_⟩
  simpa [redirect] using h.chains

/-- With every step checked, clipping a copy does the same. -/
theorem Addressable.duplicateAndClipChecked_eq (h : net.Addressable) (r : ClipRange)
    (suffix : String) :
    net.duplicateAndClipChecked (α := α) r suffix = net.duplicateAndClip r suffix := by
  unfold duplicateAndClipChecked duplicateAndClip
  dsimp only
  split
  · rfl
  · exact Edit.bind_congr fun a copy b hcopy => (h.duplicate hcopy).clipChecked_eq r

end Network

end PiecewiseNet
