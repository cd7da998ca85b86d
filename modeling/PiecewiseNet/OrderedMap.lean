/-!
# Ordered maps

A finite map that lists its entries in ascending order of their keys, each key once.

## Main definitions

- `Key`: types of keys with a strict total order.
- `OrderedMap`: the entries, in ascending order.
- `OrderedMap.insert`, `OrderedMap.get?`: writing and reading.
- `VarMap`: maps from variable numbers.
-/

namespace PiecewiseNet

/-- Keys with a decidable strict total order. -/
class Key (κ : Type) where
  /-- The first key comes before the second. -/
  before : κ → κ → Bool
  /-- The order is transitive. -/
  before_trans : ∀ {a b c : κ}, before a b = true → before b c = true → before a c = true
  /-- Of two distinct keys one comes before the other. -/
  before_total : ∀ {a b : κ}, before a b = false → a ≠ b → before b a = true

instance : Key Nat where
  before a b := decide (a < b)
  before_trans h₁ h₂ := by simp only [decide_eq_true_eq] at *; omega
  before_total h₁ h₂ := by simp only [decide_eq_true_eq, decide_eq_false_iff_not] at *; omega

/-- Pairs are ordered by their first components, and where these agree by their second. -/
instance : Key (Nat × Nat) where
  before a b := decide (a.1 < b.1 ∨ (a.1 = b.1 ∧ a.2 < b.2))
  before_trans h₁ h₂ := by simp only [decide_eq_true_eq] at *; omega
  before_total {a b} h₁ h₂ := by
    simp only [decide_eq_true_eq, decide_eq_false_iff_not] at *
    rcases a with ⟨a₁, a₂⟩
    rcases b with ⟨b₁, b₂⟩
    simp only [ne_eq, Prod.mk.injEq] at *
    omega

/-- A finite map in ascending order of its keys. -/
structure OrderedMap (κ β : Type) [Key κ] where
  entries : List (κ × β)
  /-- Every key comes before those behind it. -/
  ascending : (entries.map Prod.fst).Pairwise fun a b => Key.before a b = true

/-- Maps from variable numbers. -/
abbrev VarMap (β : Type) := OrderedMap Nat β

namespace OrderedMap

variable {κ β : Type} [DecidableEq κ] [Key κ]

instance [BEq β] : BEq (OrderedMap κ β) :=
  ⟨fun m n => m.entries == n.entries⟩

instance [DecidableEq β] : DecidableEq (OrderedMap κ β) := fun m n =>
  decidable_of_iff (m.entries = n.entries) <| by
    cases m; cases n; simp

/-- The map without entries. -/
def empty : OrderedMap κ β :=
  ⟨[], List.Pairwise.nil⟩

/-- The entries with one more, in place of an earlier one for the same key. -/
def place (key : κ) (value : β) : List (κ × β) → List (κ × β)
  | [] => [(key, value)]
  | e :: es =>
    if key == e.1 then (key, value) :: es
    else if Key.before key e.1 then (key, value) :: e :: es
    else e :: place key value es

theorem mem_keys_place {key k : κ} {value : β} {es : List (κ × β)} :
    k ∈ (place key value es).map Prod.fst ↔ k = key ∨ k ∈ es.map Prod.fst := by
  induction es with
  | nil => simp [place]
  | cons e es ih =>
    unfold place
    split
    · rename_i h
      simp [beq_iff_eq.1 h]
    · split
      · simp
      · simp only [List.map_cons, List.mem_cons, ih]
        constructor
        · rintro (h | h | h) <;> simp [h]
        · rintro (h | h | h) <;> simp [h]

theorem pairwise_place {key : κ} {value : β} {es : List (κ × β)}
    (h : (es.map Prod.fst).Pairwise fun a b => Key.before a b = true) :
    ((place key value es).map Prod.fst).Pairwise fun a b => Key.before a b = true := by
  induction es with
  | nil => simp [place]
  | cons e es ih =>
    simp only [List.map_cons, List.pairwise_cons] at h
    unfold place
    split
    · rename_i heq
      simp only [List.map_cons, List.pairwise_cons]
      exact ⟨beq_iff_eq.1 heq ▸ h.1, h.2⟩
    · rename_i hne
      have hne : key ≠ e.1 := by simpa using hne
      split
      · rename_i hlt
        simp only [List.map_cons, List.pairwise_cons, List.mem_cons]
        refine ⟨?_, h⟩
        rintro k (rfl | hk)
        · exact hlt
        · exact Key.before_trans hlt (h.1 k hk)
      · rename_i hle
        simp only [List.map_cons, List.pairwise_cons, mem_keys_place]
        refine ⟨?_, ih h.2⟩
        rintro k (rfl | hk)
        · exact Key.before_total (by simpa using hle) hne
        · exact h.1 k hk

/-- The map with one more entry, in place of an earlier one for the same key. -/
def insert (m : OrderedMap κ β) (key : κ) (value : β) : OrderedMap κ β :=
  ⟨place key value m.entries, pairwise_place m.ascending⟩

/-- The value of a key. -/
def get? (m : OrderedMap κ β) (key : κ) : Option β :=
  m.entries.lookup key

/-- The key has a value. -/
def contains (m : OrderedMap κ β) (key : κ) : Bool :=
  (m.get? key).isSome

/-- The number of entries. -/
def size (m : OrderedMap κ β) : Nat :=
  m.entries.length

/-- The entries inserted one after the other. -/
def insertAll (m : OrderedMap κ β) (es : List (κ × β)) : OrderedMap κ β :=
  es.foldl (fun m e => m.insert e.1 e.2) m

/-- The entries as a map; the last entry for a key counts. -/
def ofList (es : List (κ × β)) : OrderedMap κ β :=
  empty.insertAll es

@[simp] theorem get?_empty (key : κ) : (empty : OrderedMap κ β).get? key = none := rfl

theorem lookup_place {key k : κ} {value : β} {es : List (κ × β)} :
    (place key value es).lookup k = if k = key then some value else es.lookup k := by
  induction es with
  | nil =>
    by_cases hk : k = key
    · simp [place, hk]
    · simp [place, List.lookup_cons, hk, beq_false_of_ne hk]
  | cons e es ih =>
    obtain ⟨a, b⟩ := e
    unfold place
    by_cases hk : k = key
    · subst hk
      by_cases heq : k = a
      · simp [heq]
      · by_cases hlt : Key.before k a
        · simp [heq, hlt]
        · simp [hlt, List.lookup_cons, ih, beq_false_of_ne heq]
    · have hb := beq_false_of_ne hk
      by_cases heq : key = a
      · subst heq
        simp [List.lookup_cons, hk, hb]
      · by_cases hlt : Key.before key a
        · simp [heq, hlt, List.lookup_cons, hk, hb]
        · simp [hlt, heq, List.lookup_cons, ih, hk]

theorem get?_insert (m : OrderedMap κ β) (key : κ) (value : β) (k : κ) :
    (m.insert key value).get? k = if k = key then some value else m.get? k :=
  lookup_place

end OrderedMap

end PiecewiseNet
