import PiecewiseNet.OrderedMap
import Mathlib.Data.List.Nodup

/-!
# Reading ordered maps

What a map says about a key, from its entries and from how the map was made.

## Main statements

- `OrderedMap.contains_eq_true_iff`: the keys of a map are those of its entries.
- `VarMap.get?_eq_some_iff`: the value of a variable is the one listed with it.
- `OrderedMap.get?_insertAll`, `OrderedMap.get?_ofList_eq_some_iff`: maps made from distinct keys.
-/

namespace PiecewiseNet

section

variable {κ β : Type} [DecidableEq κ] [Key κ] {m : OrderedMap κ β} {k : κ} {x : β}

theorem OrderedMap.contains_eq_true_iff : m.contains k = true ↔ k ∈ m.entries.map Prod.fst := by
  rw [contains, get?, List.lookup_isSome_iff, List.mem_map]
  exact exists_congr fun e => and_congr_right fun _ => beq_iff_eq.trans eq_comm

omit [Key κ] in
/-- Where a list has no key twice, a key has the value that is listed with it. -/
theorem lookup_eq_some_iff_mem {es : List (κ × β)} (hnd : (es.map Prod.fst).Nodup) :
    es.lookup k = some x ↔ (k, x) ∈ es := by
  constructor
  · intro h
    obtain ⟨es₁, es₂, rfl, -⟩ := List.lookup_eq_some_iff.1 h
    simp
  · intro h
    obtain ⟨es₁, es₂, rfl⟩ := List.append_of_mem h
    rw [List.map_append, List.map_cons, List.nodup_append] at hnd
    refine List.lookup_eq_some_iff.2 ⟨es₁, es₂, rfl, ?_⟩
    intro e he
    rw [bne_iff_ne]
    exact (hnd.2.2 e.1 (List.mem_map_of_mem he) k (List.mem_cons_self ..)).symm

theorem OrderedMap.get?_of_mem (hnd : (m.entries.map Prod.fst).Nodup) (h : (k, x) ∈ m.entries) :
    m.get? k = some x :=
  (lookup_eq_some_iff_mem hnd).2 h

omit [Key κ] in
theorem lookup_eq_none_iff_not_mem {es : List (κ × β)} :
    es.lookup k = none ↔ k ∉ es.map Prod.fst := by
  rw [List.lookup_eq_none_iff, List.mem_map]
  constructor
  · rintro h ⟨e, he, rfl⟩
    simpa using h e he
  · intro h e he
    rw [bne_iff_ne]
    rintro rfl
    exact h ⟨e, he, rfl⟩

theorem OrderedMap.contains_insert_eq_false_iff {k' : κ} :
    (m.insert k x).contains k' = false ↔ k' ≠ k ∧ m.contains k' = false := by
  rw [contains, get?_insert, contains]
  split
  · rename_i heq
    simp [heq]
  · rename_i hne
    simp [hne]

theorem OrderedMap.size_insert_of_not_contains (h : m.contains k = false) :
    (m.insert k x).size = m.size + 1 := by
  have hnew : k ∉ m.entries.map Prod.fst := by
    rw [← contains_eq_true_iff, h]
    exact Bool.false_ne_true
  have hplace : ∀ es : List (κ × β), k ∉ es.map Prod.fst →
      (place k x es).length = es.length + 1 := by
    intro es hes
    induction es with
    | nil => rfl
    | cons e es ih =>
      rw [List.map_cons, List.mem_cons, not_or] at hes
      unfold place
      rw [if_neg (by simpa using hes.1)]
      split
      · rfl
      · rw [List.length_cons, ih hes.2, List.length_cons]
  exact hplace m.entries hnew

/-- Entries with distinct keys that are inserted into a map come before its own. -/
theorem OrderedMap.get?_insertAll {es : List (κ × β)} (hnd : (es.map Prod.fst).Nodup)
    (m : OrderedMap κ β) : (m.insertAll es).get? k = (es.lookup k).or (m.get? k) := by
  induction es generalizing m with
  | nil => rfl
  | cons e es ih =>
    obtain ⟨key, y⟩ := e
    rw [List.map_cons, List.nodup_cons] at hnd
    have hstep : (m.insertAll ((key, y) :: es)).get? k = ((m.insert key y).insertAll es).get? k :=
      rfl
    rw [hstep, ih hnd.2, get?_insert]
    by_cases hk : k = key
    · subst hk
      have hnone : es.lookup k = none := lookup_eq_none_iff_not_mem.2 hnd.1
      simp [hnone]
    · simp [hk, List.lookup_cons, beq_false_of_ne hk]

/-- The map of entries with distinct keys has these entries. -/
theorem OrderedMap.get?_ofList_eq_some_iff {es : List (κ × β)} (hnd : (es.map Prod.fst).Nodup) :
    (ofList es).get? k = some x ↔ (k, x) ∈ es := by
  rw [ofList, get?_insertAll hnd, get?_empty, Option.or_none, lookup_eq_some_iff_mem hnd]

end

namespace VarMap

variable {β : Type} {m n : VarMap β} {k : Nat} {x : β}

theorem nodup_keys (m : VarMap β) : (m.entries.map Prod.fst).Nodup := by
  rw [List.nodup_iff_pairwise_ne]
  refine m.ascending.imp ?_
  rintro k k' hbefore rfl
  simp only [Key.before, decide_eq_true_eq] at hbefore
  omega

theorem get?_eq_some_iff : m.get? k = some x ↔ (k, x) ∈ m.entries :=
  lookup_eq_some_iff_mem m.nodup_keys

theorem contains_iff_exists : m.contains k = true ↔ ∃ x, m.get? k = some x :=
  Option.isSome_iff_exists

/-- Keys whose values are listed have values of the list. -/
theorem exists_get?_of_map_eq {ks : List Nat} {xs : List β} (h : ks.map m.get? = xs.map some) :
    ∀ k ∈ ks, ∃ x ∈ xs, m.get? k = some x := by
  intro k hk
  have hmem : m.get? k ∈ xs.map some := h ▸ List.mem_map_of_mem hk
  obtain ⟨x, hx, heq⟩ := List.mem_map.1 hmem
  exact ⟨x, hx, heq.symm⟩

/-- Keys with values of their own are the same where their values are. -/
theorem map_get?_inj {js ks : List Nat} {xs : List β}
    (hinj : ∀ j k x, m.get? j = some x → m.get? k = some x → j = k)
    (hjs : js.map m.get? = xs.map some) (hks : ks.map m.get? = xs.map some) : js = ks := by
  induction xs generalizing js ks with
  | nil => rw [List.map_eq_nil_iff.1 hjs, List.map_eq_nil_iff.1 hks]
  | cons x xs ih =>
    obtain ⟨j, js, rfl, hj, hjs⟩ := List.map_eq_cons_iff.1 hjs
    obtain ⟨k, ks, rfl, hk, hks⟩ := List.map_eq_cons_iff.1 hks
    rw [hinj j k x hj hk, ih hjs hks]

theorem ext_entries (h : m.entries = n.entries) : m = n := by
  cases m
  cases n
  cases h
  rfl

/-- A key behind all keys of the map is entered at the end. -/
theorem entries_insert_of_forall_lt (h : ∀ j ∈ m.entries.map Prod.fst, j < k) :
    (m.insert k x).entries = m.entries ++ [(k, x)] := by
  have hplace : ∀ es : List (Nat × β), (∀ j ∈ es.map Prod.fst, j < k) →
      OrderedMap.place k x es = es ++ [(k, x)] := by
    intro es hes
    induction es with
    | nil => rfl
    | cons e es ih =>
      rw [List.map_cons, List.forall_mem_cons] at hes
      have hne : ¬(k == e.1) = true := by
        rw [beq_iff_eq]
        omega
      have hbefore : ¬Key.before k e.1 = true := by
        simp only [Key.before, decide_eq_true_eq]
        omega
      rw [OrderedMap.place, if_neg hne, if_neg hbefore, ih hes.2, List.cons_append]
  exact hplace m.entries h

/-- The entries of a map that are inserted into another one come before the other's. -/
theorem get?_insertAll_entries (m d : VarMap β) :
    (m.insertAll d.entries).get? k = (d.get? k).or (m.get? k) :=
  OrderedMap.get?_insertAll d.nodup_keys m

end VarMap

end PiecewiseNet
