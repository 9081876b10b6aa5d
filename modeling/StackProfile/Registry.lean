/-! # Registries

A finite map that keeps its entries in the order in which their keys arrived.  Inserting under a
known key replaces the value and keeps the place of the key.

Main lemmas: an insertion adds its key at the end unless the key is known (`keys_insert`), and
changes what `get?` answers for that key only (`get?_insert`). -/

namespace StackProfile

/-- A finite map in order of arrival. -/
structure Registry (κ ν : Type) where
  entries : List (κ × ν) := []
  nodup_keys : (entries.map Prod.fst).Nodup := by exact List.nodup_nil
deriving DecidableEq, Repr

namespace Registry

variable {κ ν : Type}

/-- The map without entries. -/
def empty : Registry κ ν := {}

/-- The keys in order of arrival. -/
def keys (r : Registry κ ν) : List κ := r.entries.map Prod.fst

/-- The number of keys. -/
def size (r : Registry κ ν) : Nat := r.entries.length

variable [DecidableEq κ]

/-- The value under a key. -/
def get? (r : Registry κ ν) (k : κ) : Option ν := r.entries.lookup k

/-! ### Insertion -/

/-- The entries after one of them was inserted. -/
def insertEntry (k : κ) (v : ν) : List (κ × ν) → List (κ × ν)
  | [] => [(k, v)]
  | e :: es => if e.1 = k then (k, v) :: es else e :: insertEntry k v es

theorem keys_insertEntry (k : κ) (v : ν) (es : List (κ × ν)) :
    (insertEntry k v es).map Prod.fst =
      if k ∈ es.map Prod.fst then es.map Prod.fst else es.map Prod.fst ++ [k] := by
  induction es with
  | nil => simp [insertEntry]
  | cons e es ih =>
      rw [insertEntry]
      by_cases h : e.1 = k
      · simp [h]
      · rw [if_neg h, List.map_cons, ih, List.map_cons]
        by_cases hk : k ∈ es.map Prod.fst
        · rw [if_pos hk, if_pos (List.mem_cons_of_mem _ hk)]
        · rw [if_neg hk, if_neg (by simpa [Ne.symm h] using hk), List.cons_append]

theorem nodup_keys_insertEntry (k : κ) (v : ν) {es : List (κ × ν)}
    (h : (es.map Prod.fst).Nodup) : ((insertEntry k v es).map Prod.fst).Nodup := by
  rw [keys_insertEntry]
  split
  · exact h
  · rename_i hk
    exact List.nodup_append.2
      ⟨h, List.pairwise_singleton _ _, fun a ha b hb =>
        List.mem_singleton.1 hb ▸ ne_of_mem_of_not_mem ha hk⟩

theorem lookup_cons_eq_ite (e : κ × ν) (es : List (κ × ν)) (j : κ) :
    (e :: es).lookup j = if j = e.1 then some e.2 else es.lookup j := by
  obtain ⟨k, v⟩ := e
  by_cases h : j = k
  · simp [h]
  · have hb : (j == k) = false := by simpa using h
    rw [List.lookup_cons, hb, if_neg h]

theorem lookup_insertEntry (k : κ) (v : ν) (es : List (κ × ν)) (j : κ) :
    (insertEntry k v es).lookup j = if j = k then some v else es.lookup j := by
  induction es with
  | nil => rw [insertEntry, lookup_cons_eq_ite]
  | cons e es ih =>
      rw [insertEntry]
      by_cases he : e.1 = k
      · rw [if_pos he, lookup_cons_eq_ite, lookup_cons_eq_ite, he]
        split <;> rfl
      · rw [if_neg he, lookup_cons_eq_ite, lookup_cons_eq_ite, ih]
        by_cases hj : j = e.1
        · rw [if_pos hj, if_neg fun h => he (hj ▸ h), if_pos hj]
        · rw [if_neg hj, if_neg hj]

/-- Sets the value under a key. -/
def insert (r : Registry κ ν) (k : κ) (v : ν) : Registry κ ν :=
  ⟨insertEntry k v r.entries, nodup_keys_insertEntry k v r.nodup_keys⟩

/-- The map of a list of entries; of equal keys the last one counts. -/
def ofList (es : List (κ × ν)) : Registry κ ν := es.foldl (fun r e => r.insert e.1 e.2) empty

@[simp] theorem get?_empty (k : κ) : (empty : Registry κ ν).get? k = none := rfl

/-- A known key keeps its place, a fresh one goes to the end. -/
theorem keys_insert (r : Registry κ ν) (k : κ) (v : ν) :
    (r.insert k v).keys = if k ∈ r.keys then r.keys else r.keys ++ [k] :=
  keys_insertEntry k v r.entries

theorem get?_insert (r : Registry κ ν) (k : κ) (v : ν) (j : κ) :
    (r.insert k v).get? j = if j = k then some v else r.get? j :=
  lookup_insertEntry k v r.entries j

@[simp] theorem get?_insert_self (r : Registry κ ν) (k : κ) (v : ν) :
    (r.insert k v).get? k = some v := by
  rw [get?_insert, if_pos rfl]

theorem get?_insert_of_ne (r : Registry κ ν) {k j : κ} (h : j ≠ k) (v : ν) :
    (r.insert k v).get? j = r.get? j := by
  rw [get?_insert, if_neg h]

theorem get?_eq_none_iff {r : Registry κ ν} {k : κ} : r.get? k = none ↔ k ∉ r.keys := by
  rw [get?, List.lookup_eq_none_iff, keys, List.mem_map]
  constructor
  · rintro h ⟨e, he, rfl⟩
    simpa using h e he
  · intro h e he
    simpa using fun hk => h ⟨e, he, hk.symm⟩

end Registry

end StackProfile
