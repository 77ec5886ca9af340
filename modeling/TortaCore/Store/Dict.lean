import TortaCore.Store.Lru

/-!
# Dictionaries

A map as the list of its rows, one for each key, in the order of first insertion.

## Main results

* `Dict.get?_set`, `Dict.get?_erase`, `Dict.get?_mapVals`: what the updates do to a lookup.
* `Dict.rows_perm`: the rows are determined by the lookups, up to order.
-/

namespace TortaCore
namespace Store

open List

structure Dict (κ ν : Type*) where
  rows : List (κ × ν)
  nodup : (rows.map Prod.fst).Nodup

namespace Dict

variable {κ ν : Type*}

def empty : Dict κ ν := ⟨[], List.nodup_nil⟩

def keys (d : Dict κ ν) : List κ := d.rows.map Prod.fst

@[simp] theorem length_keys (d : Dict κ ν) : d.keys.length = d.rows.length := length_map _

/-- Change every value. -/
def mapVals (f : ν → ν) (d : Dict κ ν) : Dict κ ν where
  rows := d.rows.map fun r => (r.1, f r.2)
  nodup := by
    rw [List.map_map]
    exact d.nodup

variable [DecidableEq κ]

def get? (d : Dict κ ν) (k : κ) : Option ν := assocGet k d.rows

/-- Overwrite the value of a key, or add a row. -/
def set (d : Dict κ ν) (k : κ) (v : ν) : Dict κ ν where
  rows := assocSet k v d.rows
  nodup := nodup_keys_assocSet d.nodup

def erase (d : Dict κ ν) (k : κ) : Dict κ ν where
  rows := assocErase k d.rows
  nodup := d.nodup.sublist (List.filter_sublist.map _)

@[simp] theorem get?_empty (k : κ) : (empty : Dict κ ν).get? k = none := rfl

theorem get?_set (d : Dict κ ν) (k j : κ) (v : ν) :
    (d.set k v).get? j = if k = j then some v else d.get? j :=
  assocGet_assocSet k j v d.rows

theorem get?_mapVals (f : ν → ν) (d : Dict κ ν) (k : κ) :
    (d.mapVals f).get? k = (d.get? k).map f := by
  simp only [get?, mapVals]
  induction d.rows with
  | nil => rfl
  | cons r rows ih =>
    by_cases hk : r.1 = k
    · simp [assocGet, hk]
    · simpa [assocGet, hk] using ih

variable {d : Dict κ ν} {k : κ} {v : ν}

theorem mem_rows_iff : (k, v) ∈ d.rows ↔ d.get? k = some v :=
  ⟨assocGet_of_mem d.nodup, mem_of_assocGet⟩

theorem mem_rows_set {r : κ × ν} (h : r ∈ (d.set k v).rows) :
    r = (k, v) ∨ r ∈ d.rows := by
  rw [mem_rows_iff, get?_set] at h
  split at h
  · next hk =>
    cases h
    exact .inl (by rw [hk])
  · exact .inr (mem_rows_iff.mpr h)

theorem get?_erase (d : Dict κ ν) (k j : κ) :
    (d.erase k).get? j = if k = j then none else d.get? j := by
  ext v
  have hmem : (j, v) ∈ (d.erase k).rows ↔ (j, v) ∈ d.rows ∧ decide (j ≠ k) = true := mem_filter
  rw [← mem_rows_iff, hmem]
  by_cases hk : k = j
  · simp [hk]
  · simp [hk, Ne.symm hk, mem_rows_iff]

/-! ### Invariants of the rows -/

/-- Every row has the property. -/
def All (P : κ → ν → Prop) (d : Dict κ ν) : Prop := ∀ k v, d.get? k = some v → P k v

variable {P Q : κ → ν → Prop}

theorem all_empty : (empty : Dict κ ν).All P := by
  intro k v h
  cases h

theorem All.mono (h : d.All P) (hPQ : ∀ k v, P k v → Q k v) : d.All Q :=
  fun k v hget => hPQ k v (h k v hget)

theorem All.set (h : d.All P) (hv : P k v) : (d.set k v).All P := by
  intro j w hget
  rw [get?_set] at hget
  split at hget
  · next hk =>
    cases hget
    exact hk ▸ hv
  · exact h j w hget

theorem All.mapVals (h : d.All P) {f : ν → ν} (hf : ∀ k v, P k v → Q k (f v)) :
    (d.mapVals f).All Q := by
  intro k v hget
  rw [get?_mapVals, Option.map_eq_some_iff] at hget
  obtain ⟨w, hw, rfl⟩ := hget
  exact hf k w (h k w hw)

theorem All.getD (h : d.All P) (k : κ) (hv : P k v) : P k ((d.get? k).getD v) := by
  cases hget : d.get? k with
  | none => exact hv
  | some w => exact h k w hget

/-! ### Keys -/

theorem mem_keys_set {k j : κ} :
    j ∈ (d.set k v).keys ↔ j = k ∨ j ∈ d.keys :=
  mem_keys_assocSet

theorem keys_set_of_get?_eq_none (h : d.get? k = none) (v : ν) :
    (d.set k v).keys = d.keys ++ [k] := by
  obtain ⟨rows, hnodup⟩ := d
  simp only [get?, keys, set] at h ⊢
  clear hnodup
  induction rows with
  | nil => rfl
  | cons row rows ih =>
    rw [assocGet] at h
    split at h
    · cases h
    · next hk => rw [assocSet, if_neg hk, map_cons, ih h, map_cons, cons_append]

theorem keys_erase_of_keys_eq_cons {rest : List κ}
    (h : d.keys = k :: rest) : (d.erase k).keys = rest := by
  have hnodup : (k :: rest).Nodup := h ▸ d.nodup
  have hfilter : (d.erase k).keys = d.keys.filter fun j => j ≠ k := by
    rw [keys, keys, filter_map]
    rfl
  rw [hfilter, h, filter_cons_of_neg (by simp), filter_eq_self]
  intro j hj
  have : j ≠ k := fun hjk => (nodup_cons.mp hnodup).1 (hjk ▸ hj)
  simpa using this

/-- Dictionaries with the same lookups have the same rows, up to order. -/
theorem rows_perm {d d' : Dict κ ν} (h : ∀ k, d.get? k = d'.get? k) : d.rows.Perm d'.rows := by
  rw [perm_ext_iff_of_nodup d.nodup.of_map d'.nodup.of_map]
  rintro ⟨k, v⟩
  rw [mem_rows_iff, mem_rows_iff, h]

end Dict

end Store
end TortaCore
