import TortaCore.Store.Dict
import Mathlib.Algebra.BigOperators.Group.List.Basic

/-!
# Set-associative tables

A table of buckets, each a dictionary, where a key may stand in one of the buckets only: the one
that its slot names.  Seen from outside it is one dictionary.

## Main definitions

* `Ways.toDict`: the dictionary it stands for.
* `Dict.total`, `Ways.total`: what the values sum up to, in any commutative monoid.

## Main results

* `Ways.get?_set`, `Ways.get?_erase`: what the updates do to a lookup.
* `Ways.total_put`, `Ways.total_add`, `Ways.total_drop`: what a change of one row does to a
  total.
-/

namespace TortaCore
namespace Store

open List

/-! ### Totals of a dictionary -/

namespace Dict

variable {κ ν M : Type*} [AddCommMonoid M] (f : ν → M)

/-- The sum over all values. -/
def total (d : Dict κ ν) : M := (d.rows.map fun r => f r.2).sum

variable [DecidableEq κ] {d : Dict κ ν} {k : κ} {v w : ν}

theorem total_congr {d' : Dict κ ν} (h : ∀ k, d.get? k = d'.get? k) : d.total f = d'.total f :=
  ((rows_perm h).map _).sum_eq

theorem total_insert (h : d.get? k = none) (w : ν) :
    (d.set k w).total f = d.total f + f w := by
  obtain ⟨rows, hnodup⟩ := d
  simp only [get?, total, set] at h ⊢
  clear hnodup
  induction rows with
  | nil => simp [assocSet]
  | cons r rows ih =>
    rw [assocGet] at h
    split at h
    · cases h
    · next hk =>
      rw [assocSet, if_neg hk, map_cons, map_cons, sum_cons, sum_cons, ih h, add_assoc]

theorem total_erase (h : d.get? k = some v) : (d.erase k).total f + f v = d.total f := by
  have hnone : (d.erase k).get? k = none := by rw [get?_erase, if_pos rfl]
  rw [← total_insert f hnone v]
  refine total_congr f fun j => ?_
  rw [get?_set, get?_erase]
  split
  · next hj => rw [← hj, h]
  · rfl

theorem total_set (h : d.get? k = some v) (w : ν) :
    (d.set k w).total f + f v = d.total f + f w := by
  have hnone : (d.erase k).get? k = none := by rw [get?_erase, if_pos rfl]
  have hset : (d.set k w).total f = (d.erase k).total f + f w := by
    rw [← total_insert f hnone w]
    refine total_congr f fun j => ?_
    rw [get?_set, get?_set, get?_erase]
    split <;> rfl
  rw [hset, ← total_erase f h, add_right_comm]

theorem total_eq_zero (h : d.All fun _ v => f v = 0) : d.total f = 0 := by
  refine sum_eq_zero fun x hx => ?_
  obtain ⟨⟨k, v⟩, hrow, rfl⟩ := mem_map.mp hx
  exact h k v (mem_rows_iff.mp hrow)

end Dict

/-! ### The table -/

/-- Buckets in which every key stands in its slot. -/
structure Ways (κ ν : Type*) (slot : κ → ℕ) where
  buckets : List (Dict κ ν)
  room : ∀ k, slot k < buckets.length
  home : ∀ i d, buckets[i]? = some d → ∀ k ∈ d.keys, slot k = i

namespace Ways

variable {κ ν : Type*} {slot : κ → ℕ}

def empty (n : ℕ) (h : ∀ k, slot k < n) : Ways κ ν slot where
  buckets := List.replicate n .empty
  room k := by rw [List.length_replicate]; exact h k
  home i d hd k hk := by
    obtain rfl := (List.mem_replicate.mp (List.mem_of_getElem? hd)).2
    cases hk

/-- All rows, bucket by bucket. -/
def rows (w : Ways κ ν slot) : List (κ × ν) := w.buckets.flatMap Dict.rows

theorem nodup_rows (w : Ways κ ν slot) : (w.rows.map Prod.fst).Nodup := by
  rw [rows, map_flatMap, nodup_flatMap]
  refine ⟨fun d _ => d.nodup, pairwise_iff_getElem.mpr fun i j hi hj hij => ?_⟩
  intro k hki hkj
  have hi' := w.home i _ (getElem?_eq_getElem hi) k hki
  have hj' := w.home j _ (getElem?_eq_getElem hj) k hkj
  omega

/-- The dictionary the table stands for. -/
def toDict (w : Ways κ ν slot) : Dict κ ν := ⟨w.rows, w.nodup_rows⟩

variable [DecidableEq κ]

def get? (w : Ways κ ν slot) (k : κ) : Option ν := w.buckets[slot k]?.bind fun d => d.get? k

/-- Change the bucket of a key, in its row only. -/
def modify (w : Ways κ ν slot) (k : κ) (f : Dict κ ν → Dict κ ν)
    (hf : ∀ d j, j ∈ (f d).keys → j = k ∨ j ∈ d.keys) : Ways κ ν slot where
  buckets := w.buckets.modify (slot k) f
  room j := by rw [List.length_modify]; exact w.room j
  home i d hd j hj := by
    rw [List.getElem?_modify] at hd
    split at hd
    · next hi =>
      obtain ⟨d₀, hd₀, rfl⟩ := Option.map_eq_some_iff.mp hd
      rcases hf d₀ j hj with rfl | hj
      · exact hi
      · exact w.home i d₀ hd₀ j hj
    · exact w.home i d (by simpa using hd) j hj

def set (w : Ways κ ν slot) (k : κ) (v : ν) : Ways κ ν slot :=
  w.modify k (·.set k v) fun _ _ hj => Dict.mem_keys_set.mp hj

def erase (w : Ways κ ν slot) (k : κ) : Ways κ ν slot :=
  w.modify k (·.erase k) fun d j hj => by
    obtain ⟨r, hr, rfl⟩ := List.mem_map.mp hj
    exact .inr (List.mem_map_of_mem (List.mem_of_mem_filter hr))

variable {w : Ways κ ν slot} {k j : κ} {v : ν}

theorem get?_empty (n : ℕ) (h : ∀ k, slot k < n) (k : κ) :
    (empty n h : Ways κ ν slot).get? k = none := by
  have hbucket : (empty n h : Ways κ ν slot).buckets[slot k]? = some .empty := by
    simp [empty, h k]
  rw [get?, hbucket]
  rfl

/-- What is done to the bucket is done to the lookups of its slot. -/
theorem get?_modify {f : Dict κ ν → Dict κ ν} {hf} {o : Option ν} (hk : ∀ d, (f d).get? k = o)
    (hj : ∀ d j, k ≠ j → (f d).get? j = d.get? j) :
    (w.modify k f hf).get? j = if k = j then o else w.get? j := by
  have hroom := getElem?_eq_getElem (w.room j)
  simp only [get?, modify, getElem?_modify, hroom]
  by_cases hkj : k = j
  · subst hkj
    simp [hk]
  · by_cases hslot : slot k = slot j
    · simp [hslot, hkj, hj _ j hkj]
    · simp [hslot, hkj]

theorem get?_set : (w.set k v).get? j = if k = j then some v else w.get? j :=
  get?_modify (fun d => by rw [Dict.get?_set, if_pos rfl])
    fun d j hkj => by rw [Dict.get?_set, if_neg hkj]

theorem get?_erase : (w.erase k).get? j = if k = j then none else w.get? j :=
  get?_modify (fun d => by rw [Dict.get?_erase, if_pos rfl])
    fun d j hkj => by rw [Dict.get?_erase, if_neg hkj]

@[simp] theorem get?_set_self : (w.set k v).get? k = some v := by rw [get?_set, if_pos rfl]

theorem mem_rows_iff : (k, v) ∈ w.rows ↔ w.get? k = some v := by
  rw [rows, mem_flatMap, get?, Option.bind_eq_some_iff]
  constructor
  · rintro ⟨d, hd, hrow⟩
    obtain ⟨i, hi⟩ := getElem?_of_mem hd
    have hslot := w.home i d hi k (mem_map_of_mem hrow)
    exact ⟨d, hslot ▸ hi, Dict.mem_rows_iff.mp hrow⟩
  · rintro ⟨d, hd, hget⟩
    exact ⟨d, mem_of_getElem? hd, Dict.mem_rows_iff.mpr hget⟩

theorem get?_toDict : w.toDict.get? k = w.get? k := by
  ext v
  rw [← Dict.mem_rows_iff, ← mem_rows_iff]
  rfl

/-! ### Totals -/

variable {M : Type*} [AddCommMonoid M] (f : ν → M)

def total (w : Ways κ ν slot) : M := w.toDict.total f

variable {w' : Ways κ ν slot} {u : ν}

theorem total_congr (h : ∀ j, w'.get? j = w.get? j) : w'.total f = w.total f :=
  Dict.total_congr f fun j => by rw [get?_toDict, get?_toDict, h]

theorem total_put (hget : w.get? k = some v)
    (h : ∀ j, w'.get? j = if k = j then some u else w.get? j) :
    w'.total f + f v = w.total f + f u := by
  rw [total, total, ← Dict.total_set f (get?_toDict.trans hget) u]
  congr 1
  refine Dict.total_congr f fun j => ?_
  rw [get?_toDict, h, Dict.get?_set, get?_toDict]

theorem total_add (hget : w.get? k = none)
    (h : ∀ j, w'.get? j = if k = j then some u else w.get? j) :
    w'.total f = w.total f + f u := by
  rw [total, total, ← Dict.total_insert f (get?_toDict.trans hget) u]
  refine Dict.total_congr f fun j => ?_
  rw [get?_toDict, h, Dict.get?_set, get?_toDict]

theorem total_drop (hget : w.get? k = some v)
    (h : ∀ j, w'.get? j = if k = j then none else w.get? j) : w'.total f + f v = w.total f := by
  rw [total, total, ← Dict.total_erase f (get?_toDict.trans hget)]
  congr 1
  refine Dict.total_congr f fun j => ?_
  rw [get?_toDict, h, Dict.get?_erase, get?_toDict]

theorem total_eq_zero (h : ∀ k v, w.get? k = some v → f v = 0) : w.total f = 0 :=
  Dict.total_eq_zero f fun k v hget => h k v (get?_toDict.symm.trans hget)

omit [DecidableEq κ] in
theorem map_total {N : Type*} [AddCommMonoid N] (φ : M →+ N) (w : Ways κ ν slot) :
    φ (w.total f) = w.total fun v => φ (f v) := by
  rw [total, Dict.total, map_list_sum, map_map]
  rfl

end Ways
end Store
end TortaCore
