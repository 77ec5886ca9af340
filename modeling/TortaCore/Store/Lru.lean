import TortaCore.Store.PathTrie
import Mathlib.Data.List.Perm.Basic

/-!
# Least-recently-used stores with two indices

A store that keeps its rows twice: a map from keys to values, each with the number of
its last use, and an index from these numbers back to the keys.  Numbers come from a
counter, so the index lists the keys from the least to the most recently used.

That the two indices describe the same rows is part of the type.  What a store means is
one list, `order`, the rows from the least to the most recently used, and every operation
is described by what it does to that list.

## Main definitions

* `Lru`, `Lru.get?`, `Lru.put`, `Lru.bump`, `Lru.remove`, `Lru.evictTo`.
* `Lru.Indexed`: the agreement of the indices, read from outside.
* `Lru.order`: the abstract store.

## Main results

* `Lru.order_put`, `Lru.order_remove`, `Lru.order_bump`, `Lru.order_evictTo`: the
  operations on the abstract store.
* `Lru.get?_eq_some_iff`, `Lru.length_map`: lookup and size by the abstract store.
-/

namespace TortaCore
namespace Store

open List

variable {κ α : Type*}

/-! ### The two indices -/

/-- A row of the store and the number of its last use. -/
structure Row (κ α : Type*) where
  seq : ℕ
  key : κ
  val : α

/-- Remove the row of key `k`. -/
def assocErase [DecidableEq κ] (k : κ) (rows : List (κ × α)) : List (κ × α) :=
  rows.filter fun r => r.1 ≠ k

/-- Remove the row numbered `s`. -/
def seqErase (s : ℕ) (rows : List (ℕ × κ)) : List (ℕ × κ) := rows.filter fun r => r.1 ≠ s

/-- Insert a row in the order of the numbers. -/
def seqInsert (s : ℕ) (k : κ) : List (ℕ × κ) → List (ℕ × κ)
  | [] => [(s, k)]
  | r :: rows =>
    if s < r.1 then (s, k) :: r :: rows
    else if s = r.1 then (s, k) :: rows
    else r :: seqInsert s k rows

/-- The two indices, and the counter, come from one list of rows: ascending numbers up to
the counter, and no key twice. -/
structure Represents (map : List (κ × (α × ℕ))) (recency : List (ℕ × κ)) (seq : ℕ)
    (rows : List (Row κ α)) : Prop where
  map_perm : map.Perm (rows.map fun r => (r.key, (r.val, r.seq)))
  recency_eq : recency = rows.map fun r => (r.seq, r.key)
  ascending : rows.Pairwise fun r r' => r.seq < r'.seq
  nodup : (rows.map Row.key).Nodup
  le_seq : ∀ r ∈ rows, r.seq ≤ seq

theorem seqInsert_of_lt {s : ℕ} {k : κ} {rows : List (ℕ × κ)} (h : ∀ r ∈ rows, r.1 < s) :
    seqInsert s k rows = rows ++ [(s, k)] := by
  induction rows with
  | nil => rfl
  | cons r rows ih =>
    obtain ⟨hr, hrows⟩ := forall_mem_cons.mp h
    rw [seqInsert, if_neg (by omega), if_neg (by omega), ih hrows, cons_append]

/-- Overwriting a row, up to the order of the rows. -/
theorem assocSet_perm [DecidableEq κ] {k : κ} {v : α} {rows : List (κ × α)}
    (h : (rows.map Prod.fst).Nodup) :
    (assocSet k v rows).Perm (assocErase k rows ++ [(k, v)]) := by
  induction rows with
  | nil => exact .refl _
  | cons r rows ih =>
    obtain ⟨hr, hrows⟩ := nodup_cons.mp h
    rw [assocSet]
    by_cases hk : r.1 = k
    · have hrest : assocErase k rows = rows := by
        apply filter_eq_self.mpr
        intro r' hr'
        have hne : r'.1 ≠ k := fun h' => hr (hk ▸ h' ▸ mem_map_of_mem hr')
        simpa using hne
      have hhead : assocErase k (r :: rows) = assocErase k rows :=
        filter_cons_of_neg (by simpa using hk)
      rw [if_pos hk, hhead, hrest]
      exact (perm_append_singleton _ _).symm
    · have hhead : assocErase k (r :: rows) = r :: assocErase k rows :=
        filter_cons_of_pos (by simpa using hk)
      rw [if_neg hk, hhead]
      exact (ih hrows).cons r

namespace Represents

variable {map : List (κ × (α × ℕ))} {recency : List (ℕ × κ)} {seq : ℕ} {rows : List (Row κ α)}
  (h : Represents map recency seq rows)

include h

theorem nodup_map : (map.map Prod.fst).Nodup := by
  have hperm := h.map_perm.map Prod.fst
  rw [map_map] at hperm
  exact hperm.nodup_iff.mpr h.nodup

variable {k : κ} {v : α} {r : Row κ α}

theorem mem_map_iff {s : ℕ} : (k, (v, s)) ∈ map ↔ (⟨s, k, v⟩ : Row κ α) ∈ rows := by
  rw [h.map_perm.mem_iff, mem_map]
  constructor
  · rintro ⟨⟨s', k', v'⟩, hr, heq⟩
    cases heq
    exact hr
  · intro hr
    exact ⟨_, hr, rfl⟩

theorem assocGet_eq_some_iff [DecidableEq κ] {s : ℕ} :
    assocGet k map = some (v, s) ↔ (⟨s, k, v⟩ : Row κ α) ∈ rows := by
  rw [← h.mem_map_iff]
  exact ⟨mem_of_assocGet, assocGet_of_mem h.nodup_map⟩

theorem assocGet_eq_none_iff [DecidableEq κ] : assocGet k map = none ↔ ∀ r ∈ rows, r.key ≠ k := by
  constructor
  · intro hnone r hr hk
    have hsome := h.assocGet_eq_some_iff (k := r.key) (v := r.val) (s := r.seq) |>.mpr hr
    rw [hk, hnone] at hsome
    cases hsome
  · intro hall
    cases hget : assocGet k map with
    | none => rfl
    | some w => exact absurd rfl (hall _ (h.assocGet_eq_some_iff.mp hget))

theorem seq_eq_iff {r' : Row κ α} (hr : r ∈ rows) (hr' : r' ∈ rows) :
    r.seq = r'.seq ↔ r.key = r'.key := by
  constructor
  · intro hseq
    have hnodup : (rows.map Row.seq).Nodup :=
      pairwise_map.mpr (h.ascending.imp fun hab => Nat.ne_of_lt hab)
    rw [inj_on_of_nodup_map hnodup hr hr' hseq]
  · intro hkey
    rw [inj_on_of_nodup_map h.nodup hr hr' hkey]

/-- Dropping a key, or the number it has, is the same. -/
theorem filter_seq_eq [DecidableEq κ] (hr : r ∈ rows) :
    (rows.filter fun r' => r'.seq ≠ r.seq) = rows.filter fun r' => r'.key ≠ r.key := by
  apply filter_congr
  intro r' hr'
  simp only [ne_eq, h.seq_eq_iff hr' hr]

/-- What is left when a row is dropped from both indices. -/
theorem erase [DecidableEq κ] (hr : r ∈ rows) :
    Represents (assocErase r.key map) (seqErase r.seq recency) seq
      (rows.filter fun r' => r'.key ≠ r.key) where
  map_perm := by
    have hperm := h.map_perm.filter fun row => decide (row.1 ≠ r.key)
    rwa [filter_map] at hperm
  recency_eq := by
    rw [seqErase, h.recency_eq, filter_map, ← h.filter_seq_eq hr]
    rfl
  ascending := h.ascending.filter _
  nodup := h.nodup.sublist (Sublist.map _ (filter_sublist))
  le_seq := fun r' hr' => h.le_seq r' (mem_filter.mp hr').1

/-- A row at the end with the next number. -/
theorem append (hk : ∀ r ∈ rows, r.key ≠ k) {map' : List (κ × (α × ℕ))}
    (hmap : map'.Perm (map ++ [(k, (v, seq + 1))])) :
    Represents map' (seqInsert (seq + 1) k recency) (seq + 1) (rows ++ [⟨seq + 1, k, v⟩]) where
  map_perm := by
    rw [map_append]
    exact hmap.trans (h.map_perm.append_right _)
  recency_eq := by
    rw [seqInsert_of_lt, h.recency_eq, map_append]
    · rfl
    · intro r hr
      rw [h.recency_eq] at hr
      obtain ⟨row, hrow, rfl⟩ := mem_map.mp hr
      have hle := h.le_seq row hrow
      show row.seq < seq + 1
      omega
  ascending := by
    refine pairwise_append.mpr ⟨h.ascending, pairwise_singleton _ _, ?_⟩
    intro r hr r' hr'
    obtain rfl := mem_singleton.mp hr'
    have hle := h.le_seq r hr
    show r.seq < seq + 1
    omega
  nodup := by
    rw [map_append, nodup_append]
    refine ⟨h.nodup, nodup_singleton _, ?_⟩
    intro k' hk' k'' hk''
    obtain ⟨r, hr, rfl⟩ := mem_map.mp hk'
    obtain rfl := mem_singleton.mp hk''
    exact hk r hr
  le_seq := by
    intro r hr
    obtain hr | hr := mem_append.mp hr
    · have hle := h.le_seq r hr
      omega
    · obtain rfl := mem_singleton.mp hr
      exact Nat.le_refl _

end Represents

/-! ### The store -/

/-- A store: the two indices, the counter, and that they belong together. -/
structure Lru (κ α : Type*) where
  map : List (κ × (α × ℕ))
  recency : List (ℕ × κ)
  seq : ℕ
  sound : ∃ rows, Represents map recency seq rows

namespace Lru

variable [DecidableEq κ]

def empty : Lru κ α := ⟨[], [], 0, [], .refl _, rfl, .nil, .nil, fun _ h => nomatch h⟩

def get? (k : κ) (d : Lru κ α) : Option α := (assocGet k d.map).map Prod.fst

/-- The index without the number the key had. -/
def recencyWithout (k : κ) (d : Lru κ α) : List (ℕ × κ) :=
  match assocGet k d.map with
  | none => d.recency
  | some (_, s) => seqErase s d.recency

variable {d : Lru κ α} {rows : List (Row κ α)} {k : κ} {v : α}

theorem represents_without (h : Represents d.map d.recency d.seq rows) (k : κ) :
    Represents (assocErase k d.map) (d.recencyWithout k) d.seq
      (rows.filter fun r => r.key ≠ k) := by
  unfold recencyWithout
  cases hget : assocGet k d.map with
  | some w =>
    exact h.erase (h.assocGet_eq_some_iff.mp hget)
  | none =>
    have habsent := h.assocGet_eq_none_iff.mp hget
    have hrows : (rows.filter fun r => r.key ≠ k) = rows :=
      filter_eq_self.mpr fun r hr => by simpa using habsent r hr
    have hmap : assocErase k d.map = d.map := by
      apply filter_eq_self.mpr
      intro row hrow
      have hkey := (h.map_perm.map Prod.fst).mem_iff.mp (mem_map_of_mem hrow)
      rw [map_map] at hkey
      obtain ⟨r, hr, heq⟩ := mem_map.mp hkey
      have hne : row.1 ≠ k := heq ▸ habsent r hr
      simpa using hne
    rw [hrows, hmap]
    exact h

theorem represents_put (h : Represents d.map d.recency d.seq rows) (k : κ) (v : α) :
    Represents (assocSet k (v, d.seq + 1) d.map)
      (seqInsert (d.seq + 1) k (d.recencyWithout k)) (d.seq + 1)
      ((rows.filter fun r => r.key ≠ k) ++ [⟨d.seq + 1, k, v⟩]) := by
  refine (represents_without h k).append ?_ (assocSet_perm h.nodup_map)
  intro r hr
  simpa using (mem_filter.mp hr).2

/-- Write a row as the most recently used. -/
def put (k : κ) (v : α) (d : Lru κ α) : Lru κ α where
  map := assocSet k (v, d.seq + 1) d.map
  recency := seqInsert (d.seq + 1) k (d.recencyWithout k)
  seq := d.seq + 1
  sound := d.sound.elim fun _ h => ⟨_, represents_put h k v⟩

/-- Make a row the most recently used, if it is there. -/
def bump (k : κ) (d : Lru κ α) : Lru κ α :=
  match d.get? k with
  | none => d
  | some v => d.put k v

/-- Drop a row from both indices. -/
def remove (k : κ) (d : Lru κ α) : Lru κ α where
  map := assocErase k d.map
  recency := d.recencyWithout k
  seq := d.seq
  sound := d.sound.elim fun _ h => ⟨_, represents_without h k⟩

/-- Drop every row; the counter goes on. -/
def clear (d : Lru κ α) : Lru κ α :=
  ⟨[], [], d.seq, [], .refl _, rfl, .nil, .nil, fun _ h => nomatch h⟩

/-- The least recently used row that may go. -/
def victim (evictable : α → Bool) (d : Lru κ α) : Option κ :=
  (d.recency.find? fun r => (d.get? r.2).any evictable).map Prod.snd

/-- Drop victims, at most `fuel` of them, until `cap` rows are left. -/
def evictLoop (evictable : α → Bool) (cap : ℕ) : ℕ → Lru κ α → Lru κ α
  | 0, d => d
  | fuel + 1, d =>
    if d.map.length ≤ cap then d
    else
      match d.victim evictable with
      | none => d
      | some k => evictLoop evictable cap fuel (d.remove k)

/-- Drop victims until `cap` rows are left, or none may go. -/
def evictTo (evictable : α → Bool) (cap : ℕ) (d : Lru κ α) : Lru κ α :=
  evictLoop evictable cap (d.map.length - cap) d

/-- The two indices, read from outside: they list the same rows, each number once, and no
number is above the counter. -/
structure Indexed (d : Lru κ α) : Prop where
  keys_nodup : (d.map.map Prod.fst).Nodup
  seqs_nodup : (d.map.map fun row => row.2.2).Nodup
  recency_ascending : d.recency.Pairwise fun r r' => r.1 < r'.1
  mem_recency : ∀ k v s, (k, (v, s)) ∈ d.map → (s, k) ∈ d.recency
  mem_map : ∀ s k, (s, k) ∈ d.recency → ∃ v, (k, (v, s)) ∈ d.map
  seq_le : ∀ k v s, (k, (v, s)) ∈ d.map → s ≤ d.seq

omit [DecidableEq κ] in
theorem indexed (d : Lru κ α) : d.Indexed := by
  obtain ⟨rows, h⟩ := d.sound
  refine ⟨h.nodup_map, ?_, ?_, ?_, ?_, ?_⟩
  · rw [(h.map_perm.map _).nodup_iff, map_map]
    exact pairwise_map.mpr (h.ascending.imp fun hab => Nat.ne_of_lt hab)
  · rw [h.recency_eq]
    exact pairwise_map.mpr h.ascending
  · intro k v s hrow
    rw [h.recency_eq]
    exact mem_map.mpr ⟨_, h.mem_map_iff.mp hrow, rfl⟩
  · intro s k hrow
    rw [h.recency_eq] at hrow
    obtain ⟨⟨s', k', v⟩, hr, heq⟩ := mem_map.mp hrow
    cases heq
    exact ⟨v, h.mem_map_iff.mpr hr⟩
  · intro k v s hrow
    exact h.le_seq _ (h.mem_map_iff.mp hrow)

/-! ### The abstract store -/

/-- The rows from the least to the most recently used. -/
def order (d : Lru κ α) : List (κ × α) :=
  d.recency.filterMap fun r => (d.get? r.2).map fun v => (r.2, v)

theorem order_eq (h : Represents d.map d.recency d.seq rows) :
    d.order = rows.map fun r => (r.key, r.val) := by
  rw [order, h.recency_eq, filterMap_map, ← filterMap_eq_map]
  apply filterMap_congr
  intro r hr
  have hget := h.assocGet_eq_some_iff.mpr hr
  simp [get?, hget]

theorem nodup_order (d : Lru κ α) : (d.order.map Prod.fst).Nodup := by
  obtain ⟨rows, h⟩ := d.sound
  rw [order_eq h, map_map]
  exact h.nodup

theorem length_map (d : Lru κ α) : d.map.length = d.order.length := by
  obtain ⟨rows, h⟩ := d.sound
  rw [order_eq h, List.length_map, h.map_perm.length_eq, List.length_map]

theorem get?_eq_some_iff : d.get? k = some v ↔ (k, v) ∈ d.order := by
  obtain ⟨rows, h⟩ := d.sound
  rw [order_eq h, get?, Option.map_eq_some_iff, mem_map]
  constructor
  · rintro ⟨⟨v', s⟩, hget, rfl⟩
    exact ⟨_, h.assocGet_eq_some_iff.mp hget, rfl⟩
  · rintro ⟨⟨s, k', v'⟩, hr, heq⟩
    cases heq
    exact ⟨(v', s), h.assocGet_eq_some_iff.mpr hr, rfl⟩

/-- The rows of the abstract store without a key. -/
theorem filter_key_map (rows : List (Row κ α)) (k : κ) :
    (rows.filter fun r => r.key ≠ k).map (fun r => (r.key, r.val)) =
      (rows.map fun r => (r.key, r.val)).filter fun r => r.1 ≠ k := by
  rw [filter_map]
  rfl

theorem order_put (k : κ) (v : α) (d : Lru κ α) :
    (d.put k v).order = (d.order.filter fun r => r.1 ≠ k) ++ [(k, v)] := by
  obtain ⟨rows, h⟩ := d.sound
  rw [order_eq (d := d.put k v) (represents_put h k v), order_eq h, map_append, filter_key_map]
  rfl

theorem order_remove (k : κ) (d : Lru κ α) :
    (d.remove k).order = d.order.filter fun r => r.1 ≠ k := by
  obtain ⟨rows, h⟩ := d.sound
  rw [order_eq (d := d.remove k) (represents_without h k), order_eq h, filter_key_map]

theorem order_bump (h : (k, v) ∈ d.order) :
    (d.bump k).order = (d.order.filter fun r => r.1 ≠ k) ++ [(k, v)] := by
  rw [bump, get?_eq_some_iff.mpr h]
  exact order_put k v d

/-! ### Eviction -/

/-- Dropping the key of the first row that passes a test drops that row. -/
theorem filter_key_eq_eraseP {p : κ × α → Bool} {l : List (κ × α)} {r : κ × α}
    (hnodup : (l.map Prod.fst).Nodup) (hfind : l.find? p = some r) :
    (l.filter fun r' => r'.1 ≠ r.1) = l.eraseP p := by
  obtain ⟨hp, as, bs, rfl, has⟩ := find?_eq_some_iff_append.mp hfind
  have hkeep : ∀ y ∈ as ++ bs, y.1 ≠ r.1 := by
    rw [map_append, map_cons, nodup_middle, nodup_cons, ← map_append] at hnodup
    exact fun y hy h => hnodup.1 (h ▸ mem_map_of_mem hy)
  rw [eraseP_append_right _ (by simpa using has), eraseP_cons_of_pos hp]
  rw [filter_append, filter_cons_of_neg (by simp), ← filter_append]
  exact filter_eq_self.mpr fun y hy => by simpa using hkeep y hy

/-- The victim is the first row of the abstract store that may go. -/
theorem victim_eq (evictable : α → Bool) (d : Lru κ α) :
    d.victim evictable = (d.order.find? fun r => evictable r.2).map Prod.fst := by
  obtain ⟨rows, h⟩ := d.sound
  have hget : ∀ r ∈ rows, d.get? r.key = some r.val := by
    intro r hr
    rw [get?, h.assocGet_eq_some_iff.mpr hr, Option.map_some]
  rw [victim, order_eq h, h.recency_eq, find?_map, find?_map, Option.map_map, Option.map_map]
  have htest : rows.find? ((fun r => (d.get? r.2).any evictable) ∘ fun r => (r.seq, r.key)) =
      rows.find? ((fun r => evictable r.2) ∘ fun r => (r.key, r.val)) := by
    rw [← head?_filter, ← head?_filter]
    congr 1
    apply filter_congr
    intro r hr
    simp [hget r hr]
  rw [htest]
  rfl

theorem order_evictLoop (evictable : α → Bool) (cap : ℕ) (fuel : ℕ) (d : Lru κ α)
    (hle : d.order.length - cap ≤ fuel) :
    (evictLoop evictable cap fuel d).order =
      (List.eraseP fun r : κ × α => evictable r.2)^[d.order.length - cap] d.order := by
  induction fuel generalizing d with
  | zero =>
    rw [evictLoop, Nat.le_zero.mp hle]
    rfl
  | succ fuel ih =>
    rw [evictLoop, length_map]
    split
    · next hcap => rw [Nat.sub_eq_zero_of_le hcap]; rfl
    next hcap =>
    rw [victim_eq]
    cases hfind : d.order.find? fun r => evictable r.2 with
    | none =>
      -- nothing may go: erasing leaves the list as it is, however often
      have hnone : d.order.eraseP (fun r => evictable r.2) = d.order :=
        eraseP_of_forall_not (find?_eq_none.mp hfind)
      rw [Function.iterate_fixed hnone]
      rfl
    | some r =>
      have horder := (order_remove r.1 d).trans (filter_key_eq_eraseP d.nodup_order hfind)
      have hlen : (d.remove r.1).order.length = d.order.length - 1 := by
        rw [horder]
        exact length_eraseP_of_mem (mem_of_find?_eq_some hfind)
          (find?_some (p := fun r : κ × α => evictable r.2) hfind)
      show (evictLoop evictable cap fuel (d.remove r.1)).order = _
      rw [ih _ (by omega), hlen, horder,
        show d.order.length - cap = (d.order.length - 1 - cap) + 1 by omega,
        Function.iterate_succ_apply]

/-- Eviction erases the first rows that may go, one by one. -/
theorem order_evictTo (evictable : α → Bool) (cap : ℕ) (d : Lru κ α) :
    (d.evictTo evictable cap).order =
      (List.eraseP fun r : κ × α => evictable r.2)^[d.order.length - cap] d.order := by
  rw [evictTo, length_map]
  exact order_evictLoop evictable cap _ d (Nat.le_refl _)

theorem sublist_order_evictTo (evictable : α → Bool) (cap : ℕ) (d : Lru κ α) :
    (d.evictTo evictable cap).order.Sublist d.order := by
  rw [order_evictTo]
  induction d.order.length - cap with
  | zero => exact .refl _
  | succ n ih =>
    rw [Function.iterate_succ_apply']
    exact eraseP_sublist.trans ih

theorem mem_order_put_evictTo {evictable : α → Bool} {cap : ℕ} {r : κ × α}
    (hr : r ∈ ((d.put k v).evictTo evictable cap).order) : r = (k, v) ∨ r ∈ d.order ∧ r.1 ≠ k := by
  have hput := (sublist_order_evictTo _ _ _).subset hr
  rw [order_put, mem_append, mem_singleton] at hput
  obtain hold | hnew := hput
  · exact .inr ⟨mem_of_mem_filter hold, by simpa using (mem_filter.mp hold).2⟩
  · exact .inl hnew

end Lru

end Store
end TortaCore
