import TortaCore.Store.Lru

/-!
# Uses and evictions of a least-recently-used store

The order of a store is the order of the last uses of its rows.  This module keeps the
log of the uses beside the store, and the list of the evictions with the rows that were
there, so that "least recently used" can be read off the log alone.

## Main definitions

* `Lru.Tracks`: the rows stand in the order of their last uses.
* `Lru.evictTrace`: the rows that an eviction drops, one by one.

## Main results

* `Lru.Tracks.put`, `Lru.Tracks.bump`, `Lru.Tracks.of_sublist`: the operations.
* `Lru.evictTo_eq_foldl`: the trace is what the eviction does.
* `Lru.oldest_of_mem_evictTrace`: what goes is the oldest row that may go.
* `Lru.length_evictTo`: what an eviction leaves.
-/

namespace TortaCore
namespace Store

open List

variable {κ α : Type*} [DecidableEq κ]

/-- The number of the last use of a key, by the log of all uses; zero without one. -/
def lastUse (log : List κ) (k : κ) : ℕ := log.length - log.reverse.idxOf k

theorem lastUse_le_length (log : List κ) (k : κ) : lastUse log k ≤ log.length :=
  Nat.sub_le _ _

theorem lastUse_append_self (log : List κ) (k : κ) :
    lastUse (log ++ [k]) k = log.length + 1 := by
  simp [lastUse]

theorem lastUse_append_of_ne {log : List κ} {j k : κ} (h : j ≠ k) :
    lastUse (log ++ [j]) k = lastUse log k := by
  rw [lastUse, reverse_append, reverse_singleton, singleton_append,
    idxOf_cons_ne _ h, length_append, length_singleton, lastUse]
  omega

/-- A row that was evicted, and the rows of the store at that moment. -/
structure Eviction (κ α : Type*) where
  key : κ
  rows : List (κ × α)

/-- What was evicted could go, and of all rows that could its last use was the earliest. -/
def Eviction.Oldest (evictable : α → Bool) (log : List κ) (e : Eviction κ α) : Prop :=
  ∃ v, (e.key, v) ∈ e.rows ∧ evictable v = true ∧
    ∀ r ∈ e.rows, evictable r.2 = true → lastUse log e.key ≤ lastUse log r.1

namespace Lru

/-- The rows stand in the order of their last uses. -/
def Tracks (log : List κ) (d : Lru κ α) : Prop :=
  d.order.Pairwise fun r r' => lastUse log r.1 < lastUse log r'.1

variable {d : Lru κ α} {log : List κ} {evictable : α → Bool}

theorem tracks_of_order_eq_nil (h : d.order = []) :
    d.Tracks log := by
  rw [Tracks, h]
  exact .nil

theorem Tracks.of_sublist {d d' : Lru κ α} (h : d.Tracks log)
    (hsub : d'.order.Sublist d.order) : d'.Tracks log :=
  Pairwise.sublist hsub h

/-- The row that is used comes last, and the others keep their last uses. -/
theorem Tracks.use {d d' : Lru κ α} {k : κ} {v : α} (h : d.Tracks log)
    (horder : d'.order = (d.order.filter fun r => r.1 ≠ k) ++ [(k, v)]) :
    d'.Tracks (log ++ [k]) := by
  have hkeep : ∀ r ∈ d.order.filter fun r => r.1 ≠ k,
      lastUse (log ++ [k]) r.1 = lastUse log r.1 := by
    intro r hr
    have hne : r.1 ≠ k := by simpa using (mem_filter.mp hr).2
    exact lastUse_append_of_ne hne.symm
  rw [Tracks, horder]
  refine pairwise_append.mpr ⟨?_, pairwise_singleton _ _, ?_⟩
  · refine (Pairwise.filter _ h).imp_of_mem fun {a b} ha hb hlt => ?_
    rwa [hkeep a ha, hkeep b hb]
  · intro r hr r' hr'
    obtain rfl := mem_singleton.mp hr'
    have hle := lastUse_le_length log r.1
    rw [hkeep r hr, lastUse_append_self]
    omega

theorem Tracks.put (h : d.Tracks log) (k : κ) (v : α) :
    (d.put k v).Tracks (log ++ [k]) :=
  h.use (order_put k v d)

theorem Tracks.bump (h : d.Tracks log) (k : κ) :
    (d.bump k).Tracks (log ++ [k]) := by
  cases hget : d.get? k with
  | some v => exact h.use (order_bump (get?_eq_some_iff.mp hget))
  | none =>
    -- a use of a key that is not there moves nothing
    have habsent : ∀ r ∈ d.order, k ≠ r.1 := by
      rintro r hr rfl
      rw [get?_eq_some_iff.mpr hr] at hget
      cases hget
    rw [Lru.bump, hget]
    refine Pairwise.imp_of_mem (fun {a b} ha hb hlt => ?_) h
    rwa [lastUse_append_of_ne (habsent a ha), lastUse_append_of_ne (habsent b hb)]

/-! ### Evictions -/

def evictTraceLoop (evictable : α → Bool) (cap : ℕ) : ℕ → Lru κ α → List (Eviction κ α)
  | 0, _ => []
  | fuel + 1, d =>
    if d.map.length ≤ cap then []
    else
      match d.victim evictable with
      | none => []
      | some k => ⟨k, d.order⟩ :: evictTraceLoop evictable cap fuel (d.remove k)

/-- What `evictTo` drops, in its order. -/
def evictTrace (evictable : α → Bool) (cap : ℕ) (d : Lru κ α) : List (Eviction κ α) :=
  evictTraceLoop evictable cap (d.map.length - cap) d

theorem evictLoop_eq_foldl (evictable : α → Bool) (cap : ℕ) (fuel : ℕ) (d : Lru κ α) :
    evictLoop evictable cap fuel d =
      (evictTraceLoop evictable cap fuel d).foldl (fun d e => d.remove e.key) d := by
  induction fuel generalizing d with
  | zero => rfl
  | succ fuel ih =>
    rw [evictLoop, evictTraceLoop]
    by_cases hcap : d.map.length ≤ cap
    · simp [hcap]
    · cases hv : d.victim evictable with
      | none => simp [hcap]
      | some k => simpa [hcap] using ih (d.remove k)

/-- The trace is what the eviction does. -/
theorem evictTo_eq_foldl (evictable : α → Bool) (cap : ℕ) (d : Lru κ α) :
    d.evictTo evictable cap = (d.evictTrace evictable cap).foldl (fun d e => d.remove e.key) d :=
  evictLoop_eq_foldl evictable cap _ d

/-- In a store that tracks its uses, the victim is the oldest row that may go. -/
theorem oldest_of_victim {k : κ} (h : d.Tracks log) (hv : d.victim evictable = some k) :
    (⟨k, d.order⟩ : Eviction κ α).Oldest evictable log := by
  rw [victim_eq] at hv
  obtain ⟨r, hr, rfl⟩ := Option.map_eq_some_iff.mp hv
  obtain ⟨hev, before, after, horder, hbefore⟩ := find?_eq_some_iff_append.mp hr
  refine ⟨r.2, ?_, hev, fun r' hr' hev' => ?_⟩
  · exact mem_of_find?_eq_some hr
  · rw [Tracks, horder] at h
    rw [horder] at hr'
    -- what stands before the first row that may go may not go
    rcases mem_append.mp hr' with hmem | hmem
    · have hnot := hbefore r' hmem
      simp [hev'] at hnot
    · rcases mem_cons.mp hmem with rfl | hmem
      · exact Nat.le_refl _
      · have hcons := (pairwise_append.mp h).2.1
        exact Nat.le_of_lt (rel_of_pairwise_cons hcons hmem)

theorem oldest_of_mem_evictTraceLoop {cap : ℕ} :
    ∀ (fuel : ℕ) {d : Lru κ α}, d.Tracks log →
      ∀ e ∈ evictTraceLoop evictable cap fuel d, e.Oldest evictable log := by
  intro fuel d h e he
  fun_induction evictTraceLoop with
  | case1 | case2 | case3 => cases he
  | case4 fuel d _ k hv ih =>
    rcases mem_cons.mp he with rfl | he
    · exact oldest_of_victim h hv
    · have hsub : (d.remove k).order.Sublist d.order := by
        rw [order_remove]
        exact filter_sublist
      exact ih (h.of_sublist hsub) he

/-- **Each eviction takes the row whose last use is the earliest among those that may
go.** -/
theorem oldest_of_mem_evictTrace {cap : ℕ}
    (h : d.Tracks log) : ∀ e ∈ d.evictTrace evictable cap, e.Oldest evictable log :=
  oldest_of_mem_evictTraceLoop _ h

theorem length_evictLoop (evictable : α → Bool) (cap : ℕ) (fuel : ℕ) (d : Lru κ α)
    (h : d.order.length - cap ≤ fuel) :
    (evictLoop evictable cap fuel d).order.length ≤ cap ∨
        ∀ r ∈ (evictLoop evictable cap fuel d).order, evictable r.2 = false := by
  induction fuel generalizing d with
  | zero => exact .inl (Nat.sub_eq_zero_iff_le.mp (Nat.le_zero.mp h))
  | succ fuel ih =>
    rw [evictLoop, length_map]
    by_cases hcap : d.order.length ≤ cap
    · rw [if_pos hcap]
      exact .inl hcap
    rw [if_neg hcap, victim_eq]
    cases hfind : d.order.find? fun r => evictable r.2 with
    | none => exact .inr fun r hr => by simpa using find?_eq_none.mp hfind r hr
    | some r =>
      have hmem := mem_of_find?_eq_some hfind
      have hlen : (d.remove r.1).order.length < d.order.length := by
        rw [order_remove]
        exact length_filter_lt_length_iff_exists.mpr ⟨r, hmem, by simp⟩
      exact ih (d.remove r.1) (by omega)

/-- An eviction ends at the capacity, or when no row is left that may go. -/
theorem length_evictTo (evictable : α → Bool) (cap : ℕ) (d : Lru κ α) :
    (d.evictTo evictable cap).order.length ≤ cap ∨
      ∀ r ∈ (d.evictTo evictable cap).order, evictable r.2 = false := by
  rw [evictTo, length_map]
  exact length_evictLoop evictable cap _ d (Nat.le_refl _)

end Lru

end Store
end TortaCore
