import TortaCore.Resolver.Snapshot
import Mathlib

/-!
# Recency across a restart

The documentation of `restore` says that entries are "inserted in snapshot order so the
LRU ordering is preserved (freshest stays MRU)".  The snapshot is written most recently
used first, and every insert makes its entry the most recently used, so what comes back
is the reverse order.
-/

namespace TortaCore
namespace Resolver

open Text Dns Store Wire List Cache

variable {hash : Key → ℕ}

/-! ### Reachable caches -/

/-- The caches that puts and gets lead to, at any clock and epoch. -/
inductive Reachable (hash : Key → ℕ) : Cache hash → Prop where
  | init (cap ttlFloor ttlCeiling negTtlCeiling serveStale : ℕ) :
      Reachable hash (.withPolicy hash cap ttlFloor ttlCeiling negTtlCeiling serveStale)
  | put {c} (cacheRr : Bool) (q : DnsQuestion) (response : Bytes) (now : ℤ) (epoch : ℕ) :
      Reachable hash c → q.qtype < 2 ^ 16 → q.qclass < 2 ^ 16 → epoch < 2 ^ 64 →
      Reachable hash (c.put cacheRr q response now epoch)
  | putNegative {c} (q : DnsQuestion) (response : Bytes) (secs : ℕ) (now : ℤ) (epoch : ℕ) :
      Reachable hash c → q.qtype < 2 ^ 16 → q.qclass < 2 ^ 16 → epoch < 2 ^ 64 →
      Reachable hash (c.putNegative q response secs now epoch)
  | getHit {c} (q : DnsQuestion) (now : ℤ) (liveEpoch : ℕ) :
      Reachable hash c → Reachable hash (c.getHitAt q now liveEpoch).2

/-- A slot as `put` makes it. -/
structure Slot.Plain (s : Slot) : Prop extends s.Typed where
  mortal : s.entry.immortal = false
  live : s.entry.staleDeadline = none

theorem plain_insert {c : Cache hash} (hc : ∀ s ∈ c.entries, s.Plain) {q : DnsQuestion}
    (htype : q.qtype < 2 ^ 16) (hclass : q.qclass < 2 ^ 16) {epoch : ℕ} (hepoch : epoch < 2 ^ 64)
    (response : Bytes) (ttl : ℕ) (kind : Kind) (now : ℤ) :
    ∀ s ∈ (c.insert q response ttl kind epoch now).entries, s.Plain := by
  intro s hs
  obtain hold | rfl := mem_entries_insertEntry hs
  · exact hc s hold
  · exact ⟨⟨htype, hclass, hepoch⟩, rfl, rfl⟩

theorem Reachable.plain {c : Cache hash} (h : Reachable hash c) : ∀ s ∈ c.entries, s.Plain := by
  induction h with
  | init => intro s hs; cases hs
  | put cacheRr q response now epoch _ htype hclass hepoch ih =>
    unfold Cache.put
    split
    · exact ih
    · split
      · exact ih
      · exact plain_insert ih htype hclass hepoch _ _ _ _
  | putNegative q response secs now epoch _ htype hclass hepoch ih =>
    exact plain_insert ih htype hclass hepoch _ _ _ _
  | getHit q now liveEpoch _ ih => exact fun s hs => ih s (Cache.mem_entries_getHitAt hs)

/-! ### What a restore leaves -/

/-- The frame comes back as an entry. -/
def survives (mode : StaleMode) (nowUnix : ℕ) (r : SnapRecord) : Bool :=
  nowUnix < r.expiryUnix || (mode ≠ .off && nowUnix < r.staleUntilUnix)

/-- A frame that lands leaves an entry exactly when it survives. -/
theorem rehydrated_of_lands {mode : StaleMode} {now : ℤ} {nowUnix : ℕ} {r : SnapRecord}
    (h : Cache.Lands mode now nowUnix r) :
    (survives mode nowUnix r = true ∧ ∃ e, rehydrated mode now nowUnix r = .ok (some e)) ∨
      (survives mode nowUnix r = false ∧ rehydrated mode now nowUnix r = .ok none) := by
  unfold rehydrated survives
  by_cases hfresh : nowUnix < r.expiryUnix
  · exact .inl ⟨by simp [hfresh], _, if_pos hfresh⟩
  rw [if_neg hfresh]
  by_cases hstale : mode ≠ .off ∧ nowUnix < r.staleUntilUnix
  · have hfits := h hstale.1 (by omega) hstale.2
    rw [if_pos hstale, if_neg (by omega)]
    exact .inl ⟨by simp [hstale], _, rfl⟩
  · rw [if_neg hstale]
    exact .inr ⟨by simpa [hfresh] using hstale, rfl⟩

/-- **Frames of different hashes that land are inserted one after the other**: below the
capacity the surviving keys stand behind what was there, in the order of the frames. -/
theorem foldlM_restoreRecord (now : ℤ) (nowUnix : ℕ) (rs : List SnapRecord) (d : Cache hash) (n : ℕ)
    (hlands : ∀ r ∈ rs, Cache.Lands d.staleMode now nowUnix r)
    (hnodup : (rs.map fun r => hash r.key).Nodup)
    (hnew : ∀ r ∈ rs, ∀ s ∈ d.entries, hash s.key ≠ hash r.key)
    (hcap : d.entries.length + rs.length ≤ d.cap) :
    ∃ d' n', rs.foldlM (Cache.restoreRecord now nowUnix fun _ => true) (d, n) = .ok (d', n') ∧
      d'.entries.map (·.key) =
        d.entries.map (·.key) ++ (rs.filter (survives d.staleMode nowUnix)).map (·.key) := by
  induction rs generalizing d n with
  | nil => exact ⟨d, n, rfl, by simp⟩
  | cons r rs ih =>
    obtain ⟨hr, hrs⟩ := forall_mem_cons.mp hlands
    obtain ⟨hnodupHere, hnodupLater⟩ := nodup_cons.mp hnodup
    obtain ⟨hnewHere, hnewLater⟩ := forall_mem_cons.mp hnew
    rw [length_cons] at hcap
    rw [foldlM_cons]
    obtain ⟨hsurvives, e, he⟩ | ⟨hdead, he⟩ := rehydrated_of_lands hr
    · -- a new hash below the capacity: nothing is replaced and nothing evicted
      have hstep : restoreRecord now nowUnix (fun _ => true) (d, n) r =
          .ok (d.insertEntry r.key e, n + 1) := by
        simp [restoreRecord, he]
      have hentries : (d.insertEntry r.key e).entries = d.entries ++ [⟨r.key, e⟩] :=
        entries_insertEntry_new hnewHere (by omega)
      obtain ⟨d', n', hfold, hkeys⟩ := ih (d.insertEntry r.key e) (n + 1) hrs hnodupLater (by
          intro r' hr' s hs
          rw [hentries] at hs
          obtain hs | hs := mem_append.mp hs
          · exact hnewLater r' hr' s hs
          obtain rfl := mem_singleton.mp hs
          intro heq
          apply hnodupHere
          show hash r.key ∈ _
          rw [show hash r.key = hash r'.key from heq]
          exact mem_map_of_mem (f := fun r : SnapRecord => hash r.key) hr')
        (by
          rw [hentries, length_append, length_singleton, cap_insertEntry]
          omega)
      refine ⟨d', n', by rw [hstep]; exact hfold, ?_⟩
      rw [hkeys, hentries, filter_cons_of_pos hsurvives]
      simp
    · have hstep : restoreRecord now nowUnix (fun _ => true) (d, n) r = .ok (d, n) := by
        simp [restoreRecord, he]
      obtain ⟨d', n', hfold, hkeys⟩ := ih d n hrs hnodupLater hnewLater (by omega)
      refine ⟨d', n', by rw [hstep]; exact hfold, ?_⟩
      rw [hkeys, filter_cons_of_neg (by simp [hdead])]

/-! ### The property -/

/-- The seconds of freshness an entry has left on the wall clock. -/
def freshLeft (e : Entry) (now : ℤ) (nowUnix : ℕ) : ℕ := min (e.ttl - e.age now) (u64Max - nowUnix)

/-- The seconds of stale service it has left. -/
def staleLeft (mode : StaleMode) (e : Entry) (now : ℤ) (nowUnix : ℕ) : ℕ :=
  match mode with
  | .off => 0
  | .unbounded => u64Max - nowUnix
  | .window w => min (satAdd e.ttl w - e.age now) (u64Max - nowUnix)

/-- The bytes an entry takes in a snapshot. -/
def frameSize (s : Slot) : ℕ := 35 + (utf8 s.key.qname).length + s.entry.wire.length

namespace Cache

/-- The fresh entries, least recently used first. -/
def freshSlots (c : Cache hash) (now : ℤ) : List Slot :=
  c.entries.filter fun s => s.entry.isFresh now

def freshKeys (c : Cache hash) (now : ℤ) : List Key := (c.freshSlots now).map (·.key)

end Cache

/-- A snapshot with room for the fresh entries, restored within the same second into an
empty cache of the same stale mode, gives the fresh entries in their order; a cache with
less room keeps the most recently used of them. -/
structure RoundTrips (c : Cache hash) (now now' : ℤ) (nowUnix : ℕ) : Prop where
  order : ∀ budget, 5 + ((c.freshSlots now).map frameSize).sum ≤ budget → ∀ dst : Cache hash,
    dst.entries = [] → dst.staleMode = c.staleMode → c.entries.length ≤ dst.cap →
    ∃ c' n, dst.restoreWith (c.snapshot now nowUnix budget) now' nowUnix (fun _ => true) =
        .ok (c', n) ∧
      ((c'.entries.map (·.key)).filter fun k => k ∈ c.freshKeys now) = c.freshKeys now
  mostRecent : ∀ budget, 5 + ((c.freshSlots now).map frameSize).sum ≤ budget →
    ∀ dst : Cache hash, dst.entries = [] → dst.staleMode = c.staleMode → 0 < dst.cap →
    dst.cap < (c.freshKeys now).length →
    ∃ c' n, dst.restoreWith (c.snapshot now nowUnix budget) now' nowUnix (fun _ => true) =
        .ok (c', n) ∧
      c'.entries.map (·.key) = (c.freshKeys now).drop ((c.freshKeys now).length - dst.cap)

/-- At most one entry is fresh; it is the most recently used of those written and has time
left; and no deadline leaves the range of `Instant`. -/
structure KeepsOrder (c : Cache hash) (now now' : ℤ) (nowUnix : ℕ) : Prop where
  lands : ∀ s ∈ (c.carriedSlots now).take (2 ^ 32 - 1), c.staleMode ≠ .off →
    freshLeft s.entry now nowUnix = 0 → 0 < staleLeft c.staleMode s.entry now nowUnix →
    now' + staleLeft c.staleMode s.entry now nowUnix ≤ instantMax
  single : c.freshSlots now = [] ∨ ∃ s rest, c.freshSlots now = [s] ∧
    c.carriedSlots now = s :: rest ∧
    (0 < freshLeft s.entry now nowUnix ∨ 0 < staleLeft c.staleMode s.entry now nowUnix)

/-! ### Frames and what is left -/

section Left

variable {mode : StaleMode} {now now' : ℤ} {nowUnix : ℕ}

theorem length_encodeRecord_toRecord (s : Slot) :
    (encodeRecord (toRecord mode now nowUnix s)).length = frameSize s := by
  simp only [encodeRecord, length_append, length_cons, length_beBytes, toRecord, frameSize]
  omega

variable (hunix : nowUnix ≤ u64Max)

include hunix

theorem satAdd_sub (x : ℕ) : satAdd nowUnix x - nowUnix = min x (u64Max - nowUnix) := by
  unfold satAdd
  omega

theorem expiryUnix_sub (e : Entry) :
    expiryUnix e now nowUnix - nowUnix = freshLeft e now nowUnix := satAdd_sub hunix _

theorem staleUntilUnix_sub (hmode : mode ≠ .off) (e : Entry) :
    staleUntilUnix mode e now nowUnix - nowUnix = staleLeft mode e now nowUnix := by
  cases mode with
  | off => exact absurd rfl hmode
  | unbounded => rfl
  | window w => exact satAdd_sub hunix _

theorem survives_toRecord_iff (s : Slot) :
    survives mode nowUnix (toRecord mode now nowUnix s) = true ↔
      0 < freshLeft s.entry now nowUnix ∨ 0 < staleLeft mode s.entry now nowUnix := by
  rw [← expiryUnix_sub hunix]
  simp only [survives, Bool.or_eq_true, Bool.and_eq_true, decide_eq_true_eq]
  apply or_congr
  · exact (Nat.sub_pos_iff_lt).symm
  · by_cases hmode : mode = .off
    · rw [hmode]
      simp [staleLeft]
    · rw [← staleUntilUnix_sub hunix hmode, Nat.sub_pos_iff_lt]
      exact and_iff_right hmode

theorem lands_toRecord_iff (s : Slot) :
    Cache.Lands mode now' nowUnix (toRecord mode now nowUnix s) ↔
      (mode ≠ .off → freshLeft s.entry now nowUnix = 0 → 0 < staleLeft mode s.entry now nowUnix →
        now' + staleLeft mode s.entry now nowUnix ≤ instantMax) := by
  apply forall_congr'
  intro hmode
  rw [← expiryUnix_sub hunix, ← staleUntilUnix_sub hunix hmode, Nat.sub_eq_zero_iff_le,
    Nat.sub_pos_iff_lt]
  exact Iff.rfl

end Left

theorem le_of_mem_withinBudget {budget : ℕ} {rs : List SnapRecord} {used : ℕ} {r : SnapRecord}
    (h : r ∈ withinBudget budget used rs) : used + (encodeRecord r).length ≤ budget := by
  induction rs generalizing used with
  | nil => cases h
  | cons r' rs ih =>
    rw [withinBudget] at h
    split at h
    · cases h
    next hfits =>
    obtain rfl | h := mem_cons.mp h
    · omega
    · have hle := ih h
      omega

/-- A list without repetitions that reads the same backwards is short. -/
theorem length_le_one_of_reverse_eq {α : Type*} {l : List α} (hnodup : l.Nodup)
    (h : l.reverse = l) : l.length ≤ 1 := by
  by_contra hlen
  have hpos : 0 < l.length := by omega
  have hget : l[0]? = l[l.length - 1 - 0]? := by
    have hrev := congrArg (·[0]?) h
    rwa [getElem?_reverse hpos, eq_comm] at hrev
  rw [getElem?_eq_getElem hpos, getElem?_eq_getElem (by omega)] at hget
  have hindex := (Nodup.getElem_inj_iff hnodup).mp (Option.some.inj hget)
  omega

/-! ### A restart -/

section Restart

variable {c : Cache hash} {now now' : ℤ} {nowUnix : ℕ}

theorem nodup_keys (c : Cache hash) : (c.entries.map (·.key)).Nodup := by
  have hnodup : ((c.entries.map (·.key)).map hash).Nodup := by
    rw [map_map]
    exact c.nodup_hash
  exact hnodup.of_map hash

theorem frames_hash (c : Cache hash) (now : ℤ) (nowUnix : ℕ) :
    ((c.frames now nowUnix).map fun r => hash r.key) =
      (c.carriedSlots now).map fun s => hash s.key := by
  rw [frames, map_map]
  rfl

theorem nodup_frames (c : Cache hash) (now : ℤ) (nowUnix : ℕ) :
    ((c.frames now nowUnix).map fun r => hash r.key).Nodup := by
  rw [frames_hash]
  have hrev : (c.entries.reverse.map fun s => hash s.key).Nodup := by
    rw [map_reverse]
    exact nodup_reverse.mpr c.nodup_hash
  exact hrev.sublist (filter_sublist.map _)

/-- What a snapshot of any budget leaves in an empty cache with room for it. -/
theorem restoreWith_snapshot (htyped : ∀ s ∈ c.entries, s.Typed) {budget : ℕ}
    (hlands : ∀ r ∈ (withinBudget budget 5 (c.frames now nowUnix)).take (2 ^ 32 - 1),
      Cache.Lands c.staleMode now' nowUnix r)
    {dst : Cache hash} (hempty : dst.entries = []) (hmode : dst.staleMode = c.staleMode)
    (hcap : c.entries.length ≤ dst.cap) :
    ∃ c' n, dst.restoreWith (c.snapshot now nowUnix budget) now' nowUnix (fun _ => true) =
        .ok (c', n) ∧
      c'.entries.map (·.key) =
        (((withinBudget budget 5 (c.frames now nowUnix)).take (2 ^ 32 - 1)).filter
          (survives c.staleMode nowUnix)).map (·.key) := by
  have hsub : ((withinBudget budget 5 (c.frames now nowUnix)).take (2 ^ 32 - 1)).Sublist
      (c.frames now nowUnix) :=
    (take_sublist _ _).trans (prefix_withinBudget budget _ 5).sublist
  have hlen : (c.frames now nowUnix).length ≤ c.entries.length := by
    rw [frames, length_map, carriedSlots]
    exact (length_filter_le _ _).trans (by rw [length_reverse])
  have hle := hsub.length_le
  obtain ⟨c', n, hfold, hkeys⟩ := foldlM_restoreRecord now' nowUnix
    ((withinBudget budget 5 (c.frames now nowUnix)).take (2 ^ 32 - 1)) dst 0
    (by rw [hmode]; exact hlands) ((nodup_frames c now nowUnix).sublist (hsub.map _))
    (by rw [hempty]; intro r _ s hs; cases hs)
    (by rw [hempty, length_nil, Nat.zero_add]; omega)
  rw [hempty, hmode, map_nil, nil_append] at hkeys
  refine ⟨c', n, ?_, hkeys⟩
  rw [restoreWith_eq, records_snapshot htyped]
  exact hfold

/-- The fresh keys read backwards, among all keys. -/
theorem filter_freshKeys (c : Cache hash) (now : ℤ) :
    ((c.entries.reverse.map (·.key)).filter fun k => k ∈ c.freshKeys now) =
      (c.freshKeys now).reverse := by
  have hfilter : (c.entries.filter fun s => s.key ∈ c.freshKeys now) = c.freshSlots now := by
    apply filter_congr
    intro s hs
    rw [Bool.eq_iff_iff, decide_eq_true_eq]
    constructor
    · intro hmem
      obtain ⟨s', hs', hkey⟩ := mem_map.mp hmem
      obtain ⟨hs', hfresh⟩ := mem_filter.mp hs'
      rwa [← inj_on_of_nodup_map (nodup_keys c) hs' hs hkey]
    · intro hfresh
      exact mem_map_of_mem (f := fun s : Slot => s.key) (mem_filter.mpr ⟨hs, hfresh⟩)
  rw [filter_map]
  show (c.entries.reverse.filter fun s => s.key ∈ c.freshKeys now).map (·.key) = _
  rw [filter_reverse, hfilter, map_reverse, freshKeys]

/-- The keys of a part of the frames, in the order of the frames. -/
theorem keys_sublist {rs : List SnapRecord} (h : rs.Sublist (c.frames now nowUnix)) :
    (rs.map (·.key)).Sublist (c.entries.reverse.map (·.key)) := by
  have hkeys : (c.frames now nowUnix).map (·.key) = (c.carriedSlots now).map (·.key) := by
    rw [frames, map_map]
    rfl
  refine (h.map _).trans ?_
  rw [hkeys]
  exact filter_sublist.map _

theorem nodup_keys_of_sublist {rs : List SnapRecord} (h : rs.Sublist (c.frames now nowUnix)) :
    (rs.map (·.key)).Nodup := by
  refine Nodup.sublist (keys_sublist h) ?_
  rw [map_reverse]
  exact nodup_reverse.mpr (nodup_keys c)

/-- The parts of the frames that go out land when those of the slots do. -/
theorem lands_of_keepsOrder (hunix : nowUnix ≤ u64Max)
    (h : ∀ s ∈ (c.carriedSlots now).take (2 ^ 32 - 1), c.staleMode ≠ .off →
      freshLeft s.entry now nowUnix = 0 → 0 < staleLeft c.staleMode s.entry now nowUnix →
      now' + staleLeft c.staleMode s.entry now nowUnix ≤ instantMax) (budget : ℕ) :
    ∀ r ∈ (withinBudget budget 5 (c.frames now nowUnix)).take (2 ^ 32 - 1),
      Cache.Lands c.staleMode now' nowUnix r := by
  intro r hr
  have hmem : r ∈ (c.frames now nowUnix).take (2 ^ 32 - 1) := by
    obtain ⟨t, ht⟩ := prefix_withinBudget budget (c.frames now nowUnix) 5
    rw [← ht, take_append]
    exact mem_append_left _ hr
  rw [frames, ← map_take] at hmem
  obtain ⟨s, hs, rfl⟩ := mem_map.mp hmem
  exact (lands_toRecord_iff hunix s).mpr (h s hs)

end Restart

section Iff

variable {c : Cache hash} {now now' : ℤ} {nowUnix : ℕ}

theorem withinBudget_ample (c : Cache hash) (now : ℤ) (nowUnix extra : ℕ) :
    withinBudget (5 + ((c.frames now nowUnix).flatMap encodeRecord).length + extra) 5
      (c.frames now nowUnix) = c.frames now nowUnix := withinBudget_eq_self (by omega)

/-- An empty cache of a given stale mode and capacity. -/
def emptyLike (c : Cache hash) : Cache hash :=
  { Cache.withPolicy hash c.entries.length 0 0 0 0 with staleMode := c.staleMode }

/-- Whatever comes back, it comes back in the order of the frames. -/
theorem freshKeys_of_restored {rs : List SnapRecord} (hrs : rs.Sublist (c.frames now nowUnix))
    (h : ((rs.map (·.key)).filter fun k => k ∈ c.freshKeys now) = c.freshKeys now) :
    (c.freshKeys now).length ≤ 1 := by
  have hsub : (c.freshKeys now).Sublist (c.freshKeys now).reverse := by
    have hfiltered := (keys_sublist hrs).filter fun k => decide (k ∈ c.freshKeys now)
    rwa [h, filter_freshKeys] at hfiltered
  have hrev := hsub.eq_of_length (length_reverse).symm
  exact length_le_one_of_reverse_eq ((nodup_keys c).sublist (filter_sublist.map _)) hrev.symm

/-- The frame of a slot is determined by its key. -/
theorem eq_toRecord_of_key {r : SnapRecord} (hr : r ∈ c.frames now nowUnix) {s : Slot}
    (hs : s ∈ c.entries) (hkey : r.key = s.key) :
    r = toRecord c.staleMode now nowUnix s ∧ s ∈ c.carriedSlots now := by
  obtain ⟨s', hs', rfl⟩ := mem_map.mp hr
  have hmem := mem_reverse.mp (mem_filter.mp hs').1
  obtain rfl := inj_on_of_nodup_map (nodup_keys c) hmem hs hkey
  exact ⟨rfl, hs'⟩

/-- With an ample budget every frame has to land. -/
theorem lands_of_roundTrips (htyped : ∀ s ∈ c.entries, s.Typed) (hunix : nowUnix ≤ u64Max)
    (h : RoundTrips c now now' nowUnix) :
    ∀ s ∈ (c.carriedSlots now).take (2 ^ 32 - 1), c.staleMode ≠ .off →
      freshLeft s.entry now nowUnix = 0 → 0 < staleLeft c.staleMode s.entry now nowUnix →
      now' + staleLeft c.staleMode s.entry now nowUnix ≤ instantMax := by
  intro s hs
  obtain ⟨c₁, n₁, hok, -⟩ := h.order (5 + ((c.frames now nowUnix).flatMap encodeRecord).length +
    (5 + ((c.freshSlots now).map frameSize).sum)) (by omega) (emptyLike c) rfl rfl
    (Nat.le_max_left _ _)
  have hall := (restoreWith_ok_iff _ _ _ _ _).mp ⟨_, hok⟩
  rw [records_snapshot htyped, withinBudget_ample] at hall
  apply (lands_toRecord_iff hunix s).mp
  apply hall
  rw [frames, ← map_take]
  exact mem_map_of_mem hs

/-- What a snapshot of any sufficient budget gives back are the fresh keys in their order. -/
theorem restored_of_roundTrips (htyped : ∀ s ∈ c.entries, s.Typed) (hunix : nowUnix ≤ u64Max)
    (h : RoundTrips c now now' nowUnix) {budget : ℕ}
    (hbudget : 5 + ((c.freshSlots now).map frameSize).sum ≤ budget) :
    (((((withinBudget budget 5 (c.frames now nowUnix)).take (2 ^ 32 - 1)).filter
      (survives c.staleMode nowUnix)).map (·.key)).filter fun k => k ∈ c.freshKeys now) =
        c.freshKeys now := by
  have hcap : c.entries.length ≤ (emptyLike c).cap := Nat.le_max_left _ _
  obtain ⟨c₁, n₁, hok, hkeys⟩ := h.order budget hbudget (emptyLike c) rfl rfl hcap
  obtain ⟨c₂, n₂, hok', hkeys'⟩ := restoreWith_snapshot htyped
    (lands_of_keepsOrder hunix (lands_of_roundTrips htyped hunix h) budget)
    (show (emptyLike c).entries = [] from rfl) rfl hcap
  cases hok.symm.trans hok'
  rwa [hkeys'] at hkeys

/-- With room for one frame alone, that frame is written only if it is the first. -/
theorem head_of_written {s g : Slot} {rest : List Slot} (hs : s ∈ c.entries)
    (hslots : c.carriedSlots now = g :: rest)
    (h : toRecord c.staleMode now nowUnix s ∈
      withinBudget (5 + frameSize s) 5 (c.frames now nowUnix)) : g = s := by
  have hg : g ∈ c.carriedSlots now := hslots ▸ mem_cons_self ..
  have hgmem : g ∈ c.entries := mem_reverse.mp (mem_filter.mp hg).1
  rw [frames, hslots, map_cons, withinBudget] at h
  split at h
  · cases h
  rcases mem_cons.mp h with heq | hlater
  · exact inj_on_of_nodup_map (nodup_keys c) hgmem hs (congrArg SnapRecord.key heq).symm
  · -- behind the first frame there is no room left for this one
    have hle := le_of_mem_withinBudget hlater
    rw [length_encodeRecord_toRecord, length_encodeRecord_toRecord, frameSize] at hle
    omega

theorem keepsOrder_of_roundTrips (hc : Reachable hash c) (hunix : nowUnix ≤ u64Max)
    (h : RoundTrips c now now' nowUnix) : KeepsOrder c now now' nowUnix := by
  have htyped : ∀ s ∈ c.entries, s.Typed := fun s hs => (hc.plain s hs).toTyped
  have hpart : ∀ budget, (((withinBudget budget 5 (c.frames now nowUnix)).take (2 ^ 32 - 1)).filter
      (survives c.staleMode nowUnix)).Sublist (c.frames now nowUnix) := fun budget =>
    filter_sublist.trans ((take_sublist _ _).trans
      (prefix_withinBudget budget _ 5).sublist)
  refine ⟨lands_of_roundTrips htyped hunix h, ?_⟩
  have hlen := freshKeys_of_restored (hpart _)
    (restored_of_roundTrips htyped hunix h (Nat.le_refl _))
  rw [freshKeys, length_map] at hlen
  match hfresh : c.freshSlots now, hlen with
  | [], _ => exact .inl rfl
  | [s], _ =>
    right
    have hs : s ∈ c.entries := (mem_filter.mp (hfresh ▸ mem_singleton.mpr rfl)).1
    have hkeys : c.freshKeys now = [s.key] := by rw [freshKeys, hfresh, map_singleton]
    -- with room for the fresh entry alone, its frame is read back
    have htight := restored_of_roundTrips htyped hunix h
      (show _ ≤ 5 + frameSize s by rw [hfresh]; simp)
    rw [hkeys] at htight
    have hmem : s.key ∈ (((withinBudget (5 + frameSize s) 5 (c.frames now nowUnix)).take
        (2 ^ 32 - 1)).filter (survives c.staleMode nowUnix)).map (·.key) :=
      (mem_filter.mp (htight ▸ mem_singleton.mpr rfl)).1
    obtain ⟨r, hr, hkey⟩ := mem_map.mp hmem
    obtain ⟨hrframe, hcarried⟩ := eq_toRecord_of_key ((hpart _).subset hr) hs hkey
    obtain ⟨hwritten, hsurvives⟩ := mem_filter.mp hr
    rw [hrframe] at hsurvives hwritten
    -- so no other frame goes out before it
    cases hslots : c.carriedSlots now with
    | nil => rw [hslots] at hcarried; cases hcarried
    | cons g rest =>
      obtain rfl := head_of_written hs hslots (mem_of_mem_take hwritten)
      exact ⟨g, rest, rfl, rfl, (survives_toRecord_iff hunix g).mp hsurvives⟩

theorem roundTrips_of_keepsOrder (hc : Reachable hash c) (hunix : nowUnix ≤ u64Max)
    (h : KeepsOrder c now now' nowUnix) : RoundTrips c now now' nowUnix := by
  have htyped : ∀ s ∈ c.entries, s.Typed := fun s hs => (hc.plain s hs).toTyped
  have hshort : (c.freshKeys now).length ≤ 1 := by
    rw [freshKeys, length_map]
    obtain hnone | ⟨s, rest, hone, -, -⟩ := h.single
    · rw [hnone]; simp
    · rw [hone]; simp
  refine ⟨?_, fun budget _ dst _ _ hpos hcap => by omega⟩
  intro budget hbudget dst hempty hmode hcap
  obtain ⟨c', n, hok, hkeys⟩ := restoreWith_snapshot htyped
    (lands_of_keepsOrder hunix h.lands budget) hempty hmode hcap
  refine ⟨c', n, hok, ?_⟩
  rw [hkeys]
  obtain hnone | ⟨s, rest, hone, hslots, hleft⟩ := h.single
  · simp [freshKeys, hnone]
  -- the one fresh entry is written first and survives; no other key is fresh
  have hfk : c.freshKeys now = [s.key] := by rw [freshKeys, hone, map_singleton]
  rw [hone, map_singleton, sum_singleton] at hbudget
  have hframes : c.frames now nowUnix = toRecord c.staleMode now nowUnix s ::
      rest.map (toRecord c.staleMode now nowUnix) := by
    rw [frames, hslots, map_cons]
  have hsub : (((withinBudget budget 5 (c.frames now nowUnix)).take (2 ^ 32 - 1)).filter
      (survives c.staleMode nowUnix)).Sublist (c.frames now nowUnix) :=
    filter_sublist.trans ((take_sublist _ _).trans
      (prefix_withinBudget budget _ 5).sublist)
  have hnodup := nodup_keys_of_sublist hsub
  rw [hframes, withinBudget, length_encodeRecord_toRecord, if_neg (by omega),
    show 2 ^ 32 - 1 = (2 ^ 32 - 2) + 1 by omega, take_succ_cons,
    filter_cons_of_pos ((survives_toRecord_iff hunix s).mpr hleft), map_cons]
    at hnodup ⊢
  obtain ⟨hhead, -⟩ := nodup_cons.mp hnodup
  have hkey : (toRecord c.staleMode now nowUnix s).key = s.key := rfl
  rw [hkey] at hhead ⊢
  rw [hfk, filter_cons_of_pos (by simp)]
  congr 1
  apply filter_eq_nil_iff.mpr
  intro k hk hkmem
  rw [decide_eq_true_eq, mem_singleton] at hkmem
  exact hhead (hkmem ▸ hk)

/-- **A restart keeps the order exactly when there is nothing to reverse**: at most one
entry is fresh, it is the most recently used of those written and has time left, and no
deadline leaves the range of `Instant`. -/
theorem roundTrips_iff (c : Cache hash) (hc : Reachable hash c) (now now' : ℤ) (nowUnix : ℕ)
    (hunix : nowUnix ≤ u64Max) :
    RoundTrips c now now' nowUnix ↔ KeepsOrder c now now' nowUnix :=
  ⟨keepsOrder_of_roundTrips hc hunix, roundTrips_of_keepsOrder hc hunix⟩

theorem roundTrips_single :
    RoundTrips ((Cache.withPolicy (fun k => k.qname.length) 16 0 0 0 0).put true ⟨7, ['a'], 1, 1⟩
      [0, 7, 129, 128, 0, 1, 0, 1, 0, 0, 0, 0, 1, 97, 0, 0, 1, 0, 1,
        192, 12, 0, 1, 0, 1, 0, 0, 0, 30, 0, 4, 1, 2, 3, 4] 100 0) 110 5 1700000000 := by
  apply (roundTrips_iff _ (.put _ _ _ _ _ (.init _ _ _ _ _) (by decide) (by decide) (by decide))
    110 5 1700000000 (by decide)).mpr
  refine ⟨fun s _ hmode => absurd rfl hmode, .inr ⟨⟨⟨['a'], 1, 1⟩,
    ⟨[0, 7, 129, 128, 0, 1, 0, 1, 0, 0, 0, 0, 1, 97, 0, 0, 1, 0, 1,
      192, 12, 0, 1, 0, 1, 0, 0, 0, 30, 0, 4, 1, 2, 3, 4], 100, 30, .positive, 0, false, none⟩⟩,
    [], ?_⟩⟩
  decide +kernel

/-- `bb` was used last; after the restart it is the first to go. -/
theorem restart_reverses_order :
    Except.map (fun st => st.1.entries.map (·.key.qname))
      ((Cache.withPolicy (fun k => k.qname.length) 16 0 0 0 0).restoreWith
        ((((Cache.withPolicy (fun k => k.qname.length) 16 0 0 0 0).put true ⟨7, ['a'], 1, 1⟩
          [0, 7, 129, 128, 0, 1, 0, 1, 0, 0, 0, 0, 1, 97, 0, 0, 1, 0, 1,
            192, 12, 0, 1, 0, 1, 0, 0, 0, 30, 0, 4, 1, 2, 3, 4] 100 0).put true
          ⟨8, ['b', 'b'], 1, 1⟩
          [0, 8, 129, 128, 0, 1, 0, 1, 0, 0, 0, 0, 2, 98, 98, 0, 0, 1, 0, 1,
            192, 12, 0, 1, 0, 1, 0, 0, 0, 30, 0, 4, 1, 2, 3, 4] 101 0).snapshot 110 1700000000 4096)
        110 1700000000 fun _ => true) = .ok [['b', 'b'], ['a']] ∧
    ¬ RoundTrips (((Cache.withPolicy (fun k => k.qname.length) 16 0 0 0 0).put true
        ⟨7, ['a'], 1, 1⟩
        [0, 7, 129, 128, 0, 1, 0, 1, 0, 0, 0, 0, 1, 97, 0, 0, 1, 0, 1,
          192, 12, 0, 1, 0, 1, 0, 0, 0, 30, 0, 4, 1, 2, 3, 4] 100 0).put true
        ⟨8, ['b', 'b'], 1, 1⟩
        [0, 8, 129, 128, 0, 1, 0, 1, 0, 0, 0, 0, 2, 98, 98, 0, 0, 1, 0, 1,
          192, 12, 0, 1, 0, 1, 0, 0, 0, 30, 0, 4, 1, 2, 3, 4] 101 0) 110 110 1700000000 := by
  refine ⟨by decide +kernel, fun h => ?_⟩
  have hsingle := (keepsOrder_of_roundTrips (.put _ _ _ _ _ (.put _ _ _ _ _ (.init _ _ _ _ _)
    (by decide) (by decide) (by decide)) (by decide) (by decide) (by decide)) (by decide) h).single
  -- there are two fresh entries
  obtain hnone | ⟨s, rest, hone, -, -⟩ := hsingle
  · exact absurd (congrArg length hnone) (by decide +kernel)
  · have hlen := congrArg length hone
    rw [length_singleton] at hlen
    exact absurd hlen (by decide +kernel)

end Iff

end Resolver
end TortaCore
