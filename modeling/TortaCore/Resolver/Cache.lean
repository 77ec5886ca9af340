import TortaCore.Dns.Message
import TortaCore.Store.Lru
import Mathlib.Algebra.Group.Int.Defs

/-!
# The answer cache

A bounded cache of validated answers: entries age by a monotonic clock, carry the
blocklist epoch they were stored under, and may be served past their time to live under
the stale mode.  The source keeps a map from question hashes to slots and a recency
index; both are the library's `Lru`, keyed by the hash.

The clock counts whole seconds.  `DefaultHasher` is an arbitrary function `hash` of the
question; no result depends on which.

## Main definitions

* `Entry`, `Entry.isFresh`, `Entry.isUsableStale`: an answer and how long it serves.
* `Cache`: slots, capacity and policy; every slot stands under the hash of its key.
* `Cache.getHitAt`, `Cache.put`, `Cache.putNegative`, `Cache.insertEntry`.
-/

namespace TortaCore
namespace Resolver

open Text Dns Store List

/-- `u64::MAX`. -/
def u64Max : ℕ := 2 ^ 64 - 1

/-- `u64::saturating_add`. -/
def satAdd (a b : ℕ) : ℕ := min (a + b) u64Max

/-- The last second an `Instant` can hold. -/
def instantMax : ℤ := 2 ^ 63 - 1

/-! ### Entries -/

structure Key where
  qname : Str
  qtype : ℕ
  qclass : ℕ
  deriving DecidableEq

def Key.fromQuestion (q : DnsQuestion) : Key := ⟨q.qname, q.qtype, q.qclass⟩

/-- The identity check behind the hash. -/
def Key.Matches (k : Key) (q : DnsQuestion) : Prop :=
  k.qtype = q.qtype ∧ k.qclass = q.qclass ∧ k.qname = q.qname

instance (k : Key) (q : DnsQuestion) : Decidable (k.Matches q) :=
  inferInstanceAs (Decidable (_ ∧ _))

inductive Kind where
  | positive
  | negative
  deriving DecidableEq

inductive Freshness where
  | fresh
  | stale
  deriving DecidableEq

structure CacheHit where
  wire : Bytes
  freshness : Freshness
  deriving DecidableEq

inductive StaleMode where
  | off
  | window (secs : ℕ)
  | unbounded
  deriving DecidableEq

def StaleMode.fromSecs (serveStaleSecs : ℕ) : StaleMode :=
  if serveStaleSecs = 0 then .off
  else if serveStaleSecs = u64Max then .unbounded
  else .window serveStaleSecs

structure Entry where
  wire : Bytes
  stored : ℤ
  ttl : ℕ
  kind : Kind
  epoch : ℕ
  immortal : Bool
  /-- The end of service of an entry restored past its time to live. -/
  staleDeadline : Option ℤ
  deriving DecidableEq

/-- `now.saturating_duration_since(stored)`. -/
def Entry.age (e : Entry) (now : ℤ) : ℕ := (now - e.stored).toNat

def Entry.isFresh (e : Entry) (now : ℤ) : Bool :=
  if e.immortal then true
  else if e.staleDeadline.isSome then false
  else e.age now ≤ e.ttl

def Entry.isUsableStale (e : Entry) (now : ℤ) (mode : StaleMode) : Bool :=
  if e.immortal then false
  else
    match e.staleDeadline with
    | some deadline => now < deadline
    | none =>
      if e.age now ≤ e.ttl then false
      else
        match mode with
        | .off => false
        | .unbounded => true
        | .window w => e.age now ≤ satAdd e.ttl w

/-- What the slot of a hash holds; its recency number is kept by the store. -/
structure Slot where
  key : Key
  entry : Entry
  deriving DecidableEq

/-! ### The cache -/

/-- Which answers the positive cache stores, by the type of their first record. -/
inductive CacheableTypes where
  | all
  | only (types : List ℕ)
  deriving DecidableEq

def CacheableTypes.admits : CacheableTypes → ℕ → Bool
  | .all, _ => true
  | .only types, rtype => types.contains rtype

structure Cache (hash : Key → ℕ) where
  slots : Lru ℕ Slot
  cap : ℕ
  ttlFloor : ℕ
  ttlCeiling : ℕ
  negTtlCeiling : ℕ
  staleMode : StaleMode
  cacheableTypes : CacheableTypes
  honorZeroTtl : Bool
  /-- Every slot stands under the hash of its key. -/
  keyed : ∀ r ∈ slots.order, hash r.2.key = r.1

def defaultTtlCeilingSecs : ℕ := 86400

def defaultNegTtlCeilingSecs : ℕ := 300

def defaultFallbackTtlSecs : ℕ := 30

def adBitMask : UInt8 := 0x20

def rtypeSvcb : ℕ := 64

def rtypeHttps : ℕ := 65

def defaultCacheableTypes : List ℕ := [1, 28, 33, 12]

namespace Cache

variable {hash : Key → ℕ}

def withPolicy (hash : Key → ℕ) (cap ttlFloorSecs ttlCeilingSecs negTtlCeilingSecs
    serveStaleSecs : ℕ) : Cache hash where
  slots := .empty
  cap := max cap 1
  ttlFloor := ttlFloorSecs
  ttlCeiling := if ttlCeilingSecs = 0 then defaultTtlCeilingSecs else ttlCeilingSecs
  negTtlCeiling := if negTtlCeilingSecs = 0 then defaultNegTtlCeilingSecs else negTtlCeilingSecs
  staleMode := .fromSecs serveStaleSecs
  cacheableTypes := .all
  honorZeroTtl := false
  keyed := fun _ h => nomatch h

/-- The slots from the least to the most recently used. -/
def entries (c : Cache hash) : List Slot := c.slots.order.map Prod.snd

/-- Immortal entries bypass the capacity. -/
def evictable (s : Slot) : Bool := !s.entry.immortal

def evictToCap (c : Cache hash) : Cache hash where
  __ := c
  slots := c.slots.evictTo evictable c.cap
  keyed := fun r h => c.keyed r ((Lru.sublist_order_evictTo _ _ _).subset h)

/-- The rows after a row was written under the hash of its key. -/
theorem keyed_put (c : Cache hash) (s : Slot) :
    ∀ r ∈ (c.slots.put (hash s.key) s).order, hash r.2.key = r.1 := by
  intro r hr
  rw [Lru.order_put] at hr
  obtain hr | hr := mem_append.mp hr
  · exact c.keyed r (mem_filter.mp hr).1
  · obtain rfl := mem_singleton.mp hr
    rfl

/-- Store an entry as the most recently used, then evict down to the capacity. -/
def insertEntry (c : Cache hash) (key : Key) (entry : Entry) : Cache hash :=
  evictToCap { c with
    slots := c.slots.put (hash key) ⟨key, entry⟩
    keyed := c.keyed_put ⟨key, entry⟩ }

def removeHash (c : Cache hash) (h : ℕ) : Cache hash where
  __ := c
  slots := c.slots.remove h
  keyed := by
    intro r hr
    rw [Lru.order_remove] at hr
    exact c.keyed r (List.mem_filter.mp hr).1

/-- Make the slot of a hash the most recently used, if there is one. -/
def touch (c : Cache hash) (h : ℕ) : Cache hash where
  __ := c
  slots := c.slots.bump h
  keyed := by
    intro r hr
    cases hget : c.slots.get? h with
    | none =>
      rw [Lru.bump, hget] at hr
      exact c.keyed r hr
    | some s =>
      have hmem := Lru.get?_eq_some_iff.mp hget
      rw [Lru.order_bump hmem] at hr
      obtain hr | hr := List.mem_append.mp hr
      · exact c.keyed r (List.mem_filter.mp hr).1
      · obtain rfl := List.mem_singleton.mp hr
        exact c.keyed _ hmem

def clear (c : Cache hash) : Cache hash where
  __ := c
  slots := c.slots.clear
  keyed := fun _ h => nomatch h

def setCap (c : Cache hash) (cap : ℕ) : Cache hash := evictToCap { c with cap := max cap 1 }

def setTtlFloor (c : Cache hash) (secs : ℕ) : Cache hash := { c with ttlFloor := secs }

def setTtlCeiling (c : Cache hash) (secs : ℕ) : Cache hash :=
  { c with ttlCeiling := if secs = 0 then defaultTtlCeilingSecs else secs }

def setStaleModeSecs (c : Cache hash) (secs : ℕ) : Cache hash :=
  { c with staleMode := .fromSecs secs }

/-- The types a positive answer may have: the default set for an empty list, every type
when `ANY` is named. -/
def setCacheableTypes (c : Cache hash) (types : List ℕ) : Cache hash :=
  if types.isEmpty then { c with cacheableTypes := .only defaultCacheableTypes }
  else if types.contains 255 then { c with cacheableTypes := .all }
  else { c with cacheableTypes := .only types }

def setCacheableAll (c : Cache hash) : Cache hash := { c with cacheableTypes := .all }

def setHonorZeroTtl (c : Cache hash) (on : Bool) : Cache hash := { c with honorZeroTtl := on }

/-- `get_hit_at`: the answer, if one may be served, and the cache after the lookup. -/
def getHitAt (c : Cache hash) (q : DnsQuestion) (now : ℤ) (liveEpoch : ℕ) :
    Option CacheHit × Cache hash :=
  let h := hash (.fromQuestion q)
  match c.slots.get? h with
  | none => (none, c)
  | some slot =>
    -- a hash collision with another question is a miss and leaves the resident alone
    if ¬ slot.key.Matches q then (none, c)
    else if slot.entry.epoch ≠ liveEpoch then (none, c.removeHash h)
    else if slot.entry.isFresh now then (some ⟨slot.entry.wire, .fresh⟩, c.touch h)
    else if slot.entry.isUsableStale now c.staleMode then
      (some ⟨slot.entry.wire, .stale⟩, c.touch h)
    else (none, c.removeHash h)

/-! ### Storing answers -/

/-- `strip_ad_bit`. -/
def stripAdBit (wire : Bytes) : Bytes :=
  if wire.length > 3 then wire.modify 3 (· &&& ~~~adBitMask) else wire

/-- The smallest time to live of the Answer section. -/
def minAnswerTtl (response : Bytes) : Option ℕ :=
  (answerRecords response).bind fun recs => (recs.map (·.ttl)).min?

def isExplicitZeroTtl (response : Bytes) : Bool := minAnswerTtl response == some 0

def clampPositive (c : Cache hash) (ttl : ℕ) : ℕ := min (max ttl c.ttlFloor) c.ttlCeiling

def positiveTtl (c : Cache hash) (response : Bytes) : ℕ :=
  c.clampPositive (((minAnswerTtl response).filter (0 < ·)).getD defaultFallbackTtlSecs)

def negativeTtl (c : Cache hash) (negTtlSecs : ℕ) : ℕ := max (min negTtlSecs c.negTtlCeiling) 1

/-- `is_type_cacheable`, with the toggle `CACHE_RR_ENABLED`. -/
def isTypeCacheable (c : Cache hash) (cacheRrEnabled : Bool) (response : Bytes) : Bool :=
  let first := (answerRecords response).bind List.head?
  if !cacheRrEnabled && first.any (fun r => r.rtype == rtypeSvcb || r.rtype == rtypeHttps) then
    false
  else
    match c.cacheableTypes with
    | .all => true
    | .only _ => first.all fun r => c.cacheableTypes.admits r.rtype

def insert (c : Cache hash) (q : DnsQuestion) (response : Bytes) (ttl : ℕ) (kind : Kind)
    (epoch : ℕ) (now : ℤ) : Cache hash :=
  c.insertEntry (.fromQuestion q) ⟨stripAdBit response, now, ttl, kind, epoch, false, none⟩

/-- `put`, at the clock and under the blocklist epoch of the call. -/
def put (c : Cache hash) (cacheRrEnabled : Bool) (q : DnsQuestion) (response : Bytes) (now : ℤ)
    (epoch : ℕ) : Cache hash :=
  if !c.isTypeCacheable cacheRrEnabled response then c
  else if c.honorZeroTtl && c.staleMode == .off && isExplicitZeroTtl response then c
  else c.insert q response (c.positiveTtl response) .positive epoch now

def putNegative (c : Cache hash) (q : DnsQuestion) (response : Bytes) (negTtlSecs : ℕ) (now : ℤ)
    (epoch : ℕ) : Cache hash :=
  c.insert q response (c.negativeTtl negTtlSecs) .negative epoch now

def putNegativeFromResponse (c : Cache hash) (q : DnsQuestion) (response : Bytes)
    (defaultNegTtlSecs : ℕ) (now : ℤ) (epoch : ℕ) : Cache hash :=
  c.putNegative q response ((negativeTtlFromSoa response).getD defaultNegTtlSecs) now epoch

def putImmortal (c : Cache hash) (q : DnsQuestion) (response : Bytes) (now : ℤ) (epoch : ℕ) :
    Cache hash :=
  c.insertEntry (.fromQuestion q) ⟨stripAdBit response, now, 0, .positive, epoch, true, none⟩

/-! ### What the operations do to the entries -/

theorem nodup_hash (c : Cache hash) : (c.entries.map fun s => hash s.key).Nodup := by
  have hnodup := c.slots.nodup_order
  have hhash : c.slots.order.map Prod.fst = c.entries.map fun s => hash s.key := by
    rw [entries, map_map]
    exact map_congr_left fun r hr => (c.keyed r hr).symm
  rwa [hhash] at hnodup

variable {c : Cache hash} {entry : Entry} {s : Slot} {liveEpoch : ℕ} {q : DnsQuestion}

/-- After an insert a slot is the new one, or an old one of another hash. -/
theorem mem_entries_insertEntry_cases {key : Key} (h : s ∈ (c.insertEntry key entry).entries) :
    (s ∈ c.entries ∧ hash s.key ≠ hash key) ∨ s = ⟨key, entry⟩ := by
  obtain ⟨r, hr, rfl⟩ := mem_map.mp h
  have hput := (Lru.sublist_order_evictTo evictable c.cap _).subset hr
  rw [Lru.order_put] at hput
  obtain hold | hnew := mem_append.mp hput
  · obtain ⟨hmem, hne⟩ := mem_filter.mp hold
    rw [← c.keyed r hmem] at hne
    exact .inl ⟨mem_map_of_mem (f := Prod.snd) hmem, by simpa using hne⟩
  · obtain rfl := mem_singleton.mp hnew
    exact .inr rfl

theorem mem_entries_insertEntry {key : Key}
    (h : s ∈ (c.insertEntry key entry).entries) : s ∈ c.entries ∨ s = ⟨key, entry⟩ :=
  (mem_entries_insertEntry_cases h).imp_left And.left

theorem mem_entries_removeHash {h : ℕ} (hs : s ∈ (c.removeHash h).entries) : s ∈ c.entries := by
  obtain ⟨r, hr, rfl⟩ := mem_map.mp hs
  have hmem : r ∈ (c.slots.remove h).order := hr
  rw [Lru.order_remove] at hmem
  exact mem_map_of_mem (f := Prod.snd) (mem_filter.mp hmem).1

theorem mem_entries_touch {h : ℕ} (hs : s ∈ (c.touch h).entries) : s ∈ c.entries := by
  obtain ⟨r, hr, rfl⟩ := mem_map.mp hs
  have hmem : r ∈ (c.slots.bump h).order := hr
  cases hget : c.slots.get? h with
  | none =>
    rw [Lru.bump, hget] at hmem
    exact mem_map_of_mem (f := Prod.snd) hmem
  | some slot =>
    have hslot := Lru.get?_eq_some_iff.mp hget
    rw [Lru.order_bump hslot] at hmem
    obtain hold | hnew := mem_append.mp hmem
    · exact mem_map_of_mem (f := Prod.snd) (mem_filter.mp hold).1
    · obtain rfl := mem_singleton.mp hnew
      exact mem_map_of_mem (f := Prod.snd) hslot

theorem mem_entries_getHitAt {now : ℤ}
    (hs : s ∈ (c.getHitAt q now liveEpoch).2.entries) : s ∈ c.entries := by
  revert hs
  fun_cases getHitAt with
  | case1 | case2 => exact id
  | case3 | case6 => exact mem_entries_removeHash
  | case4 | case5 => exact mem_entries_touch

/-- What a hit is: the wire of an entry stored under the question, of the live epoch, and
fresh or usable. -/
theorem getHitAt_spec {now : ℤ} {hit : CacheHit} (h : (c.getHitAt q now liveEpoch).1 = some hit) :
    ∃ s ∈ c.entries, s.key = .fromQuestion q ∧ s.entry.epoch = liveEpoch ∧
      hit = ⟨s.entry.wire, if s.entry.isFresh now then .fresh else .stale⟩ ∧
      (s.entry.isFresh now = true ∨ s.entry.isUsableStale now c.staleMode = true) := by
  unfold getHitAt at h
  dsimp only at h
  split at h
  · cases h
  next slot hget =>
  have hmem : slot ∈ c.entries := mem_map_of_mem (f := Prod.snd) (Lru.get?_eq_some_iff.mp hget)
  split at h
  · cases h
  next hmatch =>
  have hkey : slot.key = .fromQuestion q := by
    obtain ⟨htype, hclass, hname⟩ := not_not.mp hmatch
    rw [Key.fromQuestion, ← htype, ← hclass, ← hname]
  split at h
  · cases h
  next hepoch =>
  refine ⟨slot, hmem, hkey, not_not.mp hepoch, ?_⟩
  split at h
  · next hfresh =>
    cases h
    exact ⟨by rw [if_pos hfresh], .inl hfresh⟩
  next hfresh =>
  split at h
  · next hstale =>
    cases h
    exact ⟨by rw [if_neg hfresh], .inr hstale⟩
  · cases h

/-- What a hit says about the cache: the wire is that of an entry stored under the
question, of the live epoch, and fresh or usable. -/
theorem getHitAt_eq_some {now : ℤ}
    {hit : CacheHit} (h : (c.getHitAt q now liveEpoch).1 = some hit) :
    ∃ s ∈ c.entries, s.key = .fromQuestion q ∧ s.entry.wire = hit.wire ∧
      s.entry.epoch = liveEpoch ∧
      (s.entry.isFresh now = true ∨ s.entry.isUsableStale now c.staleMode = true) := by
  obtain ⟨s, hmem, hkey, hepoch, rfl, hserves⟩ := getHitAt_spec h
  exact ⟨s, hmem, hkey, rfl, hepoch, hserves⟩

theorem entries_insertEntry_new {key : Key}
    (hnew : ∀ s ∈ c.entries, hash s.key ≠ hash key) (hcap : c.entries.length < c.cap) :
    (c.insertEntry key entry).entries = c.entries ++ [⟨key, entry⟩] := by
  have hlen : c.slots.order.length < c.cap := by rwa [entries, length_map] at hcap
  have hkeep : (c.slots.order.filter fun r => r.1 ≠ hash key) = c.slots.order := by
    apply filter_eq_self.mpr
    intro r hr
    have hne := hnew r.2 (mem_map_of_mem (f := Prod.snd) hr)
    rw [c.keyed r hr] at hne
    simpa using hne
  have hput : (c.slots.put (hash key) ⟨key, entry⟩).order =
      c.slots.order ++ [(hash key, ⟨key, entry⟩)] := by
    rw [Lru.order_put, hkeep]
  have horder : (c.insertEntry key entry).slots.order =
      c.slots.order ++ [(hash key, ⟨key, entry⟩)] := by
    show ((c.slots.put (hash key) ⟨key, entry⟩).evictTo evictable c.cap).order = _
    rw [Lru.order_evictTo, hput, length_append, length_singleton, Nat.sub_eq_zero_of_le (by omega)]
    rfl
  rw [entries, horder, map_append]
  rfl

end Cache

end Resolver
end TortaCore
