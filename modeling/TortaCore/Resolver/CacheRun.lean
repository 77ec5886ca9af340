import TortaCore.Resolver.Snapshot
import TortaCore.Store.LruTrace

/-!
# Runs of the cache

Every operation of the cache comes down to a few actions on its store: an entry is
inserted, a row is used or dropped, the capacity changes, the policy changes, everything
goes.  What holds of a run is proved once for each action.

A run is followed with a trail beside it: the uses so far, and the evictions, each with
the uses before it and the rows that were there.  The trail only watches; the cache of a
run does not depend on it.

## Main definitions

* `Op`, `Cache.step`, `Cache.run`: the operations of the source and their runs.
* `Action`, `Op.actions`, `Action.apply`: what an operation comes down to.
* `Trail`, `Trail.run`: a run with its uses and evictions.
-/

namespace TortaCore
namespace Resolver

open Text Dns Store Wire List

variable {hash : Key → ℕ}

/-! ### Operations -/

/-- The operations of the cache that change it. -/
inductive Op where
  | put (cacheRr : Bool) (q : DnsQuestion) (response : Bytes) (now : ℤ) (epoch : ℕ)
  | putNegative (q : DnsQuestion) (response : Bytes) (secs : ℕ) (now : ℤ) (epoch : ℕ)
  | putNegativeFromResponse (q : DnsQuestion) (response : Bytes) (secs : ℕ) (now : ℤ) (epoch : ℕ)
  | putImmortal (q : DnsQuestion) (response : Bytes) (now : ℤ) (epoch : ℕ)
  | getHit (q : DnsQuestion) (now : ℤ) (liveEpoch : ℕ)
  | restore (payload : Bytes) (now : ℤ) (nowUnix : ℕ) (admits : Bytes → Bool)
  | setCap (cap : ℕ)
  | setTtlFloor (secs : ℕ)
  | setTtlCeiling (secs : ℕ)
  | setStaleModeSecs (secs : ℕ)
  | setCacheableTypes (types : List ℕ)
  | setCacheableAll
  | setHonorZeroTtl (on : Bool)
  | clear

namespace Cache

/-- One operation.  A restore may panic; what it has inserted by then stays. -/
def step (c : Cache hash) : Op → Cache hash
  | .put cacheRr q response now epoch => c.put cacheRr q response now epoch
  | .putNegative q response secs now epoch => c.putNegative q response secs now epoch
  | .putNegativeFromResponse q response secs now epoch =>
    c.putNegativeFromResponse q response secs now epoch
  | .putImmortal q response now epoch => c.putImmortal q response now epoch
  | .getHit q now liveEpoch => (c.getHitAt q now liveEpoch).2
  | .restore payload now nowUnix admits => restoreUpTo now nowUnix admits (records payload) c
  | .setCap cap => c.setCap cap
  | .setTtlFloor secs => c.setTtlFloor secs
  | .setTtlCeiling secs => c.setTtlCeiling secs
  | .setStaleModeSecs secs => c.setStaleModeSecs secs
  | .setCacheableTypes types => c.setCacheableTypes types
  | .setCacheableAll => c.setCacheableAll
  | .setHonorZeroTtl on => c.setHonorZeroTtl on
  | .clear => c.clear

def run (c : Cache hash) (ops : List Op) : Cache hash := ops.foldl step c

/-- The positive cache stores the answer: its type is cacheable, and it does not ask for no
caching at all. -/
def admitsPut (c : Cache hash) (cacheRr : Bool) (response : Bytes) : Bool :=
  c.isTypeCacheable cacheRr response &&
    !(c.honorZeroTtl && c.staleMode == .off && isExplicitZeroTtl response)

theorem put_eq (c : Cache hash) (cacheRr : Bool) (q : DnsQuestion) (response : Bytes) (now : ℤ)
    (epoch : ℕ) :
    c.put cacheRr q response now epoch =
      if c.admitsPut cacheRr response then
        c.insert q response (c.positiveTtl response) .positive epoch now
      else c := by
  unfold put admitsPut
  cases c.isTypeCacheable cacheRr response with
  | false => rfl
  | true =>
    cases c.honorZeroTtl && c.staleMode == .off && isExplicitZeroTtl response with
    | false => rfl
    | true => rfl

end Cache

/-! ### Actions -/

/-- Where an inserted entry comes from. -/
inductive Source where
  | answer (response : Bytes)
  | frame (r : SnapRecord)

/-- The wire under which an entry from there is stored: the AD bit is cleared on the way
in, while a frame is taken as it was written. -/
def Source.wire : Source → Bytes
  | .answer response => Cache.stripAdBit response
  | .frame r => r.wire

structure Insert where
  source : Source
  key : Key
  entry : Entry

inductive Action where
  | store (i : Insert)
  | hit (h : ℕ)
  | drop (h : ℕ)
  | resize (cap : ℕ)
  | tune (ttlFloor ttlCeiling : ℕ) (staleMode : StaleMode) (types : CacheableTypes)
      (honorZeroTtl : Bool)
  | flush

def Action.apply (c : Cache hash) : Action → Cache hash
  | .store i => c.insertEntry i.key i.entry
  | .hit h => c.touch h
  | .drop h => c.removeHash h
  | .resize cap => c.setCap cap
  | .tune ttlFloor ttlCeiling staleMode types honorZeroTtl =>
    { c with ttlFloor, ttlCeiling, staleMode, cacheableTypes := types, honorZeroTtl }
  | .flush => c.clear

/-- The frames of a restore that are inserted, up to a panic. -/
def restoreInserts (mode : StaleMode) (now : ℤ) (nowUnix : ℕ) (admits : Bytes → Bool) :
    List SnapRecord → List Insert
  | [] => []
  | r :: rs =>
    match rehydrated mode now nowUnix r with
    | .error _ => []
    | .ok none => restoreInserts mode now nowUnix admits rs
    | .ok (some e) =>
      if admits r.wire then ⟨.frame r, r.key, e⟩ :: restoreInserts mode now nowUnix admits rs
      else restoreInserts mode now nowUnix admits rs

/-- The insert of an answer, as `insert` and `put_immortal` build the entry. -/
def answerInsert (q : DnsQuestion) (response : Bytes) (ttl : ℕ) (kind : Kind) (epoch : ℕ)
    (now : ℤ) (immortal : Bool) : Insert :=
  ⟨.answer response, .fromQuestion q,
    ⟨Cache.stripAdBit response, now, ttl, kind, epoch, immortal, none⟩⟩

/-- What an operation inserts. -/
def Op.inserts (c : Cache hash) : Op → List Insert
  | .put cacheRr q response now epoch =>
    if c.admitsPut cacheRr response then
      [answerInsert q response (c.positiveTtl response) .positive epoch now false]
    else []
  | .putNegative q response secs now epoch =>
    [answerInsert q response (c.negativeTtl secs) .negative epoch now false]
  | .putNegativeFromResponse q response secs now epoch =>
    [answerInsert q response (c.negativeTtl ((negativeTtlFromSoa response).getD secs)) .negative
      epoch now false]
  | .putImmortal q response now epoch => [answerInsert q response 0 .positive epoch now true]
  | .restore payload now nowUnix admits =>
    restoreInserts c.staleMode now nowUnix admits (records payload)
  | _ => []

/-- What a lookup does to the row it finds. -/
def lookupActions (c : Cache hash) (q : DnsQuestion) (now : ℤ) (liveEpoch : ℕ) : List Action :=
  let h := hash (.fromQuestion q)
  match c.slots.get? h with
  | none => []
  | some slot =>
    if ¬ slot.key.Matches q then []
    else if slot.entry.epoch ≠ liveEpoch then [.drop h]
    else if slot.entry.isFresh now || slot.entry.isUsableStale now c.staleMode then [.hit h]
    else [.drop h]

/-- What an operation comes down to. -/
def Op.actions (c : Cache hash) (op : Op) : List Action :=
  match op with
  | .getHit q now liveEpoch => lookupActions c q now liveEpoch
  | .setCap cap => [.resize cap]
  | .setTtlFloor secs =>
    [.tune secs c.ttlCeiling c.staleMode c.cacheableTypes c.honorZeroTtl]
  | .setTtlCeiling secs =>
    [.tune c.ttlFloor (c.setTtlCeiling secs).ttlCeiling c.staleMode c.cacheableTypes
      c.honorZeroTtl]
  | .setStaleModeSecs secs =>
    [.tune c.ttlFloor c.ttlCeiling (.fromSecs secs) c.cacheableTypes c.honorZeroTtl]
  | .setCacheableTypes types =>
    [.tune c.ttlFloor c.ttlCeiling c.staleMode (c.setCacheableTypes types).cacheableTypes
      c.honorZeroTtl]
  | .setCacheableAll => [.tune c.ttlFloor c.ttlCeiling c.staleMode .all c.honorZeroTtl]
  | .setHonorZeroTtl on => [.tune c.ttlFloor c.ttlCeiling c.staleMode c.cacheableTypes on]
  | .clear => [.flush]
  | op => (op.inserts c).map .store

namespace Cache

theorem getHitAt_eq_actions (c : Cache hash) (q : DnsQuestion) (now : ℤ) (liveEpoch : ℕ) :
    (c.getHitAt q now liveEpoch).2 = (lookupActions c q now liveEpoch).foldl Action.apply c := by
  unfold getHitAt lookupActions
  dsimp only
  cases c.slots.get? (hash (.fromQuestion q)) with
  | none => rfl
  | some slot =>
    dsimp only
    by_cases hkey : slot.key.Matches q
    · by_cases hepoch : slot.entry.epoch = liveEpoch
      · cases hfresh : slot.entry.isFresh now with
        | true => simp [hkey, hepoch, Action.apply]
        | false =>
          cases hstale : slot.entry.isUsableStale now c.staleMode with
          | true => simp [hkey, hepoch, Action.apply]
          | false => simp [hkey, hepoch, Action.apply]
      · simp [hkey, hepoch, Action.apply]
    · simp [hkey]

/-- A restore inserts its frames one after the other. -/
theorem restoreUpTo_eq_inserts (now : ℤ) (nowUnix : ℕ) (admits : Bytes → Bool)
    (rs : List SnapRecord) (c : Cache hash) :
    restoreUpTo now nowUnix admits rs c =
        ((restoreInserts c.staleMode now nowUnix admits rs).map .store).foldl Action.apply c := by
  induction rs generalizing c with
  | nil => rfl
  | cons r rs ih =>
    rw [restoreUpTo, restoreInserts, restoreRecord]
    cases hr : rehydrated c.staleMode now nowUnix r with
    | error p => rfl
    | ok o =>
      cases o with
      | none => exact ih c
      | some e =>
        cases hadmit : admits r.wire with
        | false => simpa using ih c
        | true => simpa [Action.apply] using ih (c.insertEntry r.key e)

/-- **An operation is the sequence of its actions.** -/
theorem step_eq (c : Cache hash) (op : Op) :
    c.step op = (op.actions c).foldl Action.apply c := by
  cases op with
  | put cacheRr q response now epoch =>
    rw [step, put_eq]
    cases hput : c.admitsPut cacheRr response with
    | false => simp [Op.actions, Op.inserts, hput]
    | true => simp [Op.actions, Op.inserts, hput, Action.apply, answerInsert, insert]
  | getHit q now liveEpoch => exact getHitAt_eq_actions c q now liveEpoch
  | restore payload now nowUnix admits =>
    exact restoreUpTo_eq_inserts now nowUnix admits (records payload) c
  | setCacheableTypes types =>
    simp only [step, Op.actions, foldl_cons, foldl_nil, Action.apply, setCacheableTypes]
    split
    · rfl
    · split <;> rfl
  | putNegative | putNegativeFromResponse | putImmortal | setCap | setTtlFloor | setTtlCeiling
  | setStaleModeSecs | setCacheableAll | setHonorZeroTtl | clear => rfl

end Cache

/-! ### Trails -/

/-- A run so far: the cache, the hashes in the order they were inserted or hit, and the
evictions with the uses before each. -/
structure Trail (hash : Key → ℕ) where
  cache : Cache hash
  uses : List ℕ
  evictions : List (List ℕ × Eviction ℕ Slot)

/-- The hashes an action uses. -/
def Action.uses (hash : Key → ℕ) : Action → List ℕ
  | .store i => [hash i.key]
  | .hit h => [h]
  | _ => []

/-- What an action evicts. -/
def Action.evictions (c : Cache hash) : Action → List (Eviction ℕ Slot)
  | .store i => (c.slots.put (hash i.key) ⟨i.key, i.entry⟩).evictTrace Cache.evictable c.cap
  | .resize cap => c.slots.evictTrace Cache.evictable (max cap 1)
  | _ => []

namespace Trail

def start (c : Cache hash) : Trail hash := ⟨c, [], []⟩

def act (t : Trail hash) (a : Action) : Trail hash where
  cache := a.apply t.cache
  uses := t.uses ++ a.uses hash
  evictions := t.evictions ++ (a.evictions t.cache).map fun e => (t.uses ++ a.uses hash, e)

def step (t : Trail hash) (op : Op) : Trail hash := (op.actions t.cache).foldl act t

def run (t : Trail hash) (ops : List Op) : Trail hash := ops.foldl step t

theorem cache_foldl_act (as : List Action) (t : Trail hash) :
    (as.foldl act t).cache = as.foldl Action.apply t.cache := by
  induction as generalizing t with
  | nil => rfl
  | cons a as ih => exact ih (t.act a)

theorem cache_run (ops : List Op) (t : Trail hash) : (t.run ops).cache = t.cache.run ops := by
  induction ops generalizing t with
  | nil => rfl
  | cons op ops ih =>
    have hstep : (t.step op).cache = t.cache.step op := by
      rw [step, cache_foldl_act, Cache.step_eq]
    exact (ih (t.step op)).trans (by rw [hstep]; rfl)

theorem run_induction {P : Trail hash → Prop} (hact : ∀ t a, P t → P (t.act a)) {t : Trail hash}
    (ht : P t) (ops : List Op) : P (t.run ops) := by
  have hactions : ∀ (as : List Action) (t : Trail hash), P t → P (as.foldl act t) := by
    intro as
    induction as with
    | nil => exact fun t h => h
    | cons a as ih => exact fun t h => ih (t.act a) (hact t a h)
  induction ops generalizing t with
  | nil => exact ht
  | cons op ops ih => exact ih (hactions _ t ht)

end Trail

/-! ### The laws of the store -/

/-- The capacity is kept, or only immortal entries are left. -/
def Cache.Bounded (c : Cache hash) : Prop :=
  c.slots.order.length ≤ c.cap ∨ ∀ r ∈ c.slots.order, r.2.entry.immortal = true

theorem Cache.bounded_evictToCap (c : Cache hash) : c.evictToCap.Bounded := by
  rcases Lru.length_evictTo Cache.evictable c.cap c.slots with hlen | hall
  · exact .inl hlen
  · refine .inr fun r hr => ?_
    simpa [Cache.evictable] using hall r hr

/-- Rows that go do not break the bound. -/
theorem Cache.Bounded.of_sublist {c c' : Cache hash} (h : c.Bounded) (hcap : c'.cap = c.cap)
    (hsub : c'.slots.order.Sublist c.slots.order) : c'.Bounded := by
  rcases h with hlen | hall
  · left
    rw [hcap]
    exact Nat.le_trans hsub.length_le hlen
  · exact .inr fun r hr => hall r (hsub.subset hr)

theorem Cache.bounded_touch {c : Cache hash} (h : c.Bounded) (k : ℕ) : (c.touch k).Bounded := by
  cases hget : c.slots.get? k with
  | none =>
    have hsame : (c.touch k).slots = c.slots := by
      show c.slots.bump k = c.slots
      rw [Lru.bump, hget]
    exact h.of_sublist rfl (by rw [hsame])
  | some s =>
    have hmem := Lru.get?_eq_some_iff.mp hget
    have horder : (c.touch k).slots.order = _ := Lru.order_bump hmem
    rcases h with hlen | hall
    · left
      -- the row that moves to the end was among those that are filtered out
      have hlt : (c.slots.order.filter fun r => r.1 ≠ k).length < c.slots.order.length :=
        length_filter_lt_length_iff_exists.mpr ⟨(k, s), hmem, by simp⟩
      rw [horder, length_append, length_singleton]
      exact Nat.le_trans hlt hlen
    · right
      intro r hr
      rw [horder] at hr
      rcases mem_append.mp hr with hr | hr
      · exact hall r (mem_filter.mp hr).1
      · obtain rfl := mem_singleton.mp hr
        exact hall _ hmem

namespace Trail

/-- What holds of every run: the rows stand in the order of their last uses, the capacity
is kept, and every eviction took the oldest row that could go. -/
structure Lawful (t : Trail hash) : Prop where
  tracks : t.cache.slots.Tracks t.uses
  bounded : t.cache.Bounded
  oldest : ∀ x ∈ t.evictions, x.2.Oldest Cache.evictable x.1

theorem lawful_act {t : Trail hash} (a : Action) (h : t.Lawful) : (t.act a).Lawful := by
  have hquiet : ∀ {c' : Cache hash}, a.apply t.cache = c' → a.uses hash = [] →
      a.evictions t.cache = [] → c'.cap = t.cache.cap →
      c'.slots.order.Sublist t.cache.slots.order → (t.act a).Lawful := by
    -- actions that use nothing and evict nothing
    rintro c' rfl huses hnone hcap hsub
    refine ⟨?_, h.bounded.of_sublist hcap hsub, ?_⟩
    · simpa [act, huses] using h.tracks.of_sublist hsub
    · simpa [act, hnone] using h.oldest
  cases a with
  | store i =>
    have hput := h.tracks.put (hash i.key) ⟨i.key, i.entry⟩
    refine ⟨hput.of_sublist (Lru.sublist_order_evictTo _ _ _), Cache.bounded_evictToCap _, ?_⟩
    intro x hx
    rcases mem_append.mp hx with hx | hx
    · exact h.oldest x hx
    · obtain ⟨e, he, rfl⟩ := mem_map.mp hx
      exact Lru.oldest_of_mem_evictTrace hput e he
  | resize cap =>
    refine ⟨?_, Cache.bounded_evictToCap _, ?_⟩
    · have hsub := Lru.sublist_order_evictTo Cache.evictable (max cap 1) t.cache.slots
      show Lru.Tracks (t.uses ++ []) (t.cache.slots.evictTo Cache.evictable (max cap 1))
      rw [append_nil]
      exact h.tracks.of_sublist hsub
    · intro x hx
      rcases mem_append.mp hx with hx | hx
      · exact h.oldest x hx
      · obtain ⟨e, he, rfl⟩ := mem_map.mp hx
        have hold := Lru.oldest_of_mem_evictTrace h.tracks e he
        simpa [Action.uses] using hold
  | hit k =>
    refine ⟨h.tracks.bump k, Cache.bounded_touch h.bounded k, ?_⟩
    simpa [act, Action.evictions] using h.oldest
  | drop k =>
    refine hquiet rfl rfl rfl rfl ?_
    show (t.cache.slots.remove k).order.Sublist _
    rw [Lru.order_remove]
    exact filter_sublist
  | tune => exact hquiet rfl rfl rfl rfl (Sublist.refl _)
  | flush => exact hquiet rfl rfl rfl rfl (nil_sublist _)

theorem lawful_run (cap ttlFloor ttlCeiling negTtlCeiling serveStale : ℕ) (ops : List Op) :
    ((start (.withPolicy hash cap ttlFloor ttlCeiling negTtlCeiling serveStale)).run
      ops).Lawful := by
  refine run_induction (fun t a => lawful_act a) ⟨?_, .inl ?_, fun x hx => ?_⟩ ops
  · exact Lru.tracks_of_order_eq_nil rfl
  · exact Nat.zero_le _
  · cases hx

end Trail

/-- **The representation and the eviction order of the cache**, over every run from
`with_policy`: the two indices list the same rows; the size exceeds the capacity only by
immortal entries; and every eviction took an entry that is not immortal, whose last insert
or hit is the earliest among such entries. -/
theorem cache_lru_law (hash : Key → ℕ) (cap ttlFloor ttlCeiling negTtlCeiling serveStale : ℕ)
    (ops : List Op) :
    let c := (Cache.withPolicy hash cap ttlFloor ttlCeiling negTtlCeiling serveStale).run ops
    let t := (Trail.start
      (Cache.withPolicy hash cap ttlFloor ttlCeiling negTtlCeiling serveStale)).run ops
    c.slots.Indexed ∧
      c.slots.map.length ≤ max c.cap (c.entries.countP fun s => s.entry.immortal) ∧
      t.cache = c ∧
      ∀ x ∈ t.evictions, x.2.Oldest Cache.evictable x.1 := by
  intro c t
  have hcache : t.cache = c := Trail.cache_run ops _
  have hlaw : t.Lawful := Trail.lawful_run cap ttlFloor ttlCeiling negTtlCeiling serveStale ops
  refine ⟨c.slots.indexed, ?_, hcache, hlaw.oldest⟩
  rw [Lru.length_map]
  rcases hcache ▸ hlaw.bounded with hlen | hall
  · exact Nat.le_trans hlen (Nat.le_max_left _ _)
  refine Nat.le_trans (Nat.le_of_eq ?_) (Nat.le_max_right _ _)
  -- every entry counts
  have hcount : (c.entries.countP fun s => s.entry.immortal) = c.entries.length := by
    refine countP_eq_length.mpr fun s hs => ?_
    obtain ⟨r, hr, rfl⟩ := mem_map.mp hs
    exact hall r hr
  rw [hcount, Cache.entries, length_map]

end Resolver
end TortaCore
