import TortaCore.Machine.Run
import TortaCore.Resolver.CacheRun

/-!
# What the cache holds, by the log of its inserts

Whatever the hash function does, an entry of the cache is the one that was inserted last
under exactly its key: a later insert under the key replaces it, and so does one of
another key with its hash.  What can be said of every insert can therefore be said of
every entry and every hit.

Two things distinguish entries that a restore inserts.  Their wire is taken as it stands
in the payload, while an answer has its AD bit cleared; and their time to live is the
difference of two readings of the wall clock, or zero beside a deadline for an entry that
comes back past its time.
-/

namespace TortaCore
namespace Resolver

open Text Dns Store Wire List Cache

variable {hash : Key → ℕ}

/-! ### The last item under a key -/

section LastUnder

variable {β : Type*}

/-- The last item of a log with the given key. -/
def lastUnder (key : β → Key) (log : List β) (k : Key) : Option β :=
  log.reverse.find? fun x => key x = k

theorem lastUnder_append_self (key : β → Key) (log : List β) (x : β) :
    lastUnder key (log ++ [x]) (key x) = some x := by
  simp [lastUnder]

theorem lastUnder_append_of_ne (key : β → Key) {log : List β} {x : β} {k : Key}
    (h : key x ≠ k) : lastUnder key (log ++ [x]) k = lastUnder key log k := by
  simp [lastUnder, h]

theorem mem_of_lastUnder {key : β → Key} {log : List β} {k : Key} {x : β}
    (h : lastUnder key log k = some x) : x ∈ log ∧ key x = k :=
  ⟨mem_reverse.mp (mem_of_find?_eq_some h), by simpa using find?_some h⟩

end LastUnder

/-! ### Entries are last inserts -/

def Action.inserts : Action → List Insert
  | .store i => [i]
  | _ => []

theorem flatMap_inserts_actions (c : Cache hash) (op : Op) :
    (op.actions c).flatMap Action.inserts = op.inserts c := by
  have hstores : ∀ is : List Insert, (is.map Action.store).flatMap Action.inserts = is :=
    fun is => (flatMap_map ..).trans (flatMap_singleton' is)
  cases op with
  | put | putNegative | putNegativeFromResponse | putImmortal | restore => exact hstores _
  | getHit q now liveEpoch =>
    simp only [Op.actions, Op.inserts]
    fun_cases lookupActions with
    | _ => rfl
  | setCap | setTtlFloor | setTtlCeiling | setStaleModeSecs | setCacheableTypes
  | setCacheableAll | setHonorZeroTtl | clear => rfl

/-- Every entry of the cache is the last item under its key in a log whose items stand for
inserts. -/
def Recorded {β : Type*} (insert : β → Insert) (c : Cache hash) (log : List β) : Prop :=
  ∀ s ∈ c.entries, ∃ x, lastUnder (fun x => (insert x).key) log s.key = some x ∧
    (insert x).entry = s.entry

section Recorded

variable {β : Type*} {insert : β → Insert} (label : Insert → β)
  (hlabel : ∀ i, insert (label i) = i)

include hlabel in
/-- One action: an insert under a hash replaces what was there, so that no other entry has
its key. -/
theorem Recorded.act {c : Cache hash} {log : List β} (h : Recorded insert c log) (a : Action) :
    Recorded insert (a.apply c) (log ++ a.inserts.map label) := by
  have hkeep : (∀ s ∈ (a.apply c).entries, s ∈ c.entries) → a.inserts = [] →
      Recorded insert (a.apply c) (log ++ a.inserts.map label) := by
    intro hsub hnone s hs
    rw [hnone, map_nil, append_nil]
    exact h s (hsub s hs)
  cases a with
  | store i =>
    intro s hs
    rcases mem_entries_insertEntry_cases hs with ⟨hold, hne⟩ | rfl
    · obtain ⟨x, hx, hentry⟩ := h s hold
      refine ⟨x, ?_, hentry⟩
      have hkey : (insert (label i)).key ≠ s.key := by
        rw [hlabel]
        exact fun e => hne (by rw [e])
      exact (lastUnder_append_of_ne (fun x => (insert x).key) hkey).trans hx
    · refine ⟨label i, ?_, by rw [hlabel]⟩
      have hself := lastUnder_append_self (fun x => (insert x).key) log (label i)
      rwa [hlabel] at hself
  | hit k => exact hkeep (fun s hs => mem_entries_touch hs) rfl
  | drop k => exact hkeep (fun s hs => mem_entries_removeHash hs) rfl
  | resize cap =>
    refine hkeep (fun s hs => ?_) rfl
    obtain ⟨r, hr, rfl⟩ := mem_map.mp hs
    exact mem_map_of_mem ((Lru.sublist_order_evictTo _ _ _).subset hr)
  | tune => exact hkeep (fun s hs => hs) rfl
  | flush => exact hkeep (fun s hs => nomatch hs) rfl

include hlabel in
theorem Recorded.step {c : Cache hash} {log : List β} (h : Recorded insert c log) (op : Op) :
    Recorded insert (c.step op) (log ++ (op.inserts c).map label) := by
  have hactions : ∀ (as : List Action) (c : Cache hash) (log : List β), Recorded insert c log →
      Recorded insert (as.foldl Action.apply c)
        (log ++ (as.flatMap Action.inserts).map label) := by
    intro as
    induction as with
    | nil => intro c log h; simpa using h
    | cons a as ih => intro c log h; simpa using ih _ _ (h.act label hlabel a)
  rw [step_eq, ← flatMap_inserts_actions]
  exact hactions _ c log h

end Recorded

/-! ### Hits -/

/-- The inserts of a run, in order. -/
def Cache.insertLog (c : Cache hash) : List Op → List Insert
  | [] => []
  | op :: ops => op.inserts c ++ Cache.insertLog (c.step op) ops

theorem recorded_run (ops : List Op) {c : Cache hash} {log : List Insert} (h : Recorded id c log) :
    Recorded id (c.run ops) (log ++ c.insertLog ops) := by
  induction ops generalizing c log with
  | nil => simpa [insertLog, run] using h
  | cons op ops ih =>
    have hstep := h.step id (fun _ => rfl) op
    simpa [insertLog, run] using ih hstep

/-- An insert as the code makes it: the wire is that of its source, and an immortal entry
has no deadline. -/
structure Insert.Built (i : Insert) : Prop where
  wire : i.entry.wire = i.source.wire
  deadline : i.entry.immortal = true → i.entry.staleDeadline = none

variable {i : Insert} {mode : StaleMode} {now : ℤ} {nowUnix : ℕ} {c : Cache hash} {e : Entry}

theorem mem_restoreInserts {admits : Bytes → Bool} {rs : List SnapRecord}
    (h : i ∈ restoreInserts mode now nowUnix admits rs) :
    ∃ r ∈ rs, i.source = .frame r ∧ i.key = r.key ∧
        rehydrated mode now nowUnix r = .ok (some i.entry) := by
  fun_induction restoreInserts with
  | case1 | case2 => cases h
  | case3 _ _ _ ih | case5 _ _ _ _ _ ih =>
    exact (ih h).imp fun _ hr => ⟨mem_cons_of_mem _ hr.1, hr.2⟩
  | case4 r rs e he _ ih =>
    rcases mem_cons.mp h with rfl | h
    · exact ⟨r, mem_cons_self, rfl, rfl, he⟩
    · exact (ih h).imp fun _ hr => ⟨mem_cons_of_mem _ hr.1, hr.2⟩

theorem built_of_mem_inserts {op : Op} (h : i ∈ op.inserts c) : i.Built := by
  have hanswer : ∀ q response ttl kind epoch now immortal,
      (answerInsert q response ttl kind epoch now immortal).Built :=
    fun _ _ _ _ _ _ _ => ⟨rfl, fun _ => rfl⟩
  cases op with
  | put cacheRr q response now epoch =>
    rw [Op.inserts] at h
    split at h
    · obtain rfl := mem_singleton.mp h
      exact hanswer ..
    · cases h
  | putNegative | putNegativeFromResponse | putImmortal =>
    obtain rfl := mem_singleton.mp h
    exact hanswer ..
  | restore payload now nowUnix admits =>
    obtain ⟨r, -, hsource, -, hentry⟩ := mem_restoreInserts h
    obtain ⟨hwire, -, -, himm, -⟩ := rehydrated_eq_some hentry
    refine ⟨by rw [hwire, hsource]; rfl, fun h => ?_⟩
    rw [himm] at h
    cases h
  | getHit | setCap | setTtlFloor | setTtlCeiling | setStaleModeSecs | setCacheableTypes
  | setCacheableAll | setHonorZeroTtl | clear => cases h

theorem built_of_mem_insertLog (ops : List Op) {c : Cache hash} (h : i ∈ c.insertLog ops) :
    i.Built := by
  induction ops generalizing c with
  | nil => cases h
  | cons op ops ih =>
    rcases mem_append.mp h with h | h
    · exact built_of_mem_inserts h
    · exact ih h

/-- Fresh are the immortal entries and those within their time to live, unless they came
back past it. -/
theorem isFresh_iff (h : e.immortal = true → e.staleDeadline = none) (now : ℤ) :
    e.isFresh now = true ↔
      (e.age now ≤ e.ttl ∨ e.immortal = true) ∧ e.staleDeadline = none := by
  unfold Entry.isFresh
  cases himm : e.immortal with
  | true => simp [h himm]
  | false => cases e.staleDeadline <;> simp

/-- **What a lookup returns, over every run of the cache** and for every hash function: the
wire of the last insert under exactly the question, of the live epoch; fresh exactly while
its time to live lasts, unless it came back past that. -/
theorem getHitAt_last_insert (hash : Key → ℕ)
    (cap ttlFloor ttlCeiling negTtlCeiling serveStale : ℕ) (ops : List Op) (q : DnsQuestion)
    (now : ℤ) (liveEpoch : ℕ) (hit : CacheHit)
    (h : (((Cache.withPolicy hash cap ttlFloor ttlCeiling negTtlCeiling serveStale).run
      ops).getHitAt q now liveEpoch).1 = some hit) :
    ∃ i, lastUnder Insert.key ((Cache.withPolicy hash cap ttlFloor ttlCeiling negTtlCeiling
        serveStale).insertLog ops) (.fromQuestion q) = some i ∧
      hit.wire = i.source.wire ∧ i.entry.epoch = liveEpoch ∧
      (hit.freshness = .fresh ↔
        (i.entry.age now ≤ i.entry.ttl ∨ i.entry.immortal = true) ∧
          i.entry.staleDeadline = none) := by
  obtain ⟨s, hs, hkey, hepoch, rfl, -⟩ := getHitAt_spec h
  have hrec : Recorded id ((withPolicy hash cap ttlFloor ttlCeiling negTtlCeiling
      serveStale).run ops) ([] ++ _) := recorded_run ops fun s hs => nomatch hs
  obtain ⟨i, hlast, hentry⟩ := hrec s hs
  rw [nil_append, hkey] at hlast
  have hbuilt := built_of_mem_insertLog ops (mem_of_lastUnder hlast).1
  rw [id] at hentry
  refine ⟨i, hlast, ?_, by rw [hentry, hepoch], ?_⟩
  · rw [← hbuilt.wire, hentry]
  · have hdeadline := hbuilt.deadline
    rw [hentry] at hdeadline ⊢
    rw [← isFresh_iff hdeadline now]
    cases s.entry.isFresh now <;> simp

/-- An answer with the AD bit set is stored and looked up ten seconds later. -/
theorem getHitAt_last_insert_answer :
    let start := Cache.withPolicy (fun k => k.qname.length) 16 0 0 0 0
    let ops : List Op := [.put true ⟨7, ['a'], 1, 1⟩
      [0, 7, 129, 160, 0, 1, 0, 1, 0, 0, 0, 0, 1, 97, 0, 0, 1, 0, 1,
        192, 12, 0, 1, 0, 1, 0, 0, 0, 30, 0, 4, 1, 2, 3, 4] 100 0]
    let hit : CacheHit := ⟨[0, 7, 129, 128, 0, 1, 0, 1, 0, 0, 0, 0, 1, 97, 0, 0, 1, 0, 1,
        192, 12, 0, 1, 0, 1, 0, 0, 0, 30, 0, 4, 1, 2, 3, 4], .fresh⟩
    ((start.run ops).getHitAt ⟨9, ['a'], 1, 1⟩ 110 0).1 = some hit ∧
      ∃ i, lastUnder Insert.key (start.insertLog ops) ⟨['a'], 1, 1⟩ = some i ∧
        hit.wire = i.source.wire ∧ i.entry.epoch = 0 ∧
        (hit.freshness = .fresh ↔
          (i.entry.age 110 ≤ i.entry.ttl ∨ i.entry.immortal = true) ∧
            i.entry.staleDeadline = none) := by
  intro start ops hit
  have hhit : ((start.run ops).getHitAt ⟨9, ['a'], 1, 1⟩ 110 0).1 = some hit := by
    decide +kernel
  exact ⟨hhit, getHitAt_last_insert _ 16 0 0 0 0 ops ⟨9, ['a'], 1, 1⟩ 110 0 hit hhit⟩

/-- A payload whose frame has the AD bit set: the restored wire is served with it. -/
theorem restored_hit_keeps_ad_bit :
    let payload : Bytes := [2, 0, 0, 0, 1, 0, 1, 97, 0, 1, 0, 1, 0, 0, 0, 0, 0, 0, 0, 4, 0,
      0, 0, 0, 0, 0, 0, 4, 0, 0, 0, 0, 0, 0, 0, 0, 0, 0, 0, 0, 4, 0, 7, 129, 160]
    let hit := (((Cache.withPolicy (fun k => k.qname.length) 16 0 0 0 0).run
      [.restore payload 50 1000 fun _ => true]).getHitAt ⟨9, ['a'], 1, 1⟩ 60 0).1
    (records payload).map (fun r => (r.key, r.wire)) = [(⟨['a'], 1, 1⟩, [0, 7, 129, 160])] ∧
      hit.map (·.wire) = some [0, 7, 129, 160] ∧
      Cache.stripAdBit [0, 7, 129, 160] = [0, 7, 129, 128] := by
  decide +kernel

/-! ### Ceilings -/

def Op.isRestore : Op → Bool
  | .restore .. => true
  | _ => false

/-- The integers of an operation are in the range of their types. -/
def Op.Typed : Op → Prop
  | .put _ q _ _ epoch | .putNegative q _ _ _ epoch | .putNegativeFromResponse q _ _ _ epoch
  | .putImmortal q _ _ epoch => q.qtype < 2 ^ 16 ∧ q.qclass < 2 ^ 16 ∧ epoch < 2 ^ 64
  | _ => True

/-- The ceiling in force when the last insert of a key was made. -/
def ceilingOf (log : List (Insert × ℕ)) (k : Key) : ℕ :=
  ((lastUnder (fun x => x.1.key) log k).map Prod.snd).getD 0

/-- Runs with restarts: each insert is noted with the positive ceiling in force when it is made.  A
restart reads what another run wrote out under the same negative ceiling and did not store under a
higher positive one, at a wall clock that is not earlier than when it was written. -/
inductive Lives (hash : Key → ℕ) : Cache hash → List (Insert × ℕ) → Prop where
  | boot (cap ttlFloor ttlCeiling negTtlCeiling serveStale : ℕ) :
      Lives hash (.withPolicy hash cap ttlFloor ttlCeiling negTtlCeiling serveStale) []
  | op {c log} (op : Op) : Lives hash c log → op.isRestore = false → op.Typed →
      Lives hash (c.step op) (log ++ (op.inserts c).map fun i => (i, c.ttlCeiling))
  | restart {c c₀ log log₀} (now₀ : ℤ) (snapAt budget : ℕ) (now : ℤ) (nowUnix : ℕ)
      (admits : Bytes → Bool) : Lives hash c log → Lives hash c₀ log₀ →
      (∀ s ∈ c₀.entries, ceilingOf log₀ s.key ≤ c.ttlCeiling) →
      c₀.negTtlCeiling = c.negTtlCeiling → snapAt ≤ nowUnix →
      Lives hash (c.step (.restore (c₀.snapshot now₀ snapAt budget) now nowUnix admits))
        (log ++ ((Op.restore (c₀.snapshot now₀ snapAt budget) now nowUnix admits).inserts c).map
          fun i => (i, c.ttlCeiling))

/-- A positive entry keeps to its ceiling.  A negative one keeps to that of negative
entries and to one second at least, unless it came back past its time. -/
def Entry.Ceiled (e : Entry) (ceiling negCeiling : ℕ) : Prop :=
  (e.kind = .positive → e.ttl ≤ ceiling) ∧
    (e.kind = .negative → e.ttl ≤ negCeiling ∧
      (1 ≤ e.ttl ∨ (e.ttl = 0 ∧ e.staleDeadline.isSome = true)))

/-- What is kept of every insert. -/
structure Noted (negCeiling : ℕ) (x : Insert × ℕ) : Prop where
  typed : Slot.Typed ⟨x.1.key, x.1.entry⟩
  ceiled : x.1.entry.Ceiled x.2 negCeiling

theorem negTtlCeiling_step (c : Cache hash) (op : Op) :
    (c.step op).negTtlCeiling = c.negTtlCeiling := by
  rw [step_eq]
  refine Machine.foldl_invariant (I := fun c' : Cache hash => c'.negTtlCeiling = c.negTtlCeiling)
    (fun c' a h => ?_) _ rfl
  cases a <;> exact h

/-- The inserts of answers keep to the ceilings. -/
theorem noted_of_mem_inserts {op : Op} (hneg : 1 ≤ c.negTtlCeiling) (hop : op.isRestore = false)
    (htyped : op.Typed) (h : i ∈ op.inserts c) : Noted c.negTtlCeiling (i, c.ttlCeiling) := by
  have hnegative : ∀ secs, c.negativeTtl secs ≤ c.negTtlCeiling ∧ 1 ≤ c.negativeTtl secs := by
    intro secs
    unfold negativeTtl
    omega
  cases op with
  | put cacheRr q response now epoch =>
    rw [Op.inserts] at h
    split at h
    · obtain rfl := mem_singleton.mp h
      refine ⟨⟨htyped.1, htyped.2.1, htyped.2.2⟩, fun _ => ?_, fun hkind => by cases hkind⟩
      exact Nat.min_le_right _ _
    · cases h
  | putNegative | putNegativeFromResponse =>
    obtain rfl := mem_singleton.mp h
    obtain ⟨hle, hpos⟩ := hnegative _
    exact ⟨⟨htyped.1, htyped.2.1, htyped.2.2⟩, fun hkind => (by cases hkind),
      fun _ => ⟨hle, .inl hpos⟩⟩
  | putImmortal q response now epoch =>
    obtain rfl := mem_singleton.mp h
    exact ⟨⟨htyped.1, htyped.2.1, htyped.2.2⟩, fun _ => Nat.zero_le _, fun hkind => by cases hkind⟩
  | restore => cases hop
  | getHit | setCap | setTtlFloor | setTtlCeiling | setStaleModeSecs | setCacheableTypes
  | setCacheableAll | setHonorZeroTtl | clear => cases h

theorem kind_of_rehydrated {r : SnapRecord} (h : rehydrated mode now nowUnix r = .ok (some e)) :
    e.kind = if r.kind = 1 then .negative else .positive := by
  revert h
  fun_cases rehydrated with
  | case1 | case3 => rintro ⟨⟩; rfl
  | _ => exact fun h => by cases h

/-- An entry that is written out and comes back at a later second has at most the time to
live it had. -/
theorem ceiled_of_rehydrated {mode₀ : StaleMode} {now₀ : ℤ} {snapAt : ℕ} {s : Slot}
    {ceiling negCeiling : ℕ} (hle : snapAt ≤ nowUnix) (hs : s.entry.Ceiled ceiling negCeiling)
    (h : rehydrated mode now nowUnix (toRecord mode₀ now₀ snapAt s) = .ok (some e)) :
    e.Ceiled ceiling negCeiling := by
  obtain ⟨-, -, -, -, hlife⟩ := rehydrated_eq_some h
  have hkind : e.kind = s.entry.kind := by
    rw [kind_of_rehydrated h, toRecord]
    cases s.entry.kind <;> rfl
  have hexpiry : (toRecord mode₀ now₀ snapAt s).expiryUnix ≤ snapAt + s.entry.ttl :=
    Nat.le_trans (Nat.min_le_left _ _) (Nat.add_le_add_left (Nat.sub_le _ _) _)
  have httl : e.ttl ≤ s.entry.ttl := by
    rcases hlife with ⟨-, httl, -⟩ | ⟨-, -, -, httl, -⟩
    · omega
    · omega
  refine ⟨fun hpos => Nat.le_trans httl (hs.1 (hkind ▸ hpos)), fun hneg => ⟨?_, ?_⟩⟩
  · exact Nat.le_trans httl (hs.2 (hkind ▸ hneg)).1
  · rcases hlife with ⟨hfresh, httl, -⟩ | ⟨-, -, -, httl, hdeadline⟩
    · exact .inl (by omega)
    · exact .inr ⟨httl, by rw [hdeadline]; rfl⟩

/-- What every run keeps. -/
structure Kept (c : Cache hash) (log : List (Insert × ℕ)) : Prop where
  recorded : Recorded Prod.fst c log
  neg_pos : 1 ≤ c.negTtlCeiling
  noted : ∀ x ∈ log, Noted c.negTtlCeiling x

theorem Kept.entry {log : List (Insert × ℕ)} (h : Kept c log) {s : Slot} (hs : s ∈ c.entries) :
    s.Typed ∧ s.entry.Ceiled (ceilingOf log s.key) c.negTtlCeiling := by
  obtain ⟨x, hx, hentry⟩ := h.recorded s hs
  obtain ⟨hmem, hkey⟩ := mem_of_lastUnder hx
  have hnote := h.noted x hmem
  have hceiling : ceilingOf log s.key = x.2 := by rw [ceilingOf, hx]; rfl
  rw [hceiling, ← hentry]
  refine ⟨?_, hnote.ceiled⟩
  have htyped := hnote.typed
  rw [hkey, hentry] at htyped
  exact htyped

theorem Kept.step {log : List (Insert × ℕ)} (h : Kept c log) (op : Op) (ceiling : Insert → ℕ)
    (hnew : ∀ i ∈ op.inserts c, Noted c.negTtlCeiling (i, ceiling i)) :
    Kept (c.step op) (log ++ (op.inserts c).map fun i => (i, ceiling i)) := by
  refine ⟨h.recorded.step (fun i => (i, ceiling i)) (fun _ => rfl) op, ?_, ?_⟩
  · rw [negTtlCeiling_step]
    exact h.neg_pos
  · rw [negTtlCeiling_step]
    exact forall_mem_append.mpr ⟨h.noted, forall_mem_map.mpr hnew⟩

theorem Lives.kept {log : List (Insert × ℕ)} (h : Lives hash c log) : Kept c log := by
  induction h with
  | boot cap ttlFloor ttlCeiling negTtlCeiling serveStale =>
    refine ⟨fun s hs => (nomatch hs), ?_, fun x hx => nomatch hx⟩
    show 1 ≤ if negTtlCeiling = 0 then defaultNegTtlCeilingSecs else negTtlCeiling
    split
    · decide
    · omega
  | @op c log op _ hop htyped ih =>
    exact ih.step op _ fun i hi => noted_of_mem_inserts ih.neg_pos hop htyped hi
  | @restart c c₀ log log₀ now₀ snapAt budget now nowUnix admits _ _ hceiling hneg hle ih ih₀ =>
    refine ih.step _ _ fun i hi => ?_
    -- the frame is that of an entry of the other run, under the same key
    obtain ⟨r, hr, -, hkey, hentry⟩ := mem_restoreInserts hi
    obtain ⟨s, hs, -, rfl⟩ := mem_records_snapshot (fun s hs => (ih₀.entry hs).1) hr
    obtain ⟨htyped, hceiled⟩ := ih₀.entry hs
    have hepoch : i.entry.epoch = s.entry.epoch := (rehydrated_eq_some hentry).2.2.1
    have hkey : i.key = s.key := hkey
    refine ⟨⟨?_, ?_, ?_⟩, ?_⟩
    · exact hkey ▸ htyped.qtype
    · exact hkey ▸ htyped.qclass
    · exact hepoch ▸ htyped.epoch
    · rw [← hneg]
      exact (ceiled_of_rehydrated hle hceiled hentry).imp_left
        fun hpos hkind => Nat.le_trans (hpos hkind) (hceiling s hs)

end Resolver
end TortaCore
