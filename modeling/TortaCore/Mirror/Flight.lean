import TortaCore.Machine.Run
import TortaCore.Mirror.Catalog

/-!
# The privacy flow

`serve.rs`.  `serve_addressed` answers a content address from the store, or, where the mode
lets it, fetches the asset under a lock that is kept for each address.  Calls run at the same
time: a call is a task that stands before its next access to what is shared, and a run of the
machine is any interleaving of those accesses, with the replies of the upstream, dropped calls
and other uses of the store among them.

## Main definitions

* `Phase`, `State`, `apply`: the calls, what they share, and one step.
-/

namespace TortaCore
namespace Mirror

open Text Store Machine List Option CacheStore
open TortaCore.Runtime

/-- What a miss may do. -/
inductive CacheMode where
  | leakOnMiss
  | blockMissing
  deriving DecidableEq

inductive ServeVerdict where
  | servedLocal (bytes : Bytes)
  | leakedThenServed (bytes : Bytes)
  | blockedMissing
  | notInCatalog
  | fetchFailed
  deriving DecidableEq

namespace Flight

/-- Where a call stands: before which access.  A lock is known by a number; a call keeps a
handle on it until it returns. -/
inductive Phase where
  | entering
  | slotting
  | waiting (lock : ℕ)
  | locked (lock : ℕ)
  | fetching (lock : ℕ)
  | fetched (lock : ℕ) (bytes : Bytes)
  | stored (lock : ℕ)
  | unlocking (lock : ℕ) (verdict : ServeVerdict)
  | pruning (lock : ℕ) (verdict : ServeVerdict)
  | leaving (lock : ℕ) (verdict : ServeVerdict)
  | done (verdict : ServeVerdict)
  | cancelled
  deriving DecidableEq

namespace Phase

/-- The lock whose guard the call has. -/
def guard? : Phase → Option ℕ
  | .locked m | .fetching m | .fetched m _ | .stored m | .unlocking m _ => some m
  | _ => none

/-- The lock the call has a handle on and has not tried to remove from the map. -/
def key? : Phase → Option ℕ
  | .waiting m | .pruning m _ => some m
  | p => p.guard?

/-- The lock the call has a handle on. -/
def handle? : Phase → Option ℕ
  | .leaving m _ => some m
  | p => p.key?

theorem key?_of_guard? {p : Phase} {m : ℕ} (h : p.guard? = some m) : p.key? = some m := by
  cases p <;> first | exact h | cases h

theorem handle?_of_key? {p : Phase} {m : ℕ} (h : p.key? = some m) : p.handle? = some m := by
  cases p <;> first | exact h | cases h

end Phase

/-- One call of `serve_addressed`. -/
structure Task where
  mode : CacheMode
  hash : ContentHash
  phase : Phase

/-- What the upstream sees of the calls: a fetch starts, and a fetch returns the pinned bytes. -/
inductive Event where
  | fetchStarted (hash : ContentHash)
  | delivered (hash : ContentHash)
  deriving DecidableEq

/-- The store, the map of locks (`InFlight`) with the next lock, the calls, and the log. -/
structure State (H : Bytes → ContentHash) where
  cache : Backed H
  locks : Dict ContentHash ℕ
  fresh : ℕ
  tasks : List Task
  log : List Event

variable {H : Bytes → ContentHash}

namespace State

def start (cache : Backed H) : State H := ⟨cache, .empty, 0, [], []⟩

def cacheGet (s : State H) (hash : ContentHash) : Option Bytes :=
  (s.cache.store.get hash).map CacheEntry.bytes

/-- `InFlight::slot`. -/
def slot (s : State H) (hash : ContentHash) : ℕ × State H :=
  match s.locks.get? hash with
  | some m => (m, s)
  | none => (s.fresh, { s with locks := s.locks.set hash s.fresh, fresh := s.fresh + 1 })

/-- The handles on a lock: those of the map, and those of the calls. -/
def strongCount (s : State H) (m : ℕ) : ℕ :=
  s.locks.rows.countP (·.2 == m) + s.tasks.countP (·.phase.handle? == some m)

/-- `InFlight::prune`. -/
def prune (s : State H) (hash : ContentHash) (held : ℕ) : State H :=
  match s.locks.get? hash with
  | some existing =>
    if existing = held ∧ s.strongCount held ≤ 2 then { s with locks := s.locks.erase hash } else s
  | none => s

/-- The next access of a call: the shared state after it, and where the call stands then.
The write of an insert may meet a fault. -/
def advance (fault : Option IoFault) (s : State H) (t : Task) : State H × Phase :=
  match t.phase with
  | .entering =>
    match s.cacheGet t.hash with
    | some bytes => (s, .done (.servedLocal bytes))
    | none => if t.mode = .blockMissing then (s, .done .blockedMissing) else (s, .slotting)
  | .slotting => ((s.slot t.hash).2, .waiting (s.slot t.hash).1)
  | .waiting m =>
    if s.tasks.any (·.phase.guard? == some m) then (s, .waiting m) else (s, .locked m)
  | .locked m =>
    match s.cacheGet t.hash with
    | some bytes => (s, .unlocking m (.servedLocal bytes))
    | none => ({ s with log := .fetchStarted t.hash :: s.log }, .fetching m)
  | .fetched m bytes =>
    let r := s.cache.insertVerified fault t.hash bytes
    ({ s with cache := r.2 }, if r.1.isSome then .stored m else .unlocking m .fetchFailed)
  | .stored m =>
    match s.cacheGet t.hash with
    | some bytes => (s, .unlocking m (.leakedThenServed bytes))
    | none => (s, .unlocking m .fetchFailed)
  | .unlocking m verdict => (s, .pruning m verdict)
  | .pruning m verdict => (s.prune t.hash m, .leaving m verdict)
  | .leaving _ verdict => (s, .done verdict)
  | .fetching _ | .done _ | .cancelled => (s, t.phase)

/-- The fetch returns, with bytes or with an error. -/
def resume (reply : Option Bytes) (s : State H) (t : Task) : State H × Phase :=
  match t.phase with
  | .fetching m =>
    match reply with
    | some bytes =>
      ({ s with log := if H bytes = t.hash then .delivered t.hash :: s.log else s.log },
        .fetched m bytes)
    | none => (s, .unlocking m .fetchFailed)
  | _ => (s, t.phase)

/-- The call is dropped.  This happens only where it awaits. -/
def cancel (s : State H) (t : Task) : State H × Phase :=
  match t.phase with
  | .waiting _ | .fetching _ => (s, .cancelled)
  | _ => (s, t.phase)

/-- Call `i` stands there now. -/
def setPhase (s : State H) (i : ℕ) (t : Task) (p : Phase) : State H :=
  { s with tasks := s.tasks.set i { t with phase := p } }

def onTask (s : State H) (i : ℕ) (f : State H → Task → State H × Phase) : State H :=
  match s.tasks[i]? with
  | some t => (f s t).1.setPhase i t (f s t).2
  | none => s

end State

def serveAddressed (mode : CacheMode) (hash : ContentHash) : Task := ⟨mode, hash, .entering⟩

/-- The front door: a name that the catalog does not have is answered at once. -/
def serveNamePrivate (catalog : Catalog) (mode : CacheMode) (name : Str) :
    Except ServeVerdict Task :=
  match catalog.contentHashFor name with
  | some hash => .ok (serveAddressed mode hash)
  | none => .error .notInCatalog

inductive Act where
  | call (mode : CacheMode) (hash : ContentHash)
  | callName (catalog : Catalog) (mode : CacheMode) (name : Str)
  | step (fault : Option IoFault) (i : ℕ)
  | reply (bytes : Option Bytes) (i : ℕ)
  | cancel (i : ℕ)
  | cache (c : Backed.CacheCall)

open State

def apply (s : State H) : Act → State H
  | .call mode hash => { s with tasks := s.tasks ++ [serveAddressed mode hash] }
  | .callName catalog mode name =>
    match serveNamePrivate catalog mode name with
    | .ok t => { s with tasks := s.tasks ++ [t] }
    | .error _ => s
  | .step fault i => s.onTask i (advance fault)
  | .reply bytes i => s.onTask i (resume bytes)
  | .cancel i => s.onTask i cancel
  | .cache c => { s with cache := s.cache.step c }

def run (s : State H) (acts : List Act) : State H := acts.foldl apply s

theorem run_append (s : State H) (pre post : List Act) :
    run s (pre ++ post) = run (run s pre) post := foldl_append ..

/-! ### What one call can do -/

/-- All that a step of a call does to the shared state and to the call. -/
inductive Move (s : State H) (t : Task) : State H → Phase → Prop where
  | stay : Move s t s t.phase
  | hit {e} : t.phase = .entering → s.cache.store.get t.hash = some e →
      Move s t s (.done (.servedLocal e.bytes))
  | block : t.phase = .entering → s.cache.store.get t.hash = none → t.mode = .blockMissing →
      Move s t s (.done .blockedMissing)
  | miss : t.phase = .entering → s.cache.store.get t.hash = none → t.mode = .leakOnMiss →
      Move s t s .slotting
  | join {m} : t.phase = .slotting → s.locks.get? t.hash = some m → Move s t s (.waiting m)
  | create : t.phase = .slotting → s.locks.get? t.hash = none →
      Move s t { s with locks := s.locks.set t.hash s.fresh, fresh := s.fresh + 1 }
        (.waiting s.fresh)
  | acquire {m} : t.phase = .waiting m → (∀ u ∈ s.tasks, u.phase.guard? ≠ some m) →
      Move s t s (.locked m)
  | recheck {m e} : t.phase = .locked m → s.cache.store.get t.hash = some e →
      Move s t s (.unlocking m (.servedLocal e.bytes))
  | fetch {m} : t.phase = .locked m → s.cache.store.get t.hash = none →
      Move s t { s with log := .fetchStarted t.hash :: s.log } (.fetching m)
  | deliver {m bytes} : t.phase = .fetching m → H bytes = t.hash →
      Move s t { s with log := .delivered t.hash :: s.log } (.fetched m bytes)
  | mislead {m bytes} : t.phase = .fetching m → H bytes ≠ t.hash → Move s t s (.fetched m bytes)
  | fail {m} : t.phase = .fetching m → Move s t s (.unlocking m .fetchFailed)
  | insert {m bytes fault p} : t.phase = .fetched m bytes →
      (p = .stored m ∨ p = .unlocking m .fetchFailed) →
      Move s t { s with cache := (s.cache.insertVerified fault t.hash bytes).2 } p
  | serve {m v} : t.phase = .stored m → Move s t s (.unlocking m v)
  | unlock {m v} : t.phase = .unlocking m v → Move s t s (.pruning m v)
  | keep {m v} : t.phase = .pruning m v → Move s t s (.leaving m v)
  | prune {m v} : t.phase = .pruning m v → s.locks.get? t.hash = some m → s.strongCount m ≤ 2 →
      Move s t { s with locks := s.locks.erase t.hash } (.leaving m v)
  | leave {m v} : t.phase = .leaving m v → Move s t s (.done v)
  | cancel {m} : t.phase = .waiting m ∨ t.phase = .fetching m → Move s t s .cancelled

theorem move_advance (fault : Option IoFault) (s : State H) (t : Task) :
    Move s t (advance fault s t).1 (advance fault s t).2 := by
  rw [advance]
  cases hp : t.phase with
  | entering =>
    cases hget : s.cache.store.get t.hash with
    | some e => simpa [cacheGet, hget] using Move.hit hp hget
    | none =>
      cases hmode : t.mode with
      | leakOnMiss => simpa [cacheGet, hget] using Move.miss hp hget hmode
      | blockMissing => simpa [cacheGet, hget] using Move.block hp hget hmode
  | slotting =>
    cases hlock : s.locks.get? t.hash with
    | some m => simpa [slot, hlock] using Move.join hp hlock
    | none => simpa [slot, hlock] using Move.create hp hlock
  | waiting m =>
    by_cases hany : s.tasks.any (·.phase.guard? == some m) = true
    · simpa [hany, hp] using Move.stay (s := s) (t := t)
    · have hnone : ∀ u ∈ s.tasks, u.phase.guard? ≠ some m := by simpa using hany
      simpa [hany] using Move.acquire hp hnone
  | locked m =>
    cases hget : s.cache.store.get t.hash with
    | some e => simpa [cacheGet, hget] using Move.recheck hp hget
    | none => simpa [cacheGet, hget] using Move.fetch hp hget
  | fetched m bytes =>
    dsimp only
    refine Move.insert hp ?_
    split
    · exact .inl rfl
    · exact .inr rfl
  | stored m =>
    cases hget : s.cache.store.get t.hash with
    | some e => simpa [cacheGet, hget] using Move.serve hp
    | none => simpa [cacheGet, hget] using Move.serve hp
  | unlocking m v => exact Move.unlock hp
  | pruning m v =>
    dsimp only
    rw [State.prune]
    split
    · next existing hlock =>
      split
      · next hcond =>
        obtain ⟨rfl, hcount⟩ := hcond
        exact Move.prune hp hlock hcount
      · exact Move.keep hp
    · exact Move.keep hp
  | leaving m v => exact Move.leave hp
  | fetching m => simpa [hp] using Move.stay (s := s) (t := t)
  | done v => simpa [hp] using Move.stay (s := s) (t := t)
  | cancelled => simpa [hp] using Move.stay (s := s) (t := t)

theorem move_resume (reply : Option Bytes) (s : State H) (t : Task) :
    Move s t (resume reply s t).1 (resume reply s t).2 := by
  rw [resume]
  split
  · next m hp =>
    cases reply with
    | none => exact .fail hp
    | some bytes =>
      by_cases hhash : H bytes = t.hash
      · simpa [hhash] using Move.deliver hp hhash
      · simpa [hhash] using Move.mislead hp hhash
  · exact .stay

theorem move_cancel (s : State H) (t : Task) :
    Move s t (cancel s t).1 (cancel s t).2 := by
  rw [State.cancel]
  split
  · next m hp => exact .cancel (.inl hp)
  · next m hp => exact .cancel (.inr hp)
  · exact .stay

/-- **All that a step can do**: start a call, move one, use the store, or nothing. -/
theorem apply_cases (s : State H) (a : Act) :
    apply s a = s ∨
    (∃ mode hash, apply s a = { s with tasks := s.tasks ++ [serveAddressed mode hash] }) ∨
    (∃ i t s' p, s.tasks[i]? = some t ∧ Move s t s' p ∧ apply s a = s'.setPhase i t p) ∨
    (∃ c, apply s a = { s with cache := s.cache.step c }) := by
  have hon : ∀ (i : ℕ) (f : State H → Task → State H × Phase),
      (∀ t, Move s t (f s t).1 (f s t).2) →
      s.onTask i f = s ∨
        ∃ (j : ℕ) (t : Task) (s' : State H) (p : Phase),
          s.tasks[j]? = some t ∧ Move s t s' p ∧ s.onTask i f = s'.setPhase j t p := by
    intro i f hf
    cases ht : s.tasks[i]? with
    | none => exact .inl (by rw [onTask, ht])
    | some t => exact .inr ⟨i, t, _, _, ht, hf t, by rw [onTask, ht]⟩
  cases a with
  | call mode hash => exact .inr (.inl ⟨mode, hash, rfl⟩)
  | callName catalog mode name =>
    simp only [apply, serveNamePrivate]
    cases catalog.contentHashFor name with
    | some hash => exact .inr (.inl ⟨mode, hash, rfl⟩)
    | none => exact .inl rfl
  | step fault i =>
    exact (hon i (advance fault) (move_advance fault s)).imp_right fun h => .inr (.inl h)
  | reply bytes i =>
    exact (hon i (resume bytes) (move_resume bytes s)).imp_right fun h => .inr (.inl h)
  | cancel i =>
    exact (hon i State.cancel (move_cancel s)).imp_right fun h => .inr (.inl h)
  | cache c => exact .inr (.inr (.inr ⟨c, rfl⟩))

/-! ### The locks

A handle that may still use its lock is a handle on the lock that the map has for the address:
`prune` takes a lock from the map only when no other call has a handle on it.  So the guards of
all calls for an address are guards of one lock. -/

variable {i j : ℕ} {p : Phase} {s : State H} {hash : ContentHash} {t : Task} {m : ℕ}

theorem eq_or_of_getElem?_set {α : Type} {l : List α} {a u : α} (h : (l.set i a)[j]? = some u) :
    (i = j ∧ u = a) ∨ (i ≠ j ∧ l[j]? = some u) := by
  rw [getElem?_set] at h
  by_cases hij : i = j
  · rw [if_pos hij] at h
    split at h
    · exact .inl ⟨hij, (some.inj h).symm⟩
    · cases h
  · rw [if_neg hij] at h
    exact .inr ⟨hij, h⟩

theorem eq_or_of_getElem?_concat {α : Type} {l : List α} {a u : α} (h : (l ++ [a])[j]? = some u) :
    l[j]? = some u ∨ (j = l.length ∧ u = a) := by
  by_cases hj : j < l.length
  · rw [getElem?_append_left hj] at h
    exact .inl h
  · rw [getElem?_append_right (Nat.le_of_not_lt hj), getElem?_singleton] at h
    split at h
    · exact .inr ⟨by omega, (some.inj h).symm⟩
    · cases h

variable {s' : State H} {n k : ℕ} {a : Act}

theorem Move.tasks_eq (h : Move s t s' p) : s'.tasks = s.tasks := by
  cases h <;> rfl

theorem Move.getElem?_self (h : Move s t s' p) (ht : s.tasks[i]? = some t) :
    (s'.setPhase i t p).tasks[i]? = some { t with phase := p } := by
  rw [setPhase, h.tasks_eq, getElem?_set_self (List.getElem?_eq_some_iff.mp ht).1]

theorem countP_eraseIdx {l : List Task} (q : Task → Bool) (ht : l[i]? = some t) :
    l.countP q = (l.eraseIdx i).countP q + if q t then 1 else 0 := by
  obtain ⟨hi, rfl⟩ := List.getElem?_eq_some_iff.mp ht
  rw [← List.countP_cons]
  exact ((List.getElem_cons_eraseIdx_perm hi).countP_eq q).symm

/-- What the locks keep. -/
structure Locking (s : State H) : Prop where
  keyed : ∀ {i : ℕ} {t : Task} {m : ℕ}, s.tasks[i]? = some t → t.phase.key? = some m →
    s.locks.get? t.hash = some m
  sole : ∀ {i j : ℕ} {t u : Task} {m : ℕ}, s.tasks[i]? = some t → s.tasks[j]? = some u →
    t.phase.guard? = some m → u.phase.guard? = some m → i = j

/-- One call at most is under the lock of an address. -/
theorem Locking.eq_of_hash (h : Locking s) {t u : Task} {m : ℕ} (ht : s.tasks[i]? = some t)
    (hu : s.tasks[j]? = some u) (hhash : t.hash = u.hash) (hm : t.phase.guard? = some m)
    (hn : u.phase.guard? = some n) : i = j := by
  have hkt := h.keyed ht (Phase.key?_of_guard? hm)
  have hku := h.keyed hu (Phase.key?_of_guard? hn)
  rw [hhash, hku] at hkt
  cases hkt
  exact h.sole ht hu hm hn

/-- With two handles in all, the map's and the call's own, no other call has one. -/
theorem Locking.no_other (h : Locking s) {t u : Task} {m n : ℕ}
    (hij : i ≠ j) (ht : s.tasks[i]? = some t) (hu : s.tasks[j]? = some u)
    (hm : t.phase.key? = some m) (hn : u.phase.key? = some n) (hcount : s.strongCount m ≤ 2) :
    t.hash ≠ u.hash := by
  intro hhash
  have hkt := h.keyed ht hm
  have hku := h.keyed hu hn
  rw [hhash, hku] at hkt
  cases hkt
  have hrow : 0 < s.locks.rows.countP (·.2 == m) :=
    countP_pos_iff.mpr ⟨_, Dict.mem_rows_iff.mpr hku, by simp⟩
  have hqt : (t.phase.handle? == some m) = true := by simp [Phase.handle?_of_key? hm]
  have hqu : (u.phase.handle? == some m) = true := by simp [Phase.handle?_of_key? hn]
  have hother : 0 < (s.tasks.eraseIdx i).countP (·.phase.handle? == some m) :=
    countP_pos_iff.mpr ⟨u, mem_eraseIdx_iff_getElem?.mpr ⟨j, hij.symm, hu⟩, hqu⟩
  rw [strongCount, countP_eraseIdx _ ht, if_pos hqt] at hcount
  omega

theorem Move.key (h : Move s t s' p)
    (hk : ∀ n, t.phase.key? = some n → s.locks.get? t.hash = some n) (hm : p.key? = some m) :
    s'.locks.get? t.hash = some m := by
  cases h
  case stay => exact hk m hm
  case join _ hlock =>
    cases hm
    exact hlock
  case create _ _ =>
    cases hm
    exact (Dict.get?_set ..).trans (if_pos rfl)
  case insert n bytes fault hp hq =>
    have hmn : m = n := by
      rcases hq with rfl | rfl
      · exact (some.inj hm).symm
      · exact (some.inj hm).symm
    exact hk m (by rw [hp, hmn]; rfl)
  case cancel => cases hm
  all_goals first
    | (cases hm; done)
    | (rename t.phase = _ => hp
       cases hm
       exact hk _ (by rw [hp]; rfl))

theorem Move.key_other {t u : Task} (h : Move s t s' p) (hs : Locking s) (hij : i ≠ j)
    (ht : s.tasks[i]? = some t) (hu : s.tasks[j]? = some u) (hm : u.phase.key? = some m) :
    s'.locks.get? u.hash = some m := by
  have hku := hs.keyed hu hm
  cases h
  case create hp hnone =>
    refine (Dict.get?_set ..).trans ((if_neg ?_).trans hku)
    intro hhash
    rw [hhash, hku] at hnone
    cases hnone
  case prune n v hp hlock hcount =>
    have hne := hs.no_other hij ht hu (by rw [hp]; rfl) hm hcount
    exact (Dict.get?_erase ..).trans ((if_neg hne).trans hku)
  all_goals exact hku

/-- A guard is kept, or taken when the lock is free. -/
theorem Move.guard (h : Move s t s' p) (hm : p.guard? = some m) :
    t.phase.guard? = some m ∨ ∀ u ∈ s.tasks, u.phase.guard? ≠ some m := by
  cases h
  case stay => exact .inl hm
  case acquire n _ hfree =>
    cases hm
    exact .inr hfree
  case insert n bytes fault hp hq =>
    rw [hp]
    rcases hq with rfl | rfl
    · exact .inl hm
    · exact .inl hm
  all_goals first
    | (cases hm; done)
    | (rename t.phase = _ => hp
       exact .inl (by rw [hp]; exact hm))

theorem locking_start (cache : Backed H) : Locking (start cache) where
  keyed h := by simp [start] at h
  sole h := by simp [start] at h

theorem locking_apply (hs : Locking s) (a : Act) : Locking (apply s a) := by
  rcases apply_cases s a with heq | ⟨mode, hash, heq⟩ | ⟨i, t, s', p, ht, hmove, heq⟩ | ⟨c, heq⟩
  · rwa [heq]
  · rw [heq]
    -- a new call has no handle
    constructor
    · intro j u m hu hm
      rcases eq_or_of_getElem?_concat hu with hu | ⟨-, rfl⟩
      · exact hs.keyed hu hm
      · cases hm
    · intro j k u v m hu hv hmu hmv
      rcases eq_or_of_getElem?_concat hu with hu | ⟨-, rfl⟩
      · rcases eq_or_of_getElem?_concat hv with hv | ⟨-, rfl⟩
        · exact hs.sole hu hv hmu hmv
        · cases hmv
      · cases hmu
  · rw [heq]
    have htasks := hmove.tasks_eq
    constructor
    · intro j u m hu hm
      rcases eq_or_of_getElem?_set hu with ⟨rfl, rfl⟩ | ⟨hij, hu⟩
      · exact hmove.key (fun n hn => hs.keyed ht hn) hm
      · rw [htasks] at hu
        exact hmove.key_other hs hij ht hu hm
    · -- the lock that the call takes is free
      have hone : ∀ {j : ℕ} {u : Task} {m : ℕ}, i ≠ j → s.tasks[j]? = some u →
          p.guard? = some m → u.phase.guard? ≠ some m := by
        intro j u m hij hu hp hmu
        rcases hmove.guard hp with hkeep | hfree
        · exact hij (hs.sole ht hu hkeep hmu)
        · exact hfree u (mem_of_getElem? hu) hmu
      intro j k u v m hu hv hmu hmv
      rcases eq_or_of_getElem?_set hu with ⟨rfl, rfl⟩ | ⟨hij, hu⟩
      · rcases eq_or_of_getElem?_set hv with ⟨rfl, rfl⟩ | ⟨hik, hv⟩
        · rfl
        · exact absurd hmv (hone hik (htasks ▸ hv) hmu)
      · rcases eq_or_of_getElem?_set hv with ⟨rfl, rfl⟩ | ⟨hik, hv⟩
        · exact absurd hmu (hone hij (htasks ▸ hu) hmv)
        · exact hs.sole (htasks ▸ hu) (htasks ▸ hv) hmu hmv
  · rw [heq]
    exact ⟨hs.keyed, hs.sole⟩

/-! ### Deliveries -/

theorem Move.store_extends (h : Move s t s' p) : s.cache.store.Extends s'.cache.store := by
  cases h
  case insert m bytes fault hp hq => exact (s.cache.grows_step (.insert fault t.hash bytes)).1
  all_goals exact .refl _

theorem store_extends_apply (s : State H) (a : Act) :
    s.cache.store.Extends (apply s a).cache.store := by
  rcases apply_cases s a with heq | ⟨mode, hash, heq⟩ | ⟨i, t, s', p, ht, hmove, heq⟩ | ⟨c, heq⟩
  · rw [heq]
    exact .refl _
  · rw [heq]
    exact .refl _
  · rw [heq]
    exact hmove.store_extends
  · rw [heq]
    exact (s.cache.grows_step c).1

/-- The insert of delivered bytes is admitted: the asset is there, or it has a legal size, there
is room, and the write meets no fault. -/
def Admits (s : State H) : Act → Prop
  | .step fault i => ∀ t m bytes, s.tasks[i]? = some t → t.phase = .fetched m bytes →
      H bytes = t.hash → s.cache.store.contains t.hash = true ∨
        (bytes.length ≤ maxAssetBytes ∧ s.cache.store.len < s.cache.store.capacity ∧
          (s.cache.store.dir = none ∨ fault = none))
  | _ => True

/-- The call holds bytes that were delivered and are not in the store yet. -/
def InHand (s : State H) (hash : ContentHash) : Prop :=
  ∃ (i : ℕ) (t : Task) (m : ℕ) (bytes : Bytes), s.tasks[i]? = some t ∧ t.hash = hash ∧
    t.phase = .fetched m bytes ∧ H bytes = hash

/-- Delivered bytes stay in hand until an admitted insert puts them in the store. -/
theorem inHand_apply (hadm : Admits s a) (h : InHand s hash) :
    InHand (apply s a) hash ∨ (apply s a).cache.store.contains hash = true := by
  obtain ⟨i, t, m, bytes, ht, rfl, hp, hbytes⟩ := h
  -- a step of another call, or one that leaves this call where it is
  have hkeep : ∀ (j : ℕ) (f : State H → Task → State H × Phase),
      (∀ u, (f s u).1.tasks = s.tasks) → (j = i → (f s t).2 = t.phase) →
      InHand (s.onTask j f) t.hash := by
    intro j f htasks hf
    refine ⟨i, t, m, bytes, ?_, rfl, hp, hbytes⟩
    rw [onTask]
    cases hu : s.tasks[j]? with
    | none => exact ht
    | some u =>
      dsimp only
      rw [setPhase, htasks, List.getElem?_set]
      by_cases hij : j = i
      · subst hij
        rw [ht] at hu
        cases hu
        rw [if_pos rfl, if_pos (List.getElem?_eq_some_iff.mp ht).1, hf rfl]
      · rw [if_neg hij]
        exact ht
  have hcall : ∀ u : Task, InHand { s with tasks := s.tasks ++ [u] } t.hash := by
    intro u
    refine ⟨i, t, m, bytes, ?_, rfl, hp, hbytes⟩
    exact (List.getElem?_append_left (List.getElem?_eq_some_iff.mp ht).1).trans ht
  cases a with
  | call mode hash => exact .inl (hcall _)
  | callName catalog mode name =>
    rw [apply]
    split
    · exact .inl (hcall _)
    · exact .inl ⟨i, t, m, bytes, ht, rfl, hp, hbytes⟩
  | reply r j =>
    refine .inl (hkeep j _ (fun u => (move_resume r s u).tasks_eq) fun _ => ?_)
    rw [resume, hp]
  | cancel j =>
    refine .inl (hkeep j _ (fun u => (move_cancel s u).tasks_eq) fun _ => ?_)
    rw [State.cancel, hp]
  | cache c => exact .inl ⟨i, t, m, bytes, ht, rfl, hp, hbytes⟩
  | step fault j =>
    by_cases hij : j = i
    · subst hij
      refine .inr ?_
      have hcache : (apply s (.step fault j)).cache =
          (s.cache.insertVerified fault t.hash bytes).2 := by
        rw [apply, onTask, ht]
        simp only [setPhase, advance, hp]
      rw [hcache]
      exact Backed.contains_insertVerified hbytes (hadm t m bytes ht hp hbytes)
    · exact .inl (hkeep j _ (fun u => (move_advance fault s u).tasks_eq) fun h => absurd h hij)

/-- What the log keeps while every delivery is admitted. -/
structure Once (s : State H) : Prop where
  kept : ∀ hash, .delivered hash ∈ s.log → s.cache.store.contains hash = true ∨ InHand s hash
  pending : ∀ {i : ℕ} {t : Task} {m : ℕ}, s.tasks[i]? = some t → t.phase = .fetching m →
    .delivered t.hash ∉ s.log
  once : ∀ hash, s.log.count (.delivered hash) ≤ 1

theorem once_start (cache : Backed H) : Once (start cache) where
  kept hash h := by simp [start] at h
  pending h := by simp [start] at h
  once hash := by simp [start]

/-- A call that is under the lock and finds nothing in the store is the first to fetch after
every delivery: nothing was delivered. -/
theorem Once.not_delivered (h : Once s) (hl : Locking s) {i : ℕ}
    (ht : s.tasks[i]? = some t) (hp : t.phase = .locked m)
    (hget : s.cache.store.get t.hash = none) : .delivered t.hash ∉ s.log := by
  intro hmem
  rcases h.kept _ hmem with hin | ⟨j, u, n, bytes, hu, hhash, hpu, -⟩
  · rw [contains_eq_false_iff.mpr hget] at hin
    cases hin
  have hij := hl.eq_of_hash ht hu hhash.symm (by rw [hp]; rfl) (by rw [hpu]; rfl)
  subst hij
  rw [ht] at hu
  cases hu
  rw [hp] at hpu
  cases hpu

theorem Move.log_cases (h : Move s t s' p) :
    s'.log = s.log ∨
    (∃ m, t.phase = .locked m ∧ s.cache.store.get t.hash = none ∧
      s'.log = .fetchStarted t.hash :: s.log) ∨
    (∃ m bytes, t.phase = .fetching m ∧ p = .fetched m bytes ∧ H bytes = t.hash ∧
      s'.log = .delivered t.hash :: s.log) := by
  cases h
  case fetch m hp hget => exact .inr (.inl ⟨m, hp, hget, rfl⟩)
  case deliver m bytes hp hhash => exact .inr (.inr ⟨m, bytes, hp, rfl, hhash, rfl⟩)
  all_goals exact .inl rfl

/-- No fetch starts for an address that a call under the lock finds in the store. -/
theorem Move.started_eq (h : Move s t s' p)
    (hget : ∀ m, t.phase = .locked m → t.hash = hash → s.cache.store.get t.hash ≠ none) :
    s'.log.count (.fetchStarted hash) = s.log.count (.fetchStarted hash) := by
  rcases h.log_cases with hlog | ⟨m, hp, hnone, hlog⟩ | ⟨m, bytes, -, -, -, hlog⟩
  · rw [hlog]
  · have hne : t.hash ≠ hash := fun hhash => hget m hp hhash hnone
    rw [hlog, count_cons_of_ne (by simpa using hne)]
  · rw [hlog, count_cons_of_ne (by simp)]

theorem Move.delivered_of_mem (h : Move s t s' p) (hmem : .delivered hash ∈ s'.log) :
    .delivered hash ∈ s.log ∨ ∃ m bytes, t.phase = .fetching m ∧ p = .fetched m bytes ∧
      H bytes = t.hash ∧ t.hash = hash := by
  rcases h.log_cases with hlog | ⟨m, -, -, hlog⟩ | ⟨m, bytes, hp, hq, hbytes, hlog⟩
  · exact .inl (hlog ▸ hmem)
  · rw [hlog] at hmem
    exact .inl (by simpa using hmem)
  · rw [hlog] at hmem
    rcases mem_cons.mp hmem with hnew | hold
    · exact .inr ⟨m, bytes, hp, hq, hbytes, (Event.delivered.inj hnew).symm⟩
    · exact .inl hold

/-- Fetching starts from under the lock, with nothing in the store. -/
theorem Move.to_fetching (h : Move s t s' p) (hq : p = .fetching m) :
    (t.phase = .fetching m ∧ s' = s) ∨
    (t.phase = .locked m ∧ s.cache.store.get t.hash = none ∧
      s'.log = .fetchStarted t.hash :: s.log) := by
  cases h
  case stay => exact .inl ⟨hq, rfl⟩
  case fetch n hp hget =>
    cases hq
    exact .inr ⟨hp, hget, rfl⟩
  case insert n bytes fault hp hor => rcases hor with rfl | rfl <;> cases hq
  all_goals cases hq

theorem once_apply (hl : Locking s) (h : Once s) (hadm : Admits s a) : Once (apply s a) := by
  -- bytes delivered before are still in hand or in the store
  have hkept : ∀ hash, .delivered hash ∈ s.log →
      (apply s a).cache.store.contains hash = true ∨ InHand (apply s a) hash := by
    intro hash hmem
    rcases h.kept hash hmem with hin | hhand
    · obtain ⟨e, he⟩ := isSome_iff_exists.mp hin
      exact .inl (isSome_of_eq_some (store_extends_apply s a hash e he))
    · exact (inHand_apply hadm hhand).symm
  rcases apply_cases s a with heq | ⟨mode, hash, heq⟩ | ⟨i, t, s', p, ht, hmove, heq⟩ | ⟨c, heq⟩
  · rwa [heq]
  · rw [heq] at hkept ⊢
    refine ⟨hkept, ?_, h.once⟩
    intro j u m hu hp
    rcases eq_or_of_getElem?_concat hu with hu | ⟨-, rfl⟩
    · exact h.pending hu hp
    · cases hp
  · rw [heq] at hkept ⊢
    have htasks := hmove.tasks_eq
    -- no other call for an address is fetching while one is under its lock
    have halone : ∀ {j : ℕ} {u : Task} {m n : ℕ}, i ≠ j → s.tasks[j]? = some u →
        u.phase = .fetching n → t.phase.guard? = some m → t.hash ≠ u.hash := by
      intro j u m n hij hu hp hm hhash
      exact hij (hl.eq_of_hash ht hu hhash hm (by rw [hp]; rfl))
    refine ⟨?_, ?_, ?_⟩
    · intro hash hmem
      rcases hmove.delivered_of_mem hmem with hold | ⟨m, bytes, -, rfl, hbytes, rfl⟩
      · exact hkept hash hold
      · exact .inr ⟨i, _, m, bytes, hmove.getElem?_self ht, rfl, rfl, hbytes⟩
    · intro j u n hu hpu hmem
      rcases eq_or_of_getElem?_set hu with ⟨rfl, rfl⟩ | ⟨hij, hu'⟩
      · rcases hmove.to_fetching hpu with ⟨hp, rfl⟩ | ⟨hp, hget, hlog⟩
        · exact h.pending ht hp hmem
        · have hold : .delivered t.hash ∈ s.log := by
            have hcons : .delivered t.hash ∈ s'.log := hmem
            rw [hlog] at hcons
            simpa using hcons
          exact h.not_delivered hl ht hp hget hold
      · rw [htasks] at hu'
        rcases hmove.delivered_of_mem hmem with hold | ⟨m, bytes, hp, -, -, hhash⟩
        · exact h.pending hu' hpu hold
        · exact halone (m := m) hij hu' hpu (by rw [hp]; rfl) hhash
    · intro hash
      rcases hmove.log_cases with hlog | ⟨m, -, -, hlog⟩ | ⟨m, bytes, hp, rfl, hbytes, hlog⟩
      · rw [setPhase, hlog]
        exact h.once hash
      · rw [setPhase, hlog, count_cons_of_ne (by simp)]
        exact h.once hash
      · rw [setPhase, hlog]
        by_cases hhash : t.hash = hash
        · subst hhash
          rw [count_cons_self, count_eq_zero.mpr (h.pending ht hp)]
        · rw [count_cons_of_ne (by simpa using hhash)]
          exact h.once hash
  · rw [heq] at hkept ⊢
    exact ⟨hkept, h.pending, h.once⟩

/-! ### Later calls -/

/-- The call has not fetched and will not: it stands where the store is still to be read, or has
its answer, which is an entry of the store, or nothing in the strict mode. -/
def Task.FromStore (store : CacheStore H) (t : Task) : Prop :=
  match t.phase with
  | .entering | .slotting | .waiting _ | .locked _ | .cancelled => True
  | .fetching _ | .fetched _ _ | .stored _ => False
  | .unlocking _ v | .pruning _ v | .leaving _ v | .done v =>
    (∃ e, store.get t.hash = some e ∧ v = .servedLocal e.bytes) ∨
      (t.mode = .blockMissing ∧ v = .blockedMissing)

theorem Task.FromStore.extends {store store' : CacheStore H} (h : t.FromStore store)
    (hext : store.Extends store') : t.FromStore store' := by
  have hanswer : ∀ v : ServeVerdict, (∃ e, store.get t.hash = some e ∧ v = .servedLocal e.bytes) ∨
      (t.mode = .blockMissing ∧ v = .blockedMissing) →
      (∃ e, store'.get t.hash = some e ∧ v = .servedLocal e.bytes) ∨
        (t.mode = .blockMissing ∧ v = .blockedMissing) := by
    rintro v (⟨e, he, hv⟩ | hv)
    · exact .inl ⟨e, hext _ e he, hv⟩
    · exact .inr hv
  unfold FromStore at h ⊢
  split at h
  all_goals first
    | trivial
    | exact h.elim
    | exact hanswer _ h

/-- A call that has not fetched goes on from the store, unless it finds nothing under the lock. -/
theorem Move.fromStore (h : Move s t s' p) (ht : t.FromStore s.cache.store)
    (hlocked : ∀ m, t.phase = .locked m → s.cache.store.get t.hash ≠ none) :
    Task.FromStore s'.cache.store { t with phase := p } := by
  cases h
  case stay => exact ht
  case hit e hp hget => exact .inl ⟨e, hget, rfl⟩
  case recheck m e hp hget => exact .inl ⟨e, hget, rfl⟩
  case block hp hget hmode => exact .inr ⟨hmode, rfl⟩
  case fetch m hp hget => exact (hlocked m hp hget).elim
  all_goals first
    | trivial
    | (rename t.phase = _ => hp
       rw [Task.FromStore, hp] at ht
       exact ht)
    | (rename t.phase = _ => hp
       rw [Task.FromStore, hp] at ht
       exact ht.elim)

/-- The address was delivered, no fetch for it has started since, and the calls from the `n`th on
live from the store. -/
structure Later (hash : ContentHash) (n started : ℕ) (s : State H) : Prop where
  delivered : .delivered hash ∈ s.log
  started_eq : s.log.count (.fetchStarted hash) = started
  fromStore : ∀ (i : ℕ) (t : Task), n ≤ i → s.tasks[i]? = some t → t.hash = hash →
    t.FromStore s.cache.store

theorem later_apply {started : ℕ} (hl : Locking s) (ho : Once s) (h : Later hash n started s)
    (a : Act) : Later hash n started (apply s a) := by
  -- whoever is under the lock finds the asset
  have hlocked : ∀ {i : ℕ} {t : Task}, s.tasks[i]? = some t → t.hash = hash → ∀ m,
      t.phase = .locked m → s.cache.store.get t.hash ≠ none := by
    rintro i t ht rfl m hp hget
    exact ho.not_delivered hl ht hp hget h.delivered
  rcases apply_cases s a with heq | ⟨mode, hash', heq⟩ | ⟨i, t, s', p, ht, hmove, heq⟩ | ⟨c, heq⟩
  · rwa [heq]
  · rw [heq]
    refine ⟨h.delivered, h.started_eq, fun j u hj hu hhash => ?_⟩
    rcases eq_or_of_getElem?_concat hu with hu | ⟨-, rfl⟩
    · exact h.fromStore j u hj hu hhash
    · trivial
  · rw [heq]
    refine ⟨?_, ?_, ?_⟩
    · rcases hmove.log_cases with hlog | ⟨m, -, -, hlog⟩ | ⟨m, bytes, -, -, -, hlog⟩
      · rw [setPhase, hlog]
        exact h.delivered
      · rw [setPhase, hlog]
        exact mem_cons_of_mem _ h.delivered
      · rw [setPhase, hlog]
        exact mem_cons_of_mem _ h.delivered
    · exact (hmove.started_eq fun m hp hhash => hlocked ht hhash m hp).trans h.started_eq
    · intro j u hj hu hhash
      rcases eq_or_of_getElem?_set hu with ⟨rfl, rfl⟩ | ⟨hij, hu'⟩
      · exact hmove.fromStore (h.fromStore i t hj ht hhash) (hlocked ht hhash)
      · rw [hmove.tasks_eq] at hu'
        exact (h.fromStore j u hj hu' hhash).extends hmove.store_extends
  · rw [heq]
    refine ⟨h.delivered, h.started_eq, fun j u hj hu hhash => ?_⟩
    exact (h.fromStore j u hj hu hhash).extends (s.cache.grows_step c).1

/-! ### Whole runs -/

theorem locking_run (cache : Backed H) (acts : List Act) : Locking (run (start cache) acts) := by
  exact foldl_invariant (I := Locking) (fun s a hs => locking_apply hs a) acts (locking_start cache)

theorem once_run {acts : List Act} (hs : Locking s ∧ Once s)
    (hadm : Along apply Admits s acts) : Locking (run s acts) ∧ Once (run s acts) :=
  hadm.invariant (I := fun s => Locking s ∧ Once s)
    (fun _ a h ha => ⟨locking_apply h.1 a, once_apply h.1 h.2 ha⟩) hs

theorem later_run {acts : List Act} {started : ℕ} (hs : Locking s ∧ Once s)
    (h : Later hash n started s) (hadm : Along apply Admits s acts) :
    Later hash n started (run s acts) :=
  (hadm.invariant (I := fun s => (Locking s ∧ Once s) ∧ Later hash n started s)
    (fun _ a h ha => ⟨⟨locking_apply h.1.1 a, once_apply h.1.1 h.1.2 ha⟩,
      later_apply h.1.1 h.1.2 h.2 a⟩) ⟨hs, h⟩).2

/-- A call for an asset that is in the store is answered at its first access, and changes nothing
else. -/
theorem run_call_of_get {e : CacheEntry H}
    (hget : s.cache.store.get hash = some e) (mode : CacheMode) (fault : Option IoFault) :
    run s [.call mode hash, .step fault s.tasks.length] =
      { s with tasks := s.tasks ++ [⟨mode, hash, .done (.servedLocal e.bytes)⟩] } := by
  have hlast : (s.tasks ++ [serveAddressed mode hash])[s.tasks.length]? =
      some (serveAddressed mode hash) := getElem?_concat_length ..
  simp only [run, foldl_cons, foldl_nil, apply, onTask, hlast]
  simp [advance, serveAddressed, cacheGet, hget, setPhase]

/-- **One delivery for an asset.**  In every run whose deliveries are admitted by the store, an
address is delivered at most once.  After the delivery no fetch for it starts; the asset is in the
store or in the hands of the call that inserts it next; every later call for the address lives
from the store; and a call that comes when the asset is there is answered at once. -/
theorem asset_delivered_once (cache : Backed H) (acts : List Act)
    (hadm : Along apply Admits (start cache) acts) (hash : ContentHash) :
    (run (start cache) acts).log.count (.delivered hash) ≤ 1 ∧
    (∀ pre post, acts = pre ++ post → .delivered hash ∈ (run (start cache) pre).log →
      (run (start cache) acts).log.count (.fetchStarted hash) =
        (run (start cache) pre).log.count (.fetchStarted hash) ∧
      ((run (start cache) acts).cache.store.contains hash = true ∨
        InHand (run (start cache) acts) hash) ∧
      ∀ (i : ℕ) (t : Task), (run (start cache) pre).tasks.length ≤ i →
        (run (start cache) acts).tasks[i]? = some t → t.hash = hash →
        t.FromStore (run (start cache) acts).cache.store) ∧
    ∀ e, (run (start cache) acts).cache.store.get hash = some e → ∀ mode fault,
      let s := run (start cache) acts
      run s [.call mode hash, .step fault s.tasks.length] =
        { s with tasks := s.tasks ++ [⟨mode, hash, .done (.servedLocal e.bytes)⟩] } := by
  have hstart := And.intro (locking_start cache) (once_start cache)
  have hall := once_run hstart hadm
  refine ⟨hall.2.once hash, ?_, fun e he mode fault => run_call_of_get he mode fault⟩
  rintro pre post rfl hmem
  obtain ⟨hpre, hpost⟩ := along_append.mp hadm
  have hbefore : Later hash (run (start cache) pre).tasks.length
      ((run (start cache) pre).log.count (.fetchStarted hash)) (run (start cache) pre) := by
    refine ⟨hmem, rfl, fun i t hi ht _ => ?_⟩
    exact absurd (List.getElem?_eq_some_iff.mp ht).1 (Nat.not_lt_of_le hi)
  have hlater := later_run (once_run hstart hpre) hbefore hpost
  rw [← run_append] at hlater
  exact ⟨hlater.started_eq, hall.2.kept hash hlater.delivered, hlater.fromStore⟩

/-! ### The strict mode -/

/-- Every call is in the strict mode and has not gone past the first look at the store. -/
def Strict (s : State H) : Prop :=
  ∀ t ∈ s.tasks, t.mode = .blockMissing ∧ (t.phase = .entering ∨ ∃ v, t.phase = .done v)

theorem Move.strict (h : Move s t s' p) (hmode : t.mode = .blockMissing)
    (hp : t.phase = .entering ∨ ∃ v, t.phase = .done v) :
    s'.log = s.log ∧ (p = .entering ∨ ∃ v, p = .done v) := by
  cases h
  case stay => exact ⟨rfl, hp⟩
  case hit e _ _ => exact ⟨rfl, .inr ⟨_, rfl⟩⟩
  case block _ _ _ => exact ⟨rfl, .inr ⟨_, rfl⟩⟩
  case miss _ _ hleak =>
    rw [hmode] at hleak
    cases hleak
  case leave => exact ⟨rfl, .inr ⟨_, rfl⟩⟩
  case cancel m h =>
    rcases h with h | h <;> rcases hp with hp | ⟨v, hp⟩ <;> rw [hp] at h <;> cases h
  all_goals
    rename t.phase = _ => h
    rcases hp with hp | ⟨v, hp⟩ <;> rw [hp] at h <;> cases h

/-- A new call has the mode of the context. -/
def Act.InMode (fetch : Option CacheMode) : Act → Prop
  | .call mode _ => fetch = some mode
  | .callName _ _ _ => False
  | _ => True

theorem strict_apply (hs : Strict s) (hmode : a.InMode (some .blockMissing)) :
    Strict (apply s a) ∧ (apply s a).log = s.log := by
  have hon : ∀ {i f}, (∀ t, Move s t (f s t).1 (f s t).2) →
      Strict (s.onTask i f) ∧ (s.onTask i f).log = s.log := by
    intro i f hf
    rw [onTask]
    cases ht : s.tasks[i]? with
    | none => exact ⟨hs, rfl⟩
    | some t =>
      obtain ⟨hblock, hp⟩ := hs t (mem_of_getElem? ht)
      obtain ⟨hlog, hp'⟩ := (hf t).strict hblock hp
      refine ⟨fun u hu => ?_, hlog⟩
      change u ∈ (f s t).1.tasks.set i _ at hu
      rw [(hf t).tasks_eq] at hu
      rcases mem_or_eq_of_mem_set hu with hu | rfl
      · exact hs u hu
      · exact ⟨hblock, hp'⟩
  cases a with
  | call mode hash =>
    obtain rfl := some.inj hmode
    refine ⟨fun t ht => ?_, rfl⟩
    rcases mem_append.mp ht with ht | ht
    · exact hs t ht
    · rw [mem_singleton.mp ht]
      exact ⟨rfl, .inl rfl⟩
  | callName catalog mode name => exact hmode.elim
  | cache c => exact ⟨hs, rfl⟩
  | step fault i => exact hon (move_advance fault s)
  | reply bytes i => exact hon (move_resume bytes s)
  | cancel i => exact hon (move_cancel s)

/-! ### A full store

The catalog may have a hundred thousand assets and the store holds 1024.  When it is full, an asset
that is delivered is not kept, and the next call for it fetches it again. -/

/-- The acts are calls by name in the default mode, and what the calls and the upstream do. -/
def Act.Serves (catalog : Catalog) : Act → Prop
  | .callName c mode _ => c = catalog ∧ mode = .leakOnMiss
  | .call _ _ | .cache _ => False
  | _ => True

/-- One call by name with a reply, alone, from its start to its end. -/
def serveAlone (catalog : Catalog) (name : Str) (bytes : Bytes) (i : ℕ) : List Act :=
  .callName catalog .leakOnMiss name :: (List.replicate 4 (.step none i) ++
    .reply (some bytes) i :: List.replicate 5 (.step none i))

theorem serves_serveAlone (catalog : Catalog) (name : Str) (bytes : Bytes) (i : ℕ) :
    ∀ a ∈ serveAlone catalog name bytes i, a.Serves catalog := by
  simp [serveAlone, Act.Serves]

namespace State

def push (s : State H) (t : Task) : State H := { s with tasks := s.tasks ++ [t] }

/-- No call has a handle, and the map has no lock. -/
structure Quiet (s : State H) : Prop where
  locks_eq : s.locks = .empty
  handle : ∀ t ∈ s.tasks, t.phase.handle? = none

theorem onTask_push {s r : State H} {t : Task} {p : Phase}
    {f : State H → Task → State H × Phase} (hf : f (s.push t) t = (r.push t, p))
    (htasks : r.tasks = s.tasks) :
    (s.push t).onTask s.tasks.length f = r.push { t with phase := p } := by
  have hlast : (s.push t).tasks[s.tasks.length]? = some t := getElem?_concat_length ..
  rw [onTask, hlast]
  simp only [hf]
  simp [setPhase, push, ← htasks]

end State

theorem run_step {r : State H} (hadv : advance none (s.push t) t = (r.push t, p))
    (htasks : r.tasks = s.tasks) (k : ℕ) :
    run (s.push t) (replicate (k + 1) (.step none s.tasks.length)) =
      run (r.push { t with phase := p }) (replicate k (.step none r.tasks.length)) := by
  rw [replicate, run, foldl_cons, apply, onTask_push hadv htasks, htasks, run]

/-- The state in which a call alone waits for its fetch. -/
def State.asked (s : State H) (hash : ContentHash) : State H :=
  { s with
    locks := Dict.empty.set hash s.fresh
    fresh := s.fresh + 1
    log := .fetchStarted hash :: s.log }

/-- A call alone for an asset that is not there starts a fetch. -/
theorem run_to_fetch (hs : s.Quiet) (hget : s.cache.store.get hash = none) :
    run (s.push (serveAddressed .leakOnMiss hash)) (List.replicate 4 (.step none s.tasks.length)) =
      (s.asked hash).push ⟨.leakOnMiss, hash, .fetching s.fresh⟩ := by
  let locked : State H := { s with locks := Dict.empty.set hash s.fresh, fresh := s.fresh + 1 }
  have hfree : ∀ u ∈ s.tasks, u.phase.guard? ≠ some s.fresh := by
    intro u hu hguard
    have hhandle := Phase.handle?_of_key? (Phase.key?_of_guard? hguard)
    rw [hs.handle u hu] at hhandle
    cases hhandle
  rw [run_step (r := s) (p := .slotting)
      (by simp [advance, serveAddressed, push, cacheGet, hget]) rfl,
    run_step (s := s) (r := locked) (p := .waiting s.fresh)
      (by simp [advance, serveAddressed, push, slot, locked, hs.locks_eq]) rfl,
    run_step (s := locked) (r := locked) (p := .locked s.fresh)
      (by simpa [advance, serveAddressed, push, locked, Phase.guard?] using hfree) rfl,
    run_step (s := locked) (r := s.asked hash) (p := .fetching s.fresh)
      (by simp [advance, serveAddressed, push, cacheGet, hget, locked, asked]) rfl]
  rfl

/-- A call alone that leaves its lock takes it out of the map. -/
theorem run_from_unlock
    (hlocks : s.locks = Dict.empty.set hash m) (hs : ∀ t ∈ s.tasks, t.phase.handle? = none)
    (v : ServeVerdict) :
    run (s.push ⟨.leakOnMiss, hash, .unlocking m v⟩)
      (List.replicate 3 (.step none s.tasks.length)) =
      { s with locks := .empty }.push ⟨.leakOnMiss, hash, .done v⟩ := by
  have hcount : (s.push ⟨.leakOnMiss, hash, .pruning m v⟩).strongCount m ≤ 2 := by
    have hothers : s.tasks.countP (·.phase.handle? == some m) = 0 := by
      rw [countP_eq_zero]
      intro u hu
      simp [hs u hu]
    have hself : (Phase.pruning m v).handle? = some m := rfl
    simp [strongCount, push, hothers, hlocks, hself, Dict.set, Dict.empty, assocSet]
  have hprune : advance none (s.push ⟨.leakOnMiss, hash, .pruning m v⟩)
      ⟨.leakOnMiss, hash, .pruning m v⟩ =
      ({ s with locks := .empty }.push ⟨.leakOnMiss, hash, .pruning m v⟩, .leaving m v) := by
    have hmap : (s.push ⟨.leakOnMiss, hash, .pruning m v⟩).locks.get? hash = some m :=
      (congrArg (·.get? hash) hlocks).trans ((Dict.get?_set ..).trans (if_pos rfl))
    simp only [advance, State.prune, hmap, hcount, and_self, if_true]
    simp [push, hlocks, Dict.set, Dict.erase, Dict.empty, assocSet, assocErase]
  rw [run_step (r := s) (p := .pruning m v) rfl rfl, run_step (s := s) hprune rfl,
    run_step (s := { s with locks := .empty }) (p := .done v) rfl rfl]
  rfl

/-- A call alone for an asset that is not there: one fetch, one delivery, one insert. -/
theorem run_serveAlone (hs : s.Quiet) {catalog : Catalog} {name : Str}
    {bytes : Bytes} (hname : catalog.contentHashFor name = some hash)
    (hget : s.cache.store.get hash = none) (hbytes : H bytes = hash) :
    ∃ v fresh, run s (serveAlone catalog name bytes s.tasks.length) =
      (⟨(s.cache.insertVerified none hash bytes).2, .empty, fresh, s.tasks,
        .delivered hash :: .fetchStarted hash :: s.log⟩ : State H).push
        ⟨.leakOnMiss, hash, .done v⟩ := by
  let answered : State H := { s.asked hash with log := .delivered hash :: (s.asked hash).log }
  let filled : State H := { answered with cache := (s.cache.insertVerified none hash bytes).2 }
  have hcall : apply s (.callName catalog .leakOnMiss name) =
      s.push (serveAddressed .leakOnMiss hash) := by
    simp only [apply, serveNamePrivate, hname]
    rfl
  have hreply : apply ((s.asked hash).push ⟨.leakOnMiss, hash, .fetching s.fresh⟩)
      (.reply (some bytes) s.tasks.length) =
      answered.push ⟨.leakOnMiss, hash, .fetched s.fresh bytes⟩ :=
    onTask_push (s := s.asked hash) (by simp [resume, push, hbytes, answered]) rfl
  -- the insert is admitted or refused; the call leaves its lock either way
  have hinsert : ∃ v, run (answered.push ⟨.leakOnMiss, hash, .fetched s.fresh bytes⟩)
      (replicate 5 (.step none s.tasks.length)) =
      { filled with locks := .empty }.push ⟨.leakOnMiss, hash, .done v⟩ := by
    have hunlock := run_from_unlock (s := filled) (m := s.fresh) rfl hs.handle
    by_cases hok : (s.cache.insertVerified none hash bytes).1.isSome = true
    · have hstore := run_step (s := answered) (r := filled) (p := .stored s.fresh)
        (t := ⟨.leakOnMiss, hash, .fetched s.fresh bytes⟩)
        (by simp [advance, push, answered, filled, asked, hok]) rfl 4
      cases hgot : (filled.push ⟨.leakOnMiss, hash, .stored s.fresh⟩).cacheGet hash with
      | some b =>
        refine ⟨.leakedThenServed b, hstore.trans (.trans ?_ (hunlock _))⟩
        exact run_step (by simp only [advance, hgot]) rfl 3
      | none =>
        refine ⟨.fetchFailed, hstore.trans (.trans ?_ (hunlock _))⟩
        exact run_step (by simp only [advance, hgot]) rfl 3
    · have hrefuse := run_step (s := answered) (r := filled)
        (t := ⟨.leakOnMiss, hash, .fetched s.fresh bytes⟩) (p := .unlocking s.fresh .fetchFailed)
        (by simp [advance, push, answered, filled, asked, hok]) rfl 4
      refine ⟨.fetchFailed, hrefuse.trans ?_⟩
      rw [replicate_succ', run_append]
      refine (congrArg (run · _) (hunlock .fetchFailed)).trans ?_
      exact run_step (s := { filled with locks := .empty }) rfl rfl 0
  obtain ⟨v, hinsert⟩ := hinsert
  refine ⟨v, s.fresh + 1, ?_⟩
  rw [run, serveAlone, foldl_cons, hcall, foldl_append]
  have hfetch := run_to_fetch hs hget
  rw [run] at hfetch hinsert
  rw [hfetch, foldl_cons, hreply, hinsert]
  rfl

/-- An address that begins with the asset. -/
def padHash (bytes : Bytes) : ContentHash :=
  ⟨(bytes ++ List.replicate 32 0).take 32, by simp⟩

/-- Asset `k`, and its name. -/
def assetBytes (k : ℕ) : Bytes := [UInt8.ofNat (k / 128), UInt8.ofNat (k % 128)]

def assetHash (k : ℕ) : ContentHash := padHash (assetBytes k)

theorem assetBytes_inj {j : ℕ} (hj : j ≤ maxEntries) (hk : k ≤ maxEntries)
    (h : assetBytes j = assetBytes k) : j = k := by
  rw [maxEntries] at hj hk
  obtain ⟨hdiv, hmod⟩ : UInt8.ofNat (j / 128) = UInt8.ofNat (k / 128) ∧
      UInt8.ofNat (j % 128) = UInt8.ofNat (k % 128) := by simpa [assetBytes] using h
  have hdiv := congrArg UInt8.toNat hdiv
  have hmod := congrArg UInt8.toNat hmod
  simp only [UInt8.toNat_ofNat'] at hdiv hmod
  omega

theorem assetHash_inj {j : ℕ} (hj : j ≤ maxEntries) (hk : k ≤ maxEntries)
    (h : assetHash j = assetHash k) : j = k := by
  refine assetBytes_inj hj hk ?_
  have htake := congrArg (fun hash => hash.bytes.take 2) h
  simpa [assetHash, padHash, assetBytes, take_append] using htake

theorem ascii_assetBytes (hk : k ≤ maxEntries) : Ascii (assetBytes k) := by
  rw [maxEntries] at hk
  intro b hb
  rcases mem_pair.mp hb with rfl | rfl
  · rw [UInt8.toNat_ofNat']
    omega
  · rw [UInt8.toNat_ofNat']
    omega

/-- The first `n` assets. -/
def assetEntries (n : ℕ) : List CatalogEntry :=
  (List.range n).map fun k => asciiEntry (assetHash k) (assetBytes k) [0x61]

def assetCatalog (n : ℕ) : Catalog := ⟨(assetEntries n).map CatalogEntry.normalized, 0⟩

/-- One asset more than the store holds. -/
def wideCatalog : Catalog := assetCatalog (maxEntries + 1)

theorem parseBody_assetCatalog (hn : n ≤ maxEntries + 1) :
    Catalog.parseBody (encodeCatalog (assetEntries n) 0) = .ok (assetCatalog n) := by
  have hlen : (assetEntries n).length = n := by simp [assetEntries]
  rw [maxEntries] at hn
  refine parseBody_encodeCatalog_eq_ok_iff.mpr ⟨assetEntries n, ?_, ?_, ?_, rfl, rfl⟩
  · intro e he
    obtain ⟨k, hk, rfl⟩ := mem_map.mp he
    rw [mem_range] at hk
    exact inBounds_asciiEntry (ascii_assetBytes (by rw [maxEntries]; omega)) (by decide)
      (by simp [assetBytes, Catalog.maxNameBytes]) (by decide)
  · omega
  · rw [hlen, Catalog.maxEntries]
    omega

theorem contentHashFor_assetCatalog (hn : n ≤ maxEntries + 1) (hk : k < n) :
    (assetCatalog n).contentHashFor (asciiText (assetBytes k)) = some (assetHash k) := by
  have hmem : (asciiEntry (assetHash k) (assetBytes k) [0x61]).normalized ∈
      (assetCatalog n).entries :=
    mem_map_of_mem (mem_map.mpr ⟨k, mem_range.mpr hk, rfl⟩)
  rw [Catalog.contentHashFor]
  cases hfind : (assetCatalog n).entries.find? fun e => e.name = asciiText (assetBytes k) with
  | none =>
    have hnone := find?_eq_none.mp hfind _ hmem
    exact absurd rfl (of_decide_eq_false (Bool.eq_false_iff.mpr hnone))
  | some e =>
    obtain ⟨e', he', rfl⟩ := mem_map.mp (mem_of_find?_eq_some hfind)
    obtain ⟨j, hj, rfl⟩ := mem_map.mp he'
    have hj : j ≤ maxEntries := by
      have := mem_range.mp hj
      omega
    have hk : k ≤ maxEntries := by omega
    have hname : asciiText (assetBytes j) = asciiText (assetBytes k) :=
      of_decide_eq_true (find?_some hfind :)
    have hbytes := congrArg utf8 hname
    rw [utf8_asciiText (ascii_assetBytes hj), utf8_asciiText (ascii_assetBytes hk)] at hbytes
    rw [assetBytes_inj hj hk hbytes]
    rfl

/-- The first `k` assets are in the store, and no later one. -/
structure Filled (k : ℕ) (s : State padHash) : Prop where
  quiet : s.Quiet
  len : s.cache.store.len = k
  capacity : s.cache.store.capacity = maxEntries
  dir : s.cache.store.dir = none
  absent : ∀ j, k ≤ j → j ≤ maxEntries → s.cache.store.get (assetHash j) = none

/-- The store of a machine that has served nothing yet. -/
def emptyCache : Backed padHash := ⟨.new padHash, fun _ _ => none⟩

/-- A call for asset 0 that is delivered and stored. -/
def firstServe : List Act :=
  .call .leakOnMiss (assetHash 0) :: (List.replicate 4 (.step none 0) ++
    .reply (some (assetBytes 0)) 0 :: List.replicate 5 (.step none 0))

theorem admits_firstServe : Along apply Admits (start emptyCache) firstServe := by
  refine ⟨trivial, ?_, ?_, ?_, ?_, trivial, ?_, ?_, ?_, ?_, ?_, trivial⟩
  case refine_5 =>
    intro t m bytes ht hp _
    cases ht
    cases hp
    exact .inr (by decide)
  all_goals
    intro t m bytes ht hp _
    cases ht
    cases hp

theorem asset_delivered_once_first :
    .delivered (assetHash 0) ∈ (run (start emptyCache) firstServe).log ∧
    (run (start emptyCache) firstServe).log.count (.delivered (assetHash 0)) ≤ 1 :=
  ⟨by decide, (asset_delivered_once emptyCache firstServe admits_firstServe (assetHash 0)).1⟩

/-- Serve asset `k` alone: it goes to the store while there is room, and is not kept when the store
is full. -/
theorem Filled.serve {s : State padHash} (h : Filled k s) (hk : k ≤ maxEntries) :
    ∃ s', run s (serveAlone wideCatalog (asciiText (assetBytes k)) (assetBytes k)
        s.tasks.length) = s' ∧ Filled (min (k + 1) maxEntries) s' ∧
      s'.log = .delivered (assetHash k) :: .fetchStarted (assetHash k) :: s.log := by
  have hname : wideCatalog.contentHashFor (asciiText (assetBytes k)) = some (assetHash k) :=
    contentHashFor_assetCatalog le_rfl (Nat.lt_succ_of_le hk)
  have hnone := h.absent k le_rfl hk
  obtain ⟨v, fresh, hrun⟩ := run_serveAlone h.quiet hname hnone rfl
  have hquiet : ∀ b log, ((⟨b, .empty, fresh, s.tasks, log⟩ : State padHash).push
      ⟨.leakOnMiss, assetHash k, .done v⟩).Quiet := by
    refine fun b log => ⟨rfl, fun t ht => ?_⟩
    rcases mem_append.mp ht with ht | ht
    · exact h.quiet.handle t ht
    · rw [mem_singleton.mp ht]
      rfl
  refine ⟨_, hrun, ?_, rfl⟩
  rcases s.cache.tryInsertVerified_cases none (assetHash k) (assetBytes k) with
    ⟨-, hsame, -⟩ | ⟨-, -, hthere⟩ | ⟨-, -, hadded⟩
  · have hsame : (s.cache.insertVerified none (assetHash k) (assetBytes k)).2.store =
      s.cache.store := hsame
    have hfull : maxEntries ≤ k := by
      by_contra hroom
      have hin : s.cache.store.contains (assetHash k) = true := hsame ▸
        Backed.contains_insertVerified rfl (.inr ⟨by simp [assetBytes, maxAssetBytes],
          by rw [h.len, h.capacity]; omega, .inl h.dir⟩)
      rw [contains_eq_false_iff.mpr hnone] at hin
      cases hin
    rw [Nat.min_eq_right (by omega), ← Nat.le_antisymm hk hfull]
    exact ⟨hquiet _ _, (congrArg CacheStore.len hsame).trans h.len,
      (congrArg CacheStore.capacity hsame).trans h.capacity,
      (congrArg CacheStore.dir hsame).trans h.dir,
      fun j hkj hj => (congrArg (·.get (assetHash j)) hsame).trans (h.absent j hkj hj)⟩
  · rw [contains_eq_false_iff.mpr hnone] at hthere
    cases hthere
  · have hstore : (s.cache.insertVerified none (assetHash k) (assetBytes k)).2.store =
      s.cache.store.insert (.new padHash (assetBytes k)) := hadded.store_eq
    have hroom := hadded.admissible.room
    rw [h.len, h.capacity] at hroom
    rw [Nat.min_eq_left hroom]
    refine ⟨hquiet _ _, (congrArg CacheStore.len hstore).trans ?_,
      (congrArg CacheStore.capacity hstore).trans h.capacity,
      (congrArg CacheStore.dir hstore).trans h.dir,
      fun j hkj hj => (congrArg (·.get (assetHash j)) hstore).trans ?_⟩
    · rw [len_insert hnone, h.len]
    · rw [get_insert, if_neg]
      · exact h.absent j (by omega) hj
      · intro heq
        have := assetHash_inj hk hj heq
        omega

/-- Serve the last asset alone. -/
def serveLast (i : ℕ) : List Act :=
  serveAlone wideCatalog (asciiText (assetBytes maxEntries)) (assetBytes maxEntries) i

theorem exists_filled : ∀ k ≤ maxEntries, ∃ acts : List Act,
    (∀ a ∈ acts, a.Serves wideCatalog) ∧ Filled k (run (start emptyCache) acts) := by
  intro k
  induction k with
  | zero =>
    intro _
    exact ⟨[], by simp, ⟨rfl, by simp [run, start]⟩, rfl, rfl, rfl, fun _ _ _ => rfl⟩
  | succ k ih =>
    intro hk
    obtain ⟨acts, hacts, hfilled⟩ := ih (by omega)
    refine ⟨acts ++ serveAlone wideCatalog (asciiText (assetBytes k)) (assetBytes k)
      (run (start emptyCache) acts).tasks.length, ?_, ?_⟩
    · intro a ha
      rcases mem_append.mp ha with ha | ha
      · exact hacts a ha
      · exact serves_serveAlone _ _ _ _ a ha
    · obtain ⟨s, hs, hnext, -⟩ := hfilled.serve (by omega)
      rwa [run_append, hs, ← Nat.min_eq_left hk]

/-- **A full store fetches again.**  A catalog that the reader accepts, and a run of calls by its
names alone, on the store as the program makes it, that is delivered the same asset twice. -/
theorem full_store_fetches_again :
    Catalog.parseBody (encodeCatalog (assetEntries (maxEntries + 1)) 0) = .ok wideCatalog ∧
    ∃ acts : List Act, (∀ a ∈ acts, a.Serves wideCatalog) ∧
      1 < (run (start emptyCache) acts).log.count (.delivered (assetHash maxEntries)) := by
  refine ⟨parseBody_assetCatalog le_rfl, ?_⟩
  obtain ⟨acts, hacts, hfilled⟩ := exists_filled maxEntries le_rfl
  obtain ⟨s, hs, hfilled', hlog⟩ := hfilled.serve le_rfl
  rw [Nat.min_eq_right (Nat.le_succ _)] at hfilled'
  obtain ⟨s', hs', -, hlog'⟩ := hfilled'.serve le_rfl
  refine ⟨acts ++ (serveLast (run (start emptyCache) acts).tasks.length ++
    serveLast s.tasks.length), ?_, ?_⟩
  · intro a ha
    rcases mem_append.mp ha with ha | ha
    · exact hacts a ha
    · rcases mem_append.mp ha with ha | ha
      · exact serves_serveAlone _ _ _ _ a ha
      · exact serves_serveAlone _ _ _ _ a ha
  · rw [run_append, run_append, serveLast, hs, serveLast, hs', hlog', hlog]
    simp

end Flight
end Mirror
end TortaCore
