import TortaCore.Mirror.Flight

/-!
# Single flight

The calls of `serve_addressed` on one thread: a call runs from one await to the next, or is
dropped, while the others stand at theirs.  The last call for an address that runs to its end takes
the lock from the map, since between its `prune` and its return no other call can look at the
number of handles.  A call that is dropped at an await never comes to its `prune`.
-/

namespace TortaCore
namespace Mirror
namespace Flight

open Text Store Machine State List
open TortaCore.Runtime

variable {H : Bytes → ContentHash} {s s' : State H} {i : ℕ} {t : Task} {p : Phase} {m : ℕ}
  {hash : ContentHash}

/-- The call has not begun, or is over. -/
def Phase.Idle : Phase → Prop
  | .entering | .done _ | .cancelled => True
  | _ => False

def Phase.Awaits : Phase → Prop
  | .waiting _ | .fetching _ => True
  | p => p.Idle

theorem Phase.Idle.key? (h : p.Idle) : p.key? = none := by
  cases p <;> first | rfl | cases h

theorem Phase.Awaits.key? (h : p.Awaits) : p.key? = p.handle? := by
  cases p <;> first | rfl | cases h

theorem Phase.Awaits.idle_or (h : p.Awaits) : p.Idle ∨ ∃ m, p.key? = some m := by
  cases p <;> first | exact .inl trivial | exact .inr ⟨_, rfl⟩ | cases h

/-- A call moves or is dropped only while all others are idle or await. -/
def AtAwaits (s : State H) : Act → Prop
  | .step _ i | .reply _ i | .cancel i => ∀ j u, j ≠ i → s.tasks[j]? = some u → u.phase.Awaits
  | _ => True

/-- Call `i` awaits with the lock of the address, and every other call for it is idle. -/
def Last (hash : ContentHash) (s : State H) (i : ℕ) : Prop :=
  ∃ t m, s.tasks[i]? = some t ∧ t.hash = hash ∧ (t.phase = .waiting m ∨ t.phase = .fetching m) ∧
    ∀ j u, j ≠ i → s.tasks[j]? = some u → u.hash = hash → u.phase.Idle

/-- Each lock is the lock of one address, and for that of `hash` a call has a handle that it will
prune. -/
structure Held (hash : ContentHash) (s : State H) : Prop where
  distinct : ∀ {h h' m}, s.locks.get? h = some m → s.locks.get? h' = some m → h = h'
  below : ∀ {h m}, s.locks.get? h = some m → m < s.fresh
  held : ∀ {m}, s.locks.get? hash = some m → ∃ (j : ℕ) (u : Task), s.tasks[j]? = some u ∧
    u.hash = hash ∧ u.phase.key? = some m

theorem Held.start (cache : Backed H) : Held hash (start cache) := ⟨nofun, nofun, nofun⟩

/-- A move adds one lock at most, a new one that the call then waits for. -/
theorem Move.lock_cases (h : Move s t s' p) : s.fresh ≤ s'.fresh ∧
    ∀ {x n}, s'.locks.get? x = some n → s.locks.get? x = some n ∨
      (x = t.hash ∧ n = s.fresh ∧ n < s'.fresh ∧ p = .waiting n) := by
  cases h
  case create =>
    refine ⟨Nat.le_succ _, fun {x n} hx => ?_⟩
    rw [Dict.get?_set] at hx
    split at hx
    · next heq =>
      cases hx
      exact .inr ⟨heq.symm, rfl, Nat.lt_succ_self _, rfl⟩
    · exact .inl hx
  case prune =>
    refine ⟨le_rfl, fun {x n} hx => .inl ?_⟩
    rw [Dict.get?_erase] at hx
    split at hx
    · cases hx
    · exact hx
  all_goals exact ⟨le_rfl, .inl⟩

theorem key_advance (fault : Option IoFault) (hm : t.phase.key? = some m) :
    (advance fault s t).2.key? = some m ∨ ∃ v, t.phase = .pruning m v := by
  rw [advance]
  cases hp : t.phase <;> rw [hp] at hm <;> cases hm
  case pruning v => exact .inr ⟨v, rfl⟩
  all_goals
    left
    dsimp only
    repeat' split
    all_goals rfl

theorem key_resume (reply : Option Bytes) (hm : t.phase.key? = some m) :
    (resume reply s t).2.key? = some m := by
  unfold resume
  split
  · next n hp =>
    rw [hp] at hm
    split <;> exact hm
  · exact hm

theorem key_cancel (hm : t.phase.key? = some m) :
    (cancel s t).2.key? = some m ∨ t.phase = .waiting m ∨ t.phase = .fetching m := by
  rw [cancel]
  cases hp : t.phase <;> rw [hp] at hm <;> cases hm
  case waiting => exact .inr (.inl rfl)
  case fetching => exact .inr (.inr rfl)
  all_goals exact .inl rfl

/-- A move keeps the map in order if the lock that the call gives up is taken from the map or
kept by another call. -/
theorem Held.move (h : Held hash s) (ht : s.tasks[i]? = some t) (hmove : Move s t s' p)
    (hkept : ∀ m, t.hash = hash → t.phase.key? = some m → p.key? = some m ∨
      s'.locks.get? hash = none ∨
      ∃ j u, j ≠ i ∧ s.tasks[j]? = some u ∧ u.hash = hash ∧ u.phase.key? = some m) :
    Held hash (s'.setPhase i t p) := by
  have hself := hmove.getElem?_self ht
  have hother : ∀ {j u}, j ≠ i → s.tasks[j]? = some u →
      (s'.setPhase i t p).tasks[j]? = some u := by
    intro j u hij hu
    rw [setPhase, getElem?_set_ne hij.symm, hmove.tasks_eq, hu]
  obtain ⟨hfresh, hcases⟩ := hmove.lock_cases
  refine ⟨fun {x y n} hx hy => ?_, fun {x n} hx => ?_, fun {n} hx => ?_⟩
  · rcases hcases hx with hx | ⟨rfl, rfl, -⟩ <;> rcases hcases hy with hy | ⟨rfl, hn, -⟩
    · exact h.distinct hx hy
    · exact absurd (h.below hx) (hn ▸ Nat.lt_irrefl _)
    · exact absurd (h.below hy) (Nat.lt_irrefl _)
    · rfl
  · rcases hcases hx with hx | ⟨-, -, hlt, -⟩
    · exact (h.below hx).trans_le hfresh
    · exact hlt
  · rcases hcases hx with hs | ⟨rfl, -, -, rfl⟩
    · obtain ⟨j, u, hu, rfl, hkey⟩ := h.held hs
      by_cases hij : j = i
      · subst hij
        cases ht.symm.trans hu
        rcases hkept n rfl hkey with hp | hnone | ⟨j, u, hij, hu, hhash, hkey⟩
        · exact ⟨_, _, hself, rfl, hp⟩
        · cases hnone.symm.trans hx
        · exact ⟨j, u, hother hij hu, hhash, hkey⟩
      · exact ⟨j, u, hother hij hu, rfl, hkey⟩
    · exact ⟨_, _, hself, rfl, rfl⟩

/-- If more than one call has a handle, one other than call `i` has. -/
theorem exists_other_of_countP {l : List Task} {q : Task → Bool} (h : 1 < l.countP q) (i : ℕ) :
    ∃ j u, j ≠ i ∧ l[j]? = some u ∧ q u = true := by
  by_contra hnone
  push Not at hnone
  -- without the place `i` nothing is counted
  have hrest : (l.eraseIdx i).countP q = 0 := by
    rw [countP_eq_zero]
    intro u hu
    obtain ⟨j, hji, hj⟩ := mem_eraseIdx_iff_getElem?.mp hu
    exact hnone j u hji hj
  cases ht : l[i]? with
  | some t =>
    rw [countP_eraseIdx q ht, hrest] at h
    split at h <;> omega
  | none =>
    rw [eraseIdx_of_length_le (getElem?_eq_none_iff.mp ht)] at hrest
    omega

/-- A call that prunes takes the lock with it, or leaves it to another call. -/
theorem Held.pruned (h : Held hash s) (hl : Locking s) (ht : s.tasks[i]? = some t)
    {v : ServeVerdict} (hp : t.phase = .pruning m v)
    (hawait : ∀ j u, j ≠ i → s.tasks[j]? = some u → u.phase.Awaits) :
    (s.prune t.hash m).locks.get? t.hash = none ∨
      ∃ j u, j ≠ i ∧ s.tasks[j]? = some u ∧ u.hash = t.hash ∧ u.phase.key? = some m := by
  have hlock := hl.keyed ht (m := m) (by rw [hp]; rfl)
  by_cases hcount : s.strongCount m ≤ 2
  · left
    rw [prune, hlock]
    dsimp only
    rw [if_pos ⟨rfl, hcount⟩, Dict.get?_erase, if_pos rfl]
  · right
    -- a lock stands once in the map
    have hrows : s.locks.rows.countP (·.2 == m) ≤ 1 := by
      have hone := nodup_iff_count_le_one.mp s.locks.nodup t.hash
      rw [count, countP_map] at hone
      refine (countP_mono_left fun x hx hm => ?_).trans hone
      have hx := Dict.mem_rows_iff.mp hx
      simpa using h.distinct (eq_of_beq hm ▸ hx) hlock
    rw [strongCount] at hcount
    obtain ⟨j, u, hij, hu, hhandle⟩ := exists_other_of_countP
      (l := s.tasks) (q := (·.phase.handle? == some m)) (by omega) i
    have hkey : u.phase.key? = some m := by
      rw [(hawait j u hij hu).key?]
      simpa using hhandle
    exact ⟨j, u, hij, hu, h.distinct (hl.keyed hu hkey) hlock, hkey⟩

/-- A step at awaits keeps the lock of the address in use, unless it drops the last call. -/
theorem Held.apply {a : Act} (h : Held hash s) (hl : Locking s) (ha : AtAwaits s a)
    (hlast : ∀ i, a = .cancel i → ¬ Last hash s i) : Held hash (apply s a) := by
  have hcall : ∀ u, Held hash { s with tasks := s.tasks ++ [u] } := fun u =>
    ⟨h.distinct, h.below, fun {n} hx => by
      obtain ⟨j, v, hv, hrest⟩ := h.held hx
      have hj := (List.getElem?_eq_some_iff.mp hv).1
      exact ⟨j, v, (List.getElem?_append_left hj).trans hv, hrest⟩⟩
  cases a with
  | call mode hash => exact hcall _
  | callName catalog mode name =>
    rw [Flight.apply]
    split
    · exact hcall _
    · exact h
  | step fault i =>
    rw [Flight.apply, onTask]
    split
    · next t ht =>
      refine h.move ht (move_advance fault s t) fun m hhash hm => ?_
      rcases key_advance fault hm with hkey | ⟨v, hp⟩
      · exact .inl hkey
      · have hadvance : advance fault s t = (s.prune t.hash m, .leaving m v) := by
          rw [advance, hp]
        rw [hadvance, ← hhash]
        exact .inr (h.pruned hl ht hp ha)
    · exact h
  | reply bytes i =>
    rw [Flight.apply, onTask]
    split
    · next t ht =>
      exact h.move ht (move_resume bytes s t) fun m _ hm => .inl (key_resume bytes hm)
    · exact h
  | cancel i =>
    rw [Flight.apply, onTask]
    split
    · next t ht =>
      refine h.move ht (move_cancel s t) fun m hhash hm => ?_
      rcases key_cancel hm with hkey | hp
      · exact .inl hkey
      -- another call for the address is under way, and it has the same lock
      by_contra hnone
      refine hlast i rfl ⟨t, m, ht, hhash, hp, fun j u hij hu huhash => ?_⟩
      rcases (ha j u hij hu).idle_or with hidle | ⟨n, hn⟩
      · exact hidle
      · have hsame := (hl.keyed hu hn).symm.trans (huhash.trans hhash.symm ▸ hl.keyed ht hm)
        cases hsame
        exact absurd (.inr (.inr ⟨j, u, hij, hu, huhash, hn⟩)) hnone
    · exact h
  | cache c => exact ⟨h.distinct, h.below, h.held⟩

/-- If no call for the address is under way, the map has no lock for it. -/
def Released (hash : ContentHash) (s : State H) : Prop :=
  (∀ t ∈ s.tasks, t.hash = hash → t.phase.Idle) → s.locks.get? hash = none

theorem Held.released (h : Held hash s) : Released hash s := by
  intro hidle
  by_contra hsome
  obtain ⟨m, hm⟩ := Option.ne_none_iff_exists'.mp hsome
  obtain ⟨j, u, hu, hhash, hkey⟩ := h.held hm
  cases (hidle u (mem_of_getElem? hu) hhash).key?.symm.trans hkey

/-- The last call leaves the lock behind when it is dropped. -/
theorem Last.not_released (h : Last hash s i) (hl : Locking s) :
    ¬ Released hash (apply s (.cancel i)) := by
  obtain ⟨t, m, ht, rfl, hp, hothers⟩ := h
  have hlock : s.locks.get? t.hash = some m :=
    hl.keyed ht (by rcases hp with hp | hp <;> rw [hp] <;> rfl)
  have hcancel : cancel s t = (s, .cancelled) := by
    rcases hp with hp | hp <;> rw [cancel, hp]
  rw [Flight.apply, onTask, ht]
  dsimp only
  rw [hcancel]
  intro hreleased
  refine Option.some_ne_none m (hlock.symm.trans (hreleased fun u hu hhash => ?_))
  obtain ⟨j, hj⟩ := getElem?_of_mem hu
  rcases eq_or_of_getElem?_set hj with ⟨-, rfl⟩ | ⟨hij, hj⟩
  · trivial
  · exact hothers j u hij.symm hj hhash

theorem released_iff {acts : List Act} (hl : Locking s) (h : Held hash s)
    (halong : Along apply AtAwaits s acts) :
    Throughout apply (Released hash) s acts ↔
      Along apply (fun s a => ∀ i, a = .cancel i → ¬ Last hash s i) s acts := by
  induction acts generalizing s with
  | nil => exact iff_of_true h.released trivial
  | cons a acts ih =>
    have hnext := fun hlast => ih (locking_apply hl a) (h.apply hl halong.1 hlast) halong.2
    constructor
    · rintro ⟨-, hrest⟩
      have hlast : ∀ i, a = .cancel i → ¬ Last hash s i := by
        rintro i rfl hi
        exact hi.not_released hl hrest.head
      exact ⟨hlast, (hnext hlast).mp hrest⟩
    · rintro ⟨hlast, hrest⟩
      exact ⟨h.released, (hnext hlast).mpr hrest⟩

theorem started_of_stored {hash : ContentHash} (acts : List Act) {s : State H}
    (h : ∃ e, s.cache.store.get hash = some e) :
    (run s acts).log.count (.fetchStarted hash) = s.log.count (.fetchStarted hash) := by
  have hstep : ∀ (r : State H) a, ((∃ e, r.cache.store.get hash = some e) ∧
      r.log.count (.fetchStarted hash) = s.log.count (.fetchStarted hash)) →
      (∃ e, (apply r a).cache.store.get hash = some e) ∧
        (apply r a).log.count (.fetchStarted hash) = s.log.count (.fetchStarted hash) := by
    rintro r a ⟨⟨e, he⟩, hcount⟩
    refine ⟨⟨e, store_extends_apply r a hash e he⟩, ?_⟩
    rcases apply_cases r a with heq | ⟨_, _, heq⟩ | ⟨i, t, r', p, -, hmove, heq⟩ | ⟨c, heq⟩
    · rw [heq, hcount]
    · rw [heq, ← hcount]
    · rw [heq, ← hcount]
      exact hmove.started_eq fun _ _ hhash => by simp [hhash, he]
    · rw [heq, ← hcount]
  exact (foldl_invariant hstep acts ⟨h, rfl⟩).2

/-- **Single flight.**  In every state of every run two calls that fetch for one address are the
same call, a call that waits for a lock or is under it has the lock that the map has for its
address, and once an address is stored no fetch for it starts, whatever comes.  If calls change at
awaits only, an address without a call under way has no lock in the map, in every state, exactly
when the last call for it is never dropped. -/
theorem single_flight (cache : Backed H) (acts : List Act) :
    let s := run (start cache) acts
    (∀ (i j : ℕ) (t u : Task) (m n : ℕ), s.tasks[i]? = some t → s.tasks[j]? = some u →
      t.hash = u.hash → t.phase = .fetching m → u.phase = .fetching n → i = j) ∧
    (∀ (i : ℕ) (t : Task) (m : ℕ), s.tasks[i]? = some t → t.phase.key? = some m →
      s.locks.get? t.hash = some m) ∧
    (∀ hash, (∃ e, s.cache.store.get hash = some e) → ∀ post,
      (run s post).log.count (.fetchStarted hash) = s.log.count (.fetchStarted hash)) ∧
    (Along apply AtAwaits (start cache) acts → ∀ hash,
      (Throughout apply (Released hash) (start cache) acts ↔
        Along apply (fun s a => ∀ i, a = .cancel i → ¬ Last hash s i) (start cache) acts)) := by
  intro s
  have hl := locking_run cache acts
  refine ⟨fun i j t u m n ht hu hhash hm hn => ?_, fun i t m ht hm => hl.keyed ht hm,
    fun hash he post => started_of_stored post he,
    fun halong hash => released_iff (locking_start cache) (Held.start cache) halong⟩
  exact hl.eq_of_hash ht hu hhash (by rw [hm]; rfl) (by rw [hn]; rfl)

/-- The only call for an address is dropped while it fetches: its lock stays in the map. -/
theorem dropped_call_leaves_lock :
    let acts : List Act :=
      .call .leakOnMiss (assetHash 0) :: (replicate 4 (.step none 0) ++ [.cancel 0])
    let s := run (start emptyCache) acts
    Along apply AtAwaits (start emptyCache) acts ∧ s.tasks.map Task.phase = [.cancelled] ∧
      s.locks.get? (assetHash 0) = some 0 := by
  refine ⟨⟨trivial, ?_, ?_, ?_, ?_, ?_, trivial⟩, by decide, by decide⟩
  all_goals
    rintro (_ | j) u hj hu
    · exact absurd rfl hj
    · cases hu

end Flight
end Mirror
end TortaCore
