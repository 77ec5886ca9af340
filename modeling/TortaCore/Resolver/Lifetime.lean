import TortaCore.Resolver.Recency

/-!
# Lifetimes across restarts

A restart writes the cache out and reads it back under another monotonic clock.  An entry
that is read back past its time to live gets a deadline of its own, the end of stale
service that the snapshot computed.  But the next snapshot computes that end afresh, from
the moment of the restore and the stale window, and forgets the deadline: the entry lives
on by up to a window for every further restart.
-/

namespace TortaCore
namespace Resolver

open Text Dns Store Wire

variable {hash : Key → ℕ}

/-! ### The end of service -/

/-- The last second at which an entry that stays in memory is served. -/
def lastServed (mode : StaleMode) (e : Entry) : WithTop ℤ :=
  if e.immortal then ⊤
  else
    match e.staleDeadline with
    | some deadline => ((deadline - 1 : ℤ) : WithTop ℤ)
    | none =>
      match mode with
      | .off => ((e.stored + e.ttl : ℤ) : WithTop ℤ)
      | .window w => ((e.stored + e.ttl + w : ℤ) : WithTop ℤ)
      | .unbounded => ⊤

theorem le_age (e : Entry) (now : ℤ) : now - e.stored ≤ e.age now := Int.self_le_toNat _

theorem le_lastServed {mode : StaleMode} {e : Entry} {now : ℤ}
    (h : e.isFresh now = true ∨ e.isUsableStale now mode = true) :
    ((now : ℤ) : WithTop ℤ) ≤ lastServed mode e := by
  have hage := le_age e now
  unfold lastServed
  cases himm : e.immortal with
  | true => simp
  | false =>
    simp only [Bool.false_eq_true, if_false]
    cases hd : e.staleDeadline with
    | some deadline =>
      have hlt : now < deadline := by simpa [Entry.isFresh, Entry.isUsableStale, himm, hd] using h
      rw [WithTop.coe_le_coe]
      omega
    | none =>
      simp only [Entry.isFresh, Entry.isUsableStale, himm, hd] at h
      cases mode with
      | unbounded => exact le_top
      | off =>
        have hle : e.age now ≤ e.ttl := by simpa using h
        rw [WithTop.coe_le_coe]
        omega
      | window w =>
        have hsat : satAdd e.ttl w ≤ e.ttl + w := Nat.min_le_left _ _
        have hle : e.age now ≤ e.ttl ∨ e.age now ≤ satAdd e.ttl w := by
          obtain h | h := h
          · exact .inl (by simpa using h)
          · by_cases hfresh : e.age now ≤ e.ttl
            · exact .inl hfresh
            · exact .inr (by simpa [hfresh] using h)
        rw [WithTop.coe_le_coe]
        omega

/-! ### Restarts -/

/-- A running process: its cache, how far its monotonic clock is ahead of the wall clock,
and the last wall-clock second anything happened. -/
structure Boot (hash : Key → ℕ) where
  cache : Cache hash
  offset : ℤ
  clock : ℕ

/-- The last wall-clock second at which an entry is served. -/
def lastSecond (mode : StaleMode) (e : Entry) (offset : ℤ) : WithTop ℤ :=
  (lastServed mode e).map (· - offset)

/-- The cache is written out at second `snapAt` and read, at second `clock` of a process
with another offset, into `dst`. -/
def Boot.restart (b : Boot hash) (snapAt budget : ℕ) (dst : Cache hash) (offset : ℤ) (clock : ℕ)
    (admits : Bytes → Bool) : Except Panic (Boot hash) :=
  (dst.restoreWith (b.cache.snapshot (snapAt + b.offset) snapAt budget) (clock + offset) clock
    admits).map fun st => ⟨st.1, offset, clock⟩

/-- A restart into an empty cache of the same stale mode, the wall clock never going back. -/
structure Restart (mode : StaleMode) (b : Boot hash) (snapAt : ℕ) (b' : Boot hash) : Prop where
  mode_eq : b.cache.staleMode = mode
  le_snapAt : b.clock ≤ snapAt
  snapAt_le : snapAt ≤ b'.clock
  restored : ∃ (budget : ℕ) (dst : Cache hash) (admits : Bytes → Bool),
    dst.entries = [] ∧ dst.staleMode = mode ∧
    b.restart snapAt budget dst b'.offset b'.clock admits = .ok b'

/-- A deadline is not before the end that stale service has by the mode alone: a window
after the entry was stored, or the last second of the wall clock. -/
def DeadlineKept (mode : StaleMode) (e : Entry) (offset deadline : ℤ) : Prop :=
  match mode with
  | .off => True
  | .window w => e.stored + w ≤ deadline
  | .unbounded => (u64Max : ℤ) + offset ≤ deadline

/-- Every deadline that is still ahead at `now` is kept. -/
def KeepsDeadlines (mode : StaleMode) (c : Cache hash) (offset now : ℤ) : Prop :=
  ∀ s ∈ c.entries, ∀ deadline, s.entry.staleDeadline = some deadline → now < deadline →
    DeadlineKept mode s.entry offset deadline

/-- Runs of restarts whose snapshots all find the deadlines kept. -/
inductive Restarts (mode : StaleMode) : Boot hash → Boot hash → Prop where
  | refl (b : Boot hash) : Restarts mode b b
  | restart {b₀ b b' : Boot hash} {snapAt : ℕ} : Restarts mode b₀ b →
      KeepsDeadlines mode b.cache b.offset (snapAt + b.offset) → Restart mode b snapAt b' →
      Restarts mode b₀ b'

/-- Entries as the code makes them: integers in range, and no time to live beside a
deadline. -/
structure Slot.Built (s : Slot) : Prop extends s.Typed where
  ttl : s.entry.staleDeadline.isSome = true → s.entry.ttl = 0

theorem Slot.Plain.built {s : Slot} (h : s.Plain) : s.Built :=
  ⟨h.toTyped, fun hsome => by rw [h.live] at hsome; cases hsome⟩

/-! ### One restart -/

section Step

variable {mode : StaleMode} {s : Slot} {e' : Entry} {t t' : ℕ} {δ δ' : ℤ}

/-- The end of stale service in a frame is at most a window after the time to live ended,
unless it has passed. -/
theorem staleUntilUnix_toRecord_le (s : Slot) (w t : ℕ) (δ : ℤ) :
    ((toRecord (.window w) (t + δ) t s).staleUntilUnix : ℤ) ≤
      max (t : ℤ) (s.entry.stored - δ + s.entry.ttl + w) := by
  have huntil : (toRecord (.window w) (t + δ) t s).staleUntilUnix ≤
      t + (satAdd s.entry.ttl w - s.entry.age (t + δ)) := Nat.min_le_left _ _
  have hsat : satAdd s.entry.ttl w ≤ s.entry.ttl + w := Nat.min_le_left _ _
  have hage := le_age s.entry (t + δ)
  omega

/-- **One restart does not lengthen the life of an entry** whose deadline, if it has one,
is not before the end the snapshot computes. -/
theorem lastSecond_le (hbuilt : s.Built) (hcarries : carries mode (t + δ) s = true) (hle : t ≤ t')
    (hkeeps : ∀ deadline, s.entry.staleDeadline = some deadline → t + δ < deadline →
      DeadlineKept mode s.entry δ deadline)
    (h : rehydrated mode (t' + δ') t' (toRecord mode (t + δ) t s) = .ok (some e')) :
    lastSecond mode e' δ' ≤ lastSecond mode s.entry δ := by
  obtain ⟨-, hstored, -, himm', hcase⟩ := rehydrated_eq_some h
  simp only [carries, Bool.and_eq_true, Bool.not_eq_true'] at hcarries
  obtain ⟨⟨himm, hserves⟩, -⟩ := hcarries
  have hexpiry : (toRecord mode (t + δ) t s).expiryUnix ≤ t + (s.entry.ttl - s.entry.age (t + δ)) :=
    Nat.min_le_left _ _
  have hage := le_age s.entry (t + δ)
  simp only [lastSecond, lastServed, himm, himm', Bool.false_eq_true, if_false]
  cases hd : s.entry.staleDeadline with
  | none =>
    obtain ⟨hfresh, httl, hnone⟩ | ⟨hmode, -, hstale, httl, hsome⟩ := hcase
    · -- it comes back fresh: its expiry is where the time to live ended
      rw [hnone]
      cases mode with
      | unbounded => exact le_refl _
      | off =>
        rw [WithTop.map_coe, WithTop.map_coe, WithTop.coe_le_coe, hstored, httl]
        omega
      | window w =>
        rw [WithTop.map_coe, WithTop.map_coe, WithTop.coe_le_coe, hstored, httl]
        omega
    · -- it comes back stale: its deadline is where the stale window ended
      rw [hsome]
      cases mode with
      | off => exact absurd rfl hmode
      | unbounded => exact le_top
      | window w =>
        have huntil := staleUntilUnix_toRecord_le s w t δ
        rw [WithTop.map_coe, WithTop.map_coe, WithTop.coe_le_coe]
        omega
  | some deadline =>
    -- it was stale already, so only the recomputed end of stale service matters
    have hzero : s.entry.ttl = 0 := hbuilt.ttl (by rw [hd]; rfl)
    have hlt : (t : ℤ) + δ < deadline := by
      simpa [Entry.isFresh, Entry.isUsableStale, himm, hd] using hserves
    obtain ⟨hfresh, -, -⟩ | ⟨hmode, -, hstale, -, hsome⟩ := hcase
    · omega
    have hkept := hkeeps deadline hd hlt
    rw [hsome]
    rw [WithTop.map_coe, WithTop.map_coe, WithTop.coe_le_coe]
    cases mode with
    | off => exact absurd rfl hmode
    | unbounded =>
      have huntil : (toRecord .unbounded (t + δ) t s).staleUntilUnix = u64Max := rfl
      have hlast : (u64Max : ℤ) + δ ≤ deadline := hkept
      omega
    | window w =>
      have huntil := staleUntilUnix_toRecord_le s w t δ
      have hwindow : s.entry.stored + w ≤ deadline := hkept
      omega

end Step

/-! ### Any number of restarts -/

/-- `s'` is what became of the entry `s`: the same answer, with no later end. -/
structure Descends (mode : StaleMode) (offset : ℤ) (s : Slot) (offset' : ℤ) (s' : Slot) :
    Prop where
  key : s'.key = s.key
  wire : s'.entry.wire = s.entry.wire
  last : lastSecond mode s'.entry offset' ≤ lastSecond mode s.entry offset

theorem restoreWith_of_restart {b b' : Boot hash} {snapAt budget clock : ℕ} {dst : Cache hash}
    {offset : ℤ} {admits : Bytes → Bool}
    (h : b.restart snapAt budget dst offset clock admits = .ok b') :
    ∃ n, dst.restoreWith (b.cache.snapshot (snapAt + b.offset) snapAt budget) (clock + offset)
      clock admits = .ok (b'.cache, n) := by
  unfold Boot.restart at h
  cases hst : dst.restoreWith (b.cache.snapshot (snapAt + b.offset) snapAt budget)
      (clock + offset) clock admits with
  | error p => rw [hst] at h; cases h
  | ok st =>
    rw [hst] at h
    cases h
    exact ⟨st.2, rfl⟩

theorem Restart.descends {mode : StaleMode} {b b' : Boot hash} {snapAt : ℕ}
    (h : Restart mode b snapAt b') (hbuilt : ∀ s ∈ b.cache.entries, s.Built)
    (hkeeps : KeepsDeadlines mode b.cache b.offset (snapAt + b.offset)) :
    ∀ s' ∈ b'.cache.entries,
      s'.Built ∧ ∃ s ∈ b.cache.entries, Descends mode b.offset s b'.offset s' := by
  intro s' hs'
  obtain ⟨budget, dst, admits, hempty, hmode, hrestart⟩ := h.restored
  obtain ⟨n, hrestored⟩ := restoreWith_of_restart hrestart
  obtain hold | ⟨r, hr, hkey, -, hentry⟩ := Cache.mem_entries_restoreWith hrestored hs'
  · rw [hempty] at hold
    cases hold
  obtain ⟨s, hs, hcarries, rfl⟩ := Cache.mem_records_snapshot (fun s hs => (hbuilt s hs).toTyped) hr
  rw [h.mode_eq] at hcarries hentry
  rw [hmode] at hentry
  obtain ⟨hwire, -, hepoch, -, hcase⟩ := rehydrated_eq_some hentry
  refine ⟨⟨⟨?_, ?_, ?_⟩, ?_⟩, s, hs, hkey, hwire,
    lastSecond_le (hbuilt s hs) hcarries h.snapAt_le (hkeeps s hs) hentry⟩
  · rw [hkey]
    exact (hbuilt s hs).qtype
  · rw [hkey]
    exact (hbuilt s hs).qclass
  · rw [hepoch]
    exact (hbuilt s hs).epoch
  · obtain ⟨-, -, hnone⟩ | ⟨-, -, -, hzero, -⟩ := hcase
    · rw [hnone]
      exact fun hsome => absurd hsome Bool.false_ne_true
    · exact fun _ => hzero

/-- What every run keeps: the mode, and that each entry descends from one of the start. -/
theorem Restarts.descends {mode : StaleMode} {b₀ b : Boot hash} (h : Restarts mode b₀ b)
    (hmode : b₀.cache.staleMode = mode) (hbuilt : ∀ s ∈ b₀.cache.entries, s.Built) :
    b.cache.staleMode = mode ∧ ∀ s' ∈ b.cache.entries,
      s'.Built ∧ ∃ s ∈ b₀.cache.entries, Descends mode b₀.offset s b.offset s' := by
  induction h with
  | refl => exact ⟨hmode, fun s hs => ⟨hbuilt s hs, s, hs, rfl, rfl, le_refl _⟩⟩
  | restart hrun hkeeps hrestart ih =>
    obtain ⟨-, hentries⟩ := ih
    refine ⟨?_, fun s' hs' => ?_⟩
    · obtain ⟨budget, dst, admits, -, hdst, hok⟩ := hrestart.restored
      obtain ⟨n, hrestored⟩ := restoreWith_of_restart hok
      exact (Cache.staleMode_of_restoreWith hrestored).trans hdst
    · obtain ⟨hbuilt', s₁, hs₁, hstep⟩ :=
        hrestart.descends (fun s hs => (hentries s hs).1) hkeeps s' hs'
      obtain ⟨-, s₀, hs₀, hprev⟩ := hentries s₁ hs₁
      exact ⟨hbuilt', s₀, hs₀, hstep.key.trans hprev.key, hstep.wire.trans hprev.wire,
        hstep.last.trans hprev.last⟩

/-- **Restarts never lengthen the life of an entry** while every snapshot finds the
deadlines kept: what a lookup serves at second `u` is an answer of the first cache under
the same question, and had it stayed in memory it would not have expired by then. -/
theorem restarts_never_lengthen (mode : StaleMode) (b₀ b : Boot hash)
    (hmode : b₀.cache.staleMode = mode) (hbuilt : ∀ s ∈ b₀.cache.entries, s.Built)
    (h : Restarts mode b₀ b) (q : DnsQuestion) (u liveEpoch : ℕ) (hit : CacheHit)
    (hhit : (b.cache.getHitAt q (u + b.offset) liveEpoch).1 = some hit) :
    ∃ s ∈ b₀.cache.entries, s.key = .fromQuestion q ∧ s.entry.wire = hit.wire ∧
      ((u + b₀.offset : ℤ) : WithTop ℤ) ≤ lastServed mode s.entry := by
  obtain ⟨hmode', hentries⟩ := h.descends hmode hbuilt
  obtain ⟨s', hs', hkey, hwire, -, hserved⟩ := Cache.getHitAt_eq_some hhit
  obtain ⟨-, s, hs, hdesc⟩ := hentries s' hs'
  rw [hmode'] at hserved
  refine ⟨s, hs, hdesc.key.symm.trans hkey, hdesc.wire.symm.trans hwire, ?_⟩
  have hlast : ((u : ℤ) : WithTop ℤ) ≤ lastSecond mode s'.entry b.offset := by
    have hmap := WithTop.monotone_map_iff.mpr (fun x y hxy => Int.sub_le_sub_right hxy b.offset)
      (le_lastServed hserved)
    rwa [WithTop.map_coe, Int.add_sub_cancel] at hmap
  have hfirst := hlast.trans hdesc.last
  unfold lastSecond at hfirst
  cases hend : lastServed mode s.entry with
  | top => exact le_top
  | coe last =>
    rw [hend, WithTop.map_coe, WithTop.coe_le_coe] at hfirst
    rw [WithTop.coe_le_coe]
    omega

theorem exists_ok_of_map {ε α β : Type} {x : Except ε α} {f : α → β} {y : β}
    (h : x.map f = .ok y) : ∃ a, x = .ok a ∧ f a = y := by
  cases x with
  | error p => cases h
  | ok a => exact ⟨a, rfl, Except.ok.inj h⟩

/-- An answer with thirty seconds to live and a stale window of a hundred comes back stale
after one restart, and is still served ninety seconds after it was stored. -/
theorem restarts_never_lengthen_once :
    let b₀ : Boot (fun k => k.qname.length) :=
      ⟨(Cache.withPolicy _ 16 0 0 0 100).put true ⟨7, ['a'], 1, 1⟩
        [0, 7, 129, 128, 0, 1, 0, 1, 0, 0, 0, 0, 1, 97, 0, 0, 1, 0, 1,
          192, 12, 0, 1, 0, 1, 0, 0, 0, 30, 0, 4, 1, 2, 3, 4] 50 0, 50 - 1700000000, 1700000000⟩
    ∃ b, Restarts (.window 100) b₀ b ∧
      ∃ hit, (b.cache.getHitAt ⟨8, ['a'], 1, 1⟩ (1700000090 + b.offset) 0).1 = some hit ∧
      ∃ s ∈ b₀.cache.entries, s.key = .fromQuestion ⟨8, ['a'], 1, 1⟩ ∧
        s.entry.wire = hit.wire ∧
        ((1700000090 + b₀.offset : ℤ) : WithTop ℤ) ≤ lastServed (.window 100) s.entry := by
  intro b₀
  have hreach : Reachable _ b₀.cache :=
    .put true ⟨7, ['a'], 1, 1⟩ _ 50 0 (.init ..) (by decide) (by decide) (by decide)
  have hbuilt : ∀ s ∈ b₀.cache.entries, s.Built := fun s hs => (hreach.plain s hs).built
  obtain ⟨b, hb, hit⟩ := exists_ok_of_map (x := b₀.restart 1700000010 4096
      (Cache.withPolicy _ 16 0 0 0 100) 0 1700000080 fun _ => true)
    (f := fun b => ((b.offset, b.clock), (b.cache.getHitAt ⟨8, ['a'], 1, 1⟩
      (1700000090 + b.offset) 0).1))
    (y := ((0, 1700000080), some ⟨[0, 7, 129, 128, 0, 1, 0, 1, 0, 0, 0, 0, 1, 97, 0, 0, 1, 0, 1,
      192, 12, 0, 1, 0, 1, 0, 0, 0, 30, 0, 4, 1, 2, 3, 4], .stale⟩)) (by decide +kernel)
  obtain ⟨hclock, hit⟩ := Prod.mk.inj hit
  obtain ⟨hoffset, hclock⟩ := Prod.mk.inj hclock
  have hstep : Restart (.window 100) b₀ 1700000010 b :=
    ⟨rfl, by decide, by omega, 4096, _, _, rfl, rfl, hoffset ▸ hclock ▸ hb⟩
  have hrun : Restarts (.window 100) b₀ b := by
    refine .restart (.refl b₀) (fun s hs deadline hd => ?_) hstep
    rw [(hreach.plain s hs).live] at hd
    cases hd
  exact ⟨b, hrun, _, hit, restarts_never_lengthen _ b₀ b rfl hbuilt hrun _ 1700000090 0 _ hit⟩

/-- Two restarts within one stale window.  Stored at second 0 with thirty seconds to live and
a window of a hundred, the answer ends at 130; after restarts at 100 it is served at 150. -/
theorem restarts_lengthen_twice :
    let b₀ : Boot (fun k => k.qname.length) :=
      ⟨(Cache.withPolicy _ 16 0 0 0 100).put true ⟨7, ['a'], 1, 1⟩
        [0, 7, 129, 128, 0, 1, 0, 1, 0, 0, 0, 0, 1, 97, 0, 0, 1, 0, 1,
          192, 12, 0, 1, 0, 1, 0, 0, 0, 30, 0, 4, 1, 2, 3, 4] 50 0, 50 - 1700000000, 1700000000⟩
    let dst := Cache.withPolicy (fun k => k.qname.length) 16 0 0 0 100
    let q : DnsQuestion := ⟨8, ['a'], 1, 1⟩
    b₀.cache.entries.map (fun s => lastServed b₀.cache.staleMode s.entry) = [(180 : ℤ)] ∧
    (b₀.cache.getHitAt q (1700000150 + b₀.offset) 0).1 = none ∧
    Except.map (fun b => ((b.cache.getHitAt q (1700000150 + b.offset) 0).1.map (·.freshness)))
      (do
        let b₁ ← b₀.restart 1700000010 4096 dst 0 1700000100 fun _ => true
        b₁.restart 1700000100 4096 dst 0 1700000100 fun _ => true) = .ok (some .stale) := by
  decide +kernel

end Resolver
end TortaCore
