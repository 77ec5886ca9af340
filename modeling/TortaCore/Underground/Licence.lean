import TortaCore.Underground.Ledger

/-!
# The end of a sequestration

A sequestration has a term: when it has passed and the last quarter of it was quiet, the host
gets its licence back.  Only the active-destroy lanes and a standing pin are meant to be for
good, and the content hosts are never sequestrated (`underground.rs`).

The term is counted from `seqAt`, and only an accident stamps that.  A pin of distrust
sequestrates without a stamp, and taking the pin away leaves the row as it is: the host is then
neutral, sequestrated, and has no term.  A content host gets sequestrated in the same way.

## Main definitions

* `contentLaneDefang`, `Store.load`: what is done with the ledger when the process starts.
* `Book.turn`: the four ways a row changes, with the clock.
-/

namespace TortaCore
namespace Underground

open Text Mirror TortaCore.Store

/-! ### The code -/

/-- A content host is not sequestrated by an old ledger. -/
def contentLaneDefang (e : Entry) : Entry :=
  if e.source = .centauri ∧ e.sequestrated = true then
    { e with sequestrated := false
             points := max e.points 1
             risk := if e.risk.isActiveDestroy then .cdn else e.risk }
  else e

namespace Store

/-- One row of the ledger: the rows that are there already win. -/
def rehydrate (d : Dict Str Entry) (e : Entry) : Dict Str Entry :=
  if (d.get? e.host).isSome then d else d.set e.host (contentLaneDefang e)

/-- The ledger, read into a store. -/
def load (law : Law) (now : UInt64) (s : Store) (body : Str) : Store :=
  let r := parseBody law now body
  { byHost := r.1.foldl rehydrate s.byHost
    recordedTotal := max s.recordedTotal r.2.recorded
    recoveredTotal := max s.recoveredTotal r.2.recovered
    teethTotal := max s.teethTotal r.2.teeth }

end Store

/-- The ways in which a row changes. -/
inductive Change where
  | record (host : Str) (score : ThreatScore) (source : Source)
  | setVerdict (host : Str) (code : ℕ)
  | settle
  /-- The process ends with its ledger written, and another one reads it. -/
  | reload

structure Turn where
  law : Law
  now : UInt64
  change : Change

/-- The store, and the last time it was touched. -/
structure Book where
  store : Store := {}
  clock : UInt64 := 0

def Book.turn (b : Book) (t : Turn) : Book :=
  let store := match t.change with
    | .record host score source => b.store.recordScoredAt t.law host score source t.now
    | .setVerdict host code => b.store.setVerdict t.law host (.fromCode code) t.now
    | .settle => b.store.settleRecoveryAt t.law t.now
    | .reload => Store.load t.law t.now {} (serializeStore b.store)
  ⟨store, t.now⟩

/-! ### The condition -/

/-- The clock has started and does not go back. -/
def Timely (b : Book) (t : Turn) : Prop := 1 ≤ t.now ∧ b.clock ≤ t.now

/-- A pin is taken away only where the sequestration, if there is one, has a term or is for good
by its lane, and never from a sequestrated content host; and the ledger is one that is read
back. -/
def Spares (b : Book) (t : Turn) : Prop :=
  match t.change with
  | .record _ _ _ => True
  | .setVerdict host code => Verdict.fromCode code = .neutral →
      ∀ e ∈ b.store.byHost.get? (normalizeHost host), e.sequestrated = true →
        e.source ≠ .centauri ∧ (e.risk.isActiveDestroy = false → 0 < e.seqAt)
  | .settle => True
  | .reload => ∀ r ∈ b.store.byHost.rows, Clean r.1 ∧ Wired r.2.risk

instance (b : Book) (t : Turn) : Decidable (Timely b t) := inferInstanceAs (Decidable (_ ∧ _))

instance (b : Book) : ∀ t : Turn, Decidable (Spares b t)
  | ⟨_, _, .record _ _ _⟩ => isTrue trivial
  | ⟨_, _, .setVerdict _ _⟩ =>
    inferInstanceAs (Decidable (_ → ∀ e ∈ _, Entry.sequestrated e = true → _ ∧ (_ → _)))
  | ⟨_, _, .settle⟩ => isTrue trivial
  | ⟨_, _, .reload⟩ => inferInstanceAs (Decidable (∀ r ∈ _, _ ∧ _))

/-! ### One row -/

/-- A neutral row is not sequestrated for ever, unless its lane says so. -/
structure Entry.Finite (now : UInt64) (e : Entry) : Prop where
  stamp : e.seqAt ≤ now
  content : e.verdict = .neutral → e.sequestrated = true → e.source ≠ .centauri
  term : e.verdict = .neutral → e.sequestrated = true → e.risk.isActiveDestroy = false →
    0 < e.seqAt

namespace Entry

variable {law : Law} {e : Entry} {now later : UInt64}

theorem Finite.mono (h : e.Finite now) (hle : now ≤ later) : e.Finite later :=
  ⟨UInt64.le_trans h.stamp hle, h.content, h.term⟩

theorem finite_of_not_sequestrated (hstamp : e.seqAt ≤ now) (h : e.sequestrated = false) :
    e.Finite now := by
  refine ⟨hstamp, fun _ hseq => ?_, fun _ hseq => ?_⟩
  · rw [h] at hseq
    cases hseq
  · rw [h] at hseq
    cases hseq

theorem finite_of_pinned (hstamp : e.seqAt ≤ now) (h : e.verdict ≠ .neutral) : e.Finite now :=
  ⟨hstamp, fun hv => absurd hv h, fun hv => absurd hv h⟩

theorem finite_fresh (host : Str) (risk : Risk) (source : Source) (start : Int32) :
    (Entry.fresh host risk source start now).Finite now :=
  finite_of_not_sequestrated UInt64.zero_le rfl

theorem Finite.deduct (h : e.Finite now) (hnow : 1 ≤ now) (weight : Int32) :
    (deduct law e weight now).Finite now := by
  unfold Underground.deduct
  split
  · exact finite_of_not_sequestrated h.stamp rfl
  · next hv => exact finite_of_pinned h.stamp (by simp [hv])
  · next hv =>
    extract_lets penalty points
    split
    · next hzero =>
      -- the licence closes: the stamp is the one it had or the present
      by_cases hseq : e.sequestrated = true
      · exact ⟨by simpa [hseq] using h.stamp, fun _ _ => hzero.2,
          fun _ _ hrisk => by simpa [hseq] using h.term hv hseq hrisk⟩
      · exact ⟨by simp [hseq], fun _ _ => hzero.2, fun _ _ _ => by
          simpa [hseq] using UInt64.lt_of_lt_of_le (by decide) hnow⟩
    · exact ⟨h.stamp, h.content, h.term⟩

theorem Finite.witness (h : e.Finite now) (hnow : 1 ≤ now) (weight : Int32) :
    (e.witness law weight now).Finite now := by
  have hseen : ({ e with hits := e.hits + 1, lastSeen := now } : Entry).Finite now :=
    ⟨h.stamp, h.content, h.term⟩
  simp only [Entry.witness]
  split
  · exact hseen
  · exact hseen.deduct hnow weight

/-- A pin that is taken away uncovers what the row was before it. -/
theorem Finite.pin (h : e.Finite now) (start : Int32) {verdict : Verdict}
    (hlift : verdict = .neutral → e.sequestrated = true →
      e.source ≠ .centauri ∧ (e.risk.isActiveDestroy = false → 0 < e.seqAt)) :
    (e.pin start verdict now).Finite now := by
  cases verdict with
  | trusted => exact finite_of_not_sequestrated h.stamp rfl
  | distrusted => exact finite_of_pinned h.stamp (by simp [Entry.pin])
  | neutral =>
    exact ⟨h.stamp, fun _ hseq => (hlift rfl hseq).1, fun _ hseq => (hlift rfl hseq).2⟩

theorem Finite.settle (h : e.Finite now) : (e.settle law now).1.Finite now := by
  simp only [Entry.settle]
  split
  · exact finite_of_not_sequestrated UInt64.zero_le rfl
  · split
    · exact h
    · split
      · exact ⟨h.stamp, h.content, h.term⟩
      · exact h

theorem Finite.contentLaneDefang (h : e.Finite now) : (contentLaneDefang e).Finite now := by
  unfold Underground.contentLaneDefang
  split
  · exact finite_of_not_sequestrated h.stamp rfl
  · exact h

/-- The pass frees a neutral row whose term is over. -/
theorem sequestrated_settle (hseq : e.sequestrated = true) (hverdict : e.verdict = .neutral)
    (hrisk : e.risk.isActiveDestroy = false) (hstamp : 0 < e.seqAt)
    (hterm : e.seqAt.toNat + law.cfg.ttlSecs.toNat ≤ now.toNat)
    (hquiet : law.cfg.ttlSecs.toNat / 4 ≤ now.toNat - e.lastSeen.toNat) :
    (e.settle law now).1.sequestrated = false := by
  have hsat : saturatingAdd e.seqAt.toNat law.cfg.ttlSecs.toNat ≤ now.toNat :=
    Nat.le_trans (Nat.min_le_left _ _) hterm
  have hpos : 0 < e.seqAt.toNat := UInt64.lt_iff_toNat_lt.mp hstamp
  have hretests : e.Retests law now = true := by
    simp [Entry.Retests, hseq, hverdict, hrisk, hpos, hsat, hquiet]
  simp only [Entry.settle, hretests, if_true]

end Entry

/-! ### The runs -/

/-- What every row is like at a time. -/
def Kept (now : UInt64) (k : Str) (e : Entry) : Prop := Rooted k e ∧ e.Finite now

variable {law : Law} {s : Store} {now : UInt64}

theorem kept_setVerdict (h : s.byHost.All (Kept now)) {host : Str} {verdict : Verdict}
    (hlift : verdict = .neutral → ∀ e ∈ s.byHost.get? (normalizeHost host),
      e.sequestrated = true →
        e.source ≠ .centauri ∧ (e.risk.isActiveDestroy = false → 0 < e.seqAt)) :
    (s.setVerdict law host verdict now).byHost.All (Kept now) := by
  simp only [Store.setVerdict]
  split
  · exact h
  next hne =>
  refine h.set ?_
  cases hget : s.byHost.get? (normalizeHost host) with
  | none =>
    exact ⟨(rooted_fresh hne _ _ _ _).of_fixed (fixed_pin _ _ _ _),
      (Entry.finite_fresh _ _ _ _).pin _ (by simp [Entry.fresh])⟩
  | some e =>
    obtain ⟨hrooted, hfinite⟩ := h _ e hget
    exact ⟨hrooted.of_fixed (fixed_pin _ _ _ _), hfinite.pin _ fun hv => hlift hv e hget⟩

theorem rooted_contentLaneDefang {k : Str} {e : Entry} (h : Rooted k e) :
    Rooted k (contentLaneDefang e) := by
  unfold contentLaneDefang
  split
  · exact h
  · exact h

theorem Store.all_rehydrate {P : Str → Entry → Prop} {entries : List Entry} {d : Dict Str Entry}
    (hd : d.All P) (h : ∀ e ∈ entries, P e.host (contentLaneDefang e)) :
    (entries.foldl Store.rehydrate d).All P := by
  induction entries generalizing d with
  | nil => exact hd
  | cons e entries ih =>
    obtain ⟨he, hrest⟩ := List.forall_mem_cons.mp h
    refine ih ?_ hrest
    unfold Store.rehydrate
    split
    · exact hd
    · exact hd.set he

/-- The ledger of clean names gives back the rows. -/
theorem kept_reload (h : s.byHost.All (Kept now))
    (hreload : ∀ r ∈ s.byHost.rows, Clean r.1 ∧ Wired r.2.risk) :
    (Store.load law now {} (serializeStore s)).byHost.All (Kept now) := by
  have hrow : ∀ k e, s.byHost.get? k = some e → Clean k ∧ Wired e.risk := fun k e hget =>
    hreload (k, e) (Dict.mem_rows_iff.mpr hget)
  have hfiled : s.byHost.All Filed := fun k e hget => ⟨(h k e hget).1, (hrow k e hget).2⟩
  have hclean : ∀ e ∈ s.sortedRows, Clean e.host := by
    intro e he
    obtain ⟨k, hget⟩ := mem_sortedRows.mp he
    rw [(hfiled k e hget).1.1]
    exact (hrow k e hget).1
  simp only [Store.load, parseBody_of_clean now hfiled hclean law]
  refine Store.all_rehydrate Dict.all_empty fun e he => ?_
  obtain ⟨k, hget⟩ := mem_sortedRows.mp he
  obtain ⟨hrooted, hfinite⟩ := h k e hget
  rw [hrooted.1]
  exact ⟨rooted_contentLaneDefang hrooted, hfinite.contentLaneDefang⟩

theorem kept_turn {b : Book} (h : b.store.byHost.All (Kept b.clock)) {t : Turn}
    (htimely : Timely b t) (hspares : Spares b t) :
    (b.turn t).store.byHost.All (Kept (b.turn t).clock) := by
  have hnow : b.store.byHost.All (Kept t.now) := h.mono fun k e he => ⟨he.1, he.2.mono htimely.2⟩
  obtain ⟨law, now, change⟩ := t
  cases change with
  | record host score source =>
    exact Store.All.recordScoredAt hnow
      (fun hne => ⟨rooted_fresh hne _ _ _ _, Entry.finite_fresh _ _ _ _⟩)
      fun e he => ⟨he.1.of_fixed (fixed_witness _ _ _ _), he.2.witness htimely.1 _⟩
  | setVerdict host code => exact kept_setVerdict hnow hspares
  | settle =>
    exact Store.All.settleRecoveryAt hnow
      fun k e he => ⟨he.1.of_fixed (fixed_settle _ _ _), he.2.settle⟩
  | reload => exact kept_reload hnow hspares

/-- **A sequestration ends.**  Along every run from an empty store whose turns spare the rows, a
neutral row that is sequestrated and not in an active-destroy lane has the stamp of a time that
has passed, and the pass frees it when its term is over and the last quarter of it was quiet;
and no neutral content host is sequestrated. -/
theorem sequestration_ends (turns : List Turn)
    (h : Machine.Along Book.turn (fun b t => Timely b t ∧ Spares b t) {} turns) :
    let b := turns.foldl Book.turn {}
    ∀ k e, b.store.byHost.get? k = some e → e.verdict = .neutral → e.sequestrated = true →
      e.source ≠ .centauri ∧
      (e.risk.isActiveDestroy = false → (0 < e.seqAt ∧ e.seqAt ≤ b.clock) ∧
        ∀ (law : Law) (now : UInt64), e.seqAt.toNat + law.cfg.ttlSecs.toNat ≤ now.toNat →
          law.cfg.ttlSecs.toNat / 4 ≤ now.toNat - e.lastSeen.toNat →
            ((b.store.settleRecoveryAt law now).byHost.get? k).map Entry.sequestrated =
              some false) := by
  intro b k e hget hverdict hseq
  have hkept : b.store.byHost.All (Kept b.clock) :=
    Machine.Along.invariant (I := fun b : Book => b.store.byHost.All (Kept b.clock))
      (fun _ _ hb hallowed => kept_turn hb hallowed.1 hallowed.2) Dict.all_empty h
  have hfinite : e.Finite b.clock := (hkept k e hget).2
  refine ⟨hfinite.content hverdict hseq, fun hrisk => ?_⟩
  have hstamp : 0 < e.seqAt := hfinite.term hverdict hseq hrisk
  refine ⟨⟨hstamp, hfinite.stamp⟩, fun law now hterm hquiet => ?_⟩
  rw [Store.settleRecoveryAt, Dict.get?_mapVals, hget]
  exact congrArg some (Entry.sequestrated_settle hseq hverdict hrisk hstamp hterm hquiet)

/-- The turns of the examples, under the shipped law. -/
def plainTurn (now : UInt64) (change : Change) : Turn := ⟨Call.shippedLaw, now, change⟩

def pest : Str := "pest.example".toList

/-- A tracker loses its licence at once, is pinned and unpinned, and the process restarts. -/
def closedTurns : List Turn :=
  [plainTurn 1 (.record pest ⟨.tracker, 99, []⟩ .suffix), plainTurn 2 (.setVerdict pest 2),
    plainTurn 3 (.setVerdict pest 0), plainTurn 4 .reload]

def closedRow : Entry := ⟨pest, .tracker, .suffix, 1, 0, 1, 3, 1, none, true, .neutral, 1⟩

/-- It is free again when the term is over. -/
theorem closed_tracker_is_freed :
    let b := closedTurns.foldl Book.turn {}
    Machine.Along Book.turn (fun b t => Timely b t ∧ Spares b t) {} closedTurns ∧
      b.store.byHost.get? pest = some closedRow ∧
      ((b.store.settleRecoveryAt Call.shippedLaw 86401).byHost.get? pest).map
        Entry.sequestrated = some false := by
  have halong : Machine.Along Book.turn (fun b t => Timely b t ∧ Spares b t) {} closedTurns := by
    decide +kernel
  have hget : (closedTurns.foldl Book.turn {}).store.byHost.get? pest = some closedRow := by
    decide +kernel
  have hends := sequestration_ends closedTurns halong pest closedRow hget rfl rfl
  exact ⟨halong, hget, (hends.2 rfl).2 Call.shippedLaw 86401 (by decide) (by decide)⟩

/-- A pin that is set and taken away leaves a tracker sequestrated without a stamp, and the
pass does not free it after thirty years; and it leaves a content host sequestrated. -/
theorem lifted_pin_never_ends :
    let b := [plainTurn 1 (.setVerdict pest 2), plainTurn 2 (.setVerdict pest 0)].foldl
      Book.turn {}
    let c := [plainTurn 1 (.record pest ⟨.cdn, 1, []⟩ .centauri),
      plainTurn 2 (.setVerdict pest 2), plainTurn 3 (.setVerdict pest 0)].foldl Book.turn {}
    (b.store.byHost.get? pest).map (fun e => (e.verdict, e.sequestrated, e.risk, e.seqAt)) =
        some (.neutral, true, .tracker, 0) ∧
      ((b.store.settleRecoveryAt Call.shippedLaw 1000000000).byHost.get? pest).map
        Entry.sequestrated = some true ∧
      (c.store.byHost.get? pest).map (fun e => (e.verdict, e.sequestrated, e.source)) =
        some (.neutral, true, .centauri) := by
  decide +kernel

end Underground
end TortaCore
