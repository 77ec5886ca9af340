import TortaCore.Text.Number
import TortaCore.Underground.Score

/-!
# The licences

Every host that had an accident has a row with a licence (`underground.rs`): accidents take
points from it, idle time gives them back, and a licence without points is sequestrated.  The
user may pin a host as trusted or distrusted, and take the pin away again.

## Main definitions

* `Entry`, `Store`: a row, and the store of all of them with its totals.
* `deduct`, `Store.recordScoredAt`, `Store.setVerdict`, `Store.settleRecoveryAt`,
  `Store.teethGate`: what changes a row.
* `Engine.feed`, `Engine.setVerdict`: the entry points, with what they read and learn.
-/

namespace TortaCore
namespace Underground

open Text Store Mirror

/-! ### The code -/

def recoveryIdleSecs : ℕ := 30

def recoveryStep : Int32 := 1

def persistMinGapSecs : ℕ := 5

def Verdict.fromCode (code : ℕ) : Verdict :=
  match code with
  | 1 => .trusted
  | 2 => .distrusted
  | _ => .neutral

structure Entry where
  host : Str
  risk : Risk
  source : Source
  hits : UInt64
  points : Int32
  firstSeen : UInt64
  lastSeen : UInt64
  lastHeal : UInt64
  country : Option (UInt8 × UInt8)
  sequestrated : Bool
  verdict : Verdict
  /-- When the automatic sequestration closed; zero if it did not. -/
  seqAt : UInt64
  deriving DecidableEq

/-- A host that was not there before. -/
def Entry.fresh (host : Str) (risk : Risk) (source : Source) (start : Int32) (now : UInt64) :
    Entry :=
  ⟨host, risk, source, 0, start, now, now, now, none, false, .neutral, 0⟩

/-- The penalty of one accident. -/
def deduct (law : Law) (e : Entry) (weight : Int32) (now : UInt64) : Entry :=
  match e.verdict with
  | .trusted => { e with points := law.licenceStartFor e.host, sequestrated := false }
  | .distrusted => { e with points := 0, sequestrated := true }
  | .neutral =>
    let penalty := if e.points ≤ law.probationAtFor e.host then weight * 2 else weight
    let points := max (e.points - penalty) 0
    if points = 0 ∧ e.source ≠ .centauri then
      -- the clock is stamped once, when the licence closes
      { e with points := points, seqAt := if e.sequestrated then e.seqAt else now,
               sequestrated := true }
    else { e with points := points }

def isDuplicateProbe (firstWitness : Bool) (priorSeen now : UInt64) : Bool :=
  !firstWitness && priorSeen == now

def cloakIsImmune (source : Source) : Bool := source = .centauri

/-- What an accident does to the row of its host. -/
def Entry.witness (law : Law) (e : Entry) (weight : Int32) (now : UInt64) : Entry :=
  let seen := { e with hits := e.hits + 1, lastSeen := now }
  if isDuplicateProbe (e.hits == 0) e.lastSeen now || cloakIsImmune e.source then seen
  else deduct law seen weight now

/-- What a pin does to the row of its host; taking it away leaves the licence as it is. -/
def Entry.pin (start : Int32) (e : Entry) (verdict : Verdict) (now : UInt64) : Entry :=
  let pinned := { e with verdict := verdict, lastSeen := now }
  match verdict with
  | .trusted => { pinned with sequestrated := false, points := start }
  | .distrusted => { pinned with sequestrated := true, points := 0 }
  | .neutral => pinned

/-- The sequestration has been served and the last quarter of it was quiet. -/
def Entry.Retests (law : Law) (e : Entry) (now : UInt64) : Bool :=
  e.sequestrated && !e.risk.isActiveDestroy && e.verdict = .neutral && 0 < e.seqAt.toNat &&
    saturatingAdd e.seqAt.toNat law.cfg.ttlSecs.toNat ≤ now.toNat &&
    law.cfg.ttlSecs.toNat / 4 ≤ now.toNat - e.lastSeen.toNat

/-- One turn of the loop over the rows: the row and the points given back. -/
def Entry.settle (law : Law) (now : UInt64) (e : Entry) : Entry × UInt64 :=
  let start := law.licenceStartFor e.host
  if e.Retests law now then
    ({ e with sequestrated := false, seqAt := 0, points := start, lastHeal := now },
      UInt64.ofNat (max (start - e.points) 0).toInt.toNat)
  else if e.sequestrated || e.risk.isActiveDestroy || start ≤ e.points then (e, 0)
  else if recoveryIdleSecs ≤ now.toNat - max e.lastSeen.toNat e.lastHeal.toNat then
    ({ e with points := min (e.points + recoveryStep) start, lastHeal := now },
      UInt64.ofNat recoveryStep.toInt.toNat)
  else (e, 0)

structure Store where
  byHost : Dict Str Entry := .empty
  recordedTotal : UInt64 := 0
  recoveredTotal : UInt64 := 0
  teethTotal : UInt64 := 0

namespace Store

def recordScoredAt (law : Law) (s : Store) (host : Str) (score : ThreatScore) (source : Source)
    (now : UInt64) : Store :=
  let key := normalizeHost host
  if key = [] then s
  else
    let e := (s.byHost.get? key).getD
      (.fresh key score.risk source (law.licenceStartFor key) now)
    { s with byHost := s.byHost.set key (e.witness law score.weight now)
             recordedTotal := s.recordedTotal + 1 }

/-- A host that was never seen may be pinned. -/
def setVerdict (law : Law) (s : Store) (host : Str) (verdict : Verdict) (now : UInt64) : Store :=
  let key := normalizeHost host
  if key = [] then s
  else
    let start := law.licenceStartFor key
    let e := (s.byHost.get? key).getD (.fresh key .tracker .suffix start now)
    { s with byHost := s.byHost.set key (e.pin start verdict now) }

def settleRecoveryAt (law : Law) (s : Store) (now : UInt64) : Store :=
  { s with
    byHost := s.byHost.mapVals fun e => (e.settle law now).1
    recoveredTotal := s.recoveredTotal +
      (s.byHost.rows.map fun r => (r.2.settle law now).2).foldl (· + ·) 0 }

/-- Whether the teeth bite; a bite is counted. -/
def teethGate (s : Store) (host : Str) : Bool × Store :=
  match s.byHost.get? (normalizeHost host) with
  | some e =>
    if e.verdict = .distrusted ∨ e.verdict = .neutral ∧ e.sequestrated = true then
      (true, { s with teethTotal := s.teethTotal + 1 })
    else (false, s)
  | none => (false, s)

end Store

/-! The entry points. -/

structure Engine where
  store : Store := {}
  detectors : Detectors := {}
  reputation : Dict Str Rep := .empty
  cfg : ScoringCfg := {}
  armed : Bool := true
  lastTick : UInt64 := 0

/-- What the outside is at a call: the clock, the cloak, the label faculties, and the
operator's file if it has changed. -/
structure World where
  now : UInt64
  isCdnHost : Str → Bool
  faculties : Faculties
  reload : Option ScoringCfg

namespace Engine

def law (g : Engine) (w : World) : Law := ⟨g.cfg, g.reputation, w.isCdnHost, w.faculties⟩

/-- The teeth of a sequestrated host are not heard as a new accident. -/
def echoes (g : Engine) (host : Str) (event : NavEvent) : Bool :=
  event = .blocked && (g.store.byHost.get? host).any fun e =>
    e.sequestrated && e.verdict = .neutral

/-- The pass that rides on the traffic. -/
def tick (g : Engine) (w : World) : Engine :=
  if persistMinGapSecs ≤ w.now.toNat - g.lastTick.toNat then
    let g := { g with cfg := w.reload.getD g.cfg, lastTick := w.now }
    { g with store := g.store.settleRecoveryAt (g.law w) w.now }
  else g

def feed (g : Engine) (w : World) (qname : Str) (qtype : ℕ) (event : NavEvent)
    (answerLen rcode : ℕ) : Engine :=
  let host := normalizeHost qname
  if !g.armed || g.echoes host event then g
  else
    let r := scoreHost (g.law w) g.detectors host qtype event answerLen rcode w.now.toNat
    let source := ((classify w.isCdnHost host qtype event).map Prod.snd).getD .suffix
    let store := match r.1 with
      | some score => g.store.recordScoredAt (g.law w) host score source w.now
      | none => g.store
    tick { g with store := store, detectors := r.2 } w

/-- What a changed pin teaches about the host. -/
def learn (g : Engine) (host : Str) (delta : Int32) : Engine :=
  let key := normalizeHost host
  if key = [] then g
  else
    let row := (g.reputation.get? key).getD ⟨0, none, none, false⟩
    let taught := { row with baseline := min (max (row.baseline + delta) (-10)) 10
                             corrected := true }
    { g with reputation := g.reputation.set key taught }

def setVerdict (g : Engine) (w : World) (host : Str) (code : ℕ) : Engine :=
  let key := normalizeHost host
  if !g.armed || key = [] then g
  else
    let verdict := Verdict.fromCode code
    let previous := ((g.store.byHost.get? key).map Entry.verdict).getD .neutral
    let g := { g with store := g.store.setVerdict (g.law w) host verdict w.now }
    if previous = verdict then g
    else g.learn key (match verdict with
      | .trusted => -3
      | .distrusted => 3
      | .neutral => 0)

def teethGate (g : Engine) (host : Str) : Engine :=
  if g.armed then { g with store := (g.store.teethGate host).2 } else g

end Engine

inductive Act where
  | feed (w : World) (qname : Str) (qtype : ℕ) (event : NavEvent) (answerLen rcode : ℕ)
  | setVerdict (w : World) (host : Str) (code : ℕ)
  | teethGate (host : Str)

def Engine.apply (g : Engine) : Act → Engine
  | .feed w qname qtype event answerLen rcode => g.feed w qname qtype event answerLen rcode
  | .setVerdict w host code => g.setVerdict w host code
  | .teethGate host => g.teethGate host

def Engine.run (g : Engine) (acts : List Act) : Engine := acts.foldl Engine.apply g

/-! ### Properties of the rows -/

namespace Store

variable {P : Str → Entry → Prop} {law : Law} {s : Store}

theorem All.recordScoredAt (h : s.byHost.All P) {host : Str} {score : ThreatScore}
    {source : Source} {now : UInt64}
    (hfresh : normalizeHost host ≠ [] →
      P (normalizeHost host) (.fresh (normalizeHost host) score.risk source
        (law.licenceStartFor (normalizeHost host)) now))
    (hstep : ∀ e, P (normalizeHost host) e →
      P (normalizeHost host) (e.witness law score.weight now)) :
    (s.recordScoredAt law host score source now).byHost.All P := by
  simp only [Store.recordScoredAt]
  split
  · exact h
  · next hne => exact h.set (hstep _ (h.getD _ (hfresh hne)))

theorem All.setVerdict (h : s.byHost.All P) {host : Str} {verdict : Verdict} {now : UInt64}
    (hfresh : normalizeHost host ≠ [] → P (normalizeHost host)
      (.fresh (normalizeHost host) .tracker .suffix (law.licenceStartFor (normalizeHost host)) now))
    (hstep : ∀ e, P (normalizeHost host) e →
      P (normalizeHost host) (e.pin (law.licenceStartFor (normalizeHost host)) verdict now)) :
    (s.setVerdict law host verdict now).byHost.All P := by
  simp only [Store.setVerdict]
  split
  · exact h
  · next hne => exact h.set (hstep _ (h.getD _ (hfresh hne)))

theorem All.settleRecoveryAt (h : s.byHost.All P) {now : UInt64}
    (hstep : ∀ k e, P k e → P k (e.settle law now).1) :
    (s.settleRecoveryAt law now).byHost.All P :=
  Dict.All.mapVals h hstep

end Store

/-! ### What the updates leave alone -/

/-- The fields that no update changes. -/
def Entry.fixed (e : Entry) : Str × Risk × Source × Option (UInt8 × UInt8) :=
  (e.host, e.risk, e.source, e.country)

theorem fixed_deduct (law : Law) (e : Entry) (weight : Int32) (now : UInt64) :
    (deduct law e weight now).fixed = e.fixed := by
  unfold deduct
  split
  · rfl
  · rfl
  · extract_lets penalty points
    split <;> rfl

theorem fixed_witness (law : Law) (e : Entry) (weight : Int32) (now : UInt64) :
    (e.witness law weight now).fixed = e.fixed := by
  simp only [Entry.witness]
  split
  · rfl
  · exact fixed_deduct law _ weight now

theorem fixed_pin (start : Int32) (e : Entry) (verdict : Verdict) (now : UInt64) :
    (e.pin start verdict now).fixed = e.fixed := by
  cases verdict <;> rfl

theorem fixed_settle (law : Law) (now : UInt64) (e : Entry) :
    (e.settle law now).1.fixed = e.fixed := by
  simp only [Entry.settle]
  split
  · rfl
  · split
    · rfl
    · split <;> rfl

end Underground
end TortaCore
