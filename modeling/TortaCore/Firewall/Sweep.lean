import TortaCore.Firewall.Engine

/-!
# Pauses that are over

The cascade has no clock: any pause that is set counts.  The object in front of the warden
(`warden/object.rs`) ends the pauses that are over, at most once a minute, on the way to a
verdict.  A call claims its minute before it has looked at the facts of the connection, and
returns without the sweep when the address in them does not parse.

Time is the wall clock in milliseconds, handed to each call.

## Main definitions

* `WardenConnFacts`, `WardenObject`, `WardenObject.verdict`, `WardenObject.verdictInternal`.
* `ObjectCall`, `WardenObject.step`: the calls that matter to a pause.
* `WardenObject.InTime`: the row a verdict reads has no pause that was over a minute ago.
* `WardenObject.Heeds`: the call does not give a needed sweep away.
-/

namespace TortaCore
namespace Firewall

open Text Store Net List

/-! ### The object -/

/-- The facts of a connection as they cross the bridge: the address is text. -/
structure WardenConnFacts where
  uid : UInt32
  daddr : Str
  dport : UInt16
  proto : UInt8
  qname : Option Str
  net : NetworkType
  dnsBlocked : Bool
  deriving DecidableEq

def WardenConnFacts.toInternal (conn : WardenConnFacts) : Option ConnFacts :=
  (IpAddr.parse conn.daddr).map fun daddr =>
    ⟨conn.uid, daddr, conn.dport, conn.proto, conn.qname, conn.net, conn.dnsBlocked⟩

/-- The verdict as it crosses the bridge; the last one is for the caller to set. -/
inductive WardenVerdict where
  | allow
  | denyByFirewall
  | denyByBlocklist
  deriving DecidableEq

def WardenVerdict.fromInternal : Verdict → WardenVerdict
  | .allow => .allow
  | .deny => .denyByFirewall

structure WardenObject (hash : CacheKey → ℕ) where
  engine : Warden hash
  /-- When the last sweep was claimed; zero for never. -/
  lastTempSweepMs : ℕ := 0

def tempAllowSweepIntervalMs : ℕ := 60000

namespace WardenObject

variable {hash : CacheKey → ℕ}

/-- Claim the sweep if it is due. -/
def tempAllowSweepDue (o : WardenObject hash) (nowMs : ℕ) : Option ℕ × WardenObject hash :=
  if nowMs - o.lastTempSweepMs < tempAllowSweepIntervalMs then (none, o)
  else (some nowMs, { o with lastTempSweepMs := nowMs })

/-- The warden after the sweep, if there is one. -/
def swept (o : WardenObject hash) : Option ℕ → Warden hash
  | some nowMs => (o.engine.expireTempAllows nowMs).2
  | none => o.engine

section Verdict

variable (country : IpAddr → Option (UInt8 × UInt8))

/-- `WardenObject::verdict`. -/
def verdict (o : WardenObject hash) (nowMs : ℕ) (conn : WardenConnFacts) (epoch : ℕ) :
    WardenVerdict × WardenObject hash :=
  let (sweepNow, o) := o.tempAllowSweepDue nowMs
  match conn.toInternal with
  -- facts that cannot be judged are denied, before the sweep
  | none => (.fromInternal .deny, o)
  | some internal =>
    let (v, engine) := (o.swept sweepNow).verdictAt country internal epoch
    (.fromInternal v, { o with engine := engine })

/-- `WardenObject::verdict_internal`: the same for the tunnel, which has the address. -/
def verdictInternal (o : WardenObject hash) (nowMs : ℕ) (conn : ConnFacts) (epoch : ℕ) :
    Verdict × WardenObject hash :=
  let (sweepNow, o) := o.tempAllowSweepDue nowMs
  let (v, engine) := (o.swept sweepNow).verdictAt country conn epoch
  (v, { o with engine := engine })

end Verdict

def setAppRow (o : WardenObject hash) (row : AppMatrixRow) : WardenObject hash :=
  { o with engine := o.engine.setAppRow row }

end WardenObject

/-! ### Calls -/

/-- The calls that read or set a pause, each with its time. -/
inductive ObjectCall where
  | verdict (nowMs : ℕ) (conn : WardenConnFacts) (epoch : ℕ)
  | verdictInternal (nowMs : ℕ) (conn : ConnFacts) (epoch : ℕ)
  | setAppRow (nowMs : ℕ) (row : AppMatrixRow)

namespace ObjectCall

def time : ObjectCall → ℕ
  | .verdict nowMs _ _ => nowMs
  | .verdictInternal nowMs _ _ => nowMs
  | .setAppRow nowMs _ => nowMs

/-- The connection the cascade is asked about, if it gets that far. -/
def judges : ObjectCall → Option ConnFacts
  | .verdict _ conn _ => conn.toInternal
  | .verdictInternal _ conn _ => some conn
  | .setAppRow _ _ => none

/-- A pause that is granted ends later than it is granted. -/
def GrantsAhead : ObjectCall → Prop
  | .setAppRow nowMs row => row.tempAllowUntil = 0 ∨ nowMs < row.tempAllowUntil
  | _ => True

/-- The clock does not run back, from time `t` on. -/
def ClockFrom : ℕ → List ObjectCall → Prop
  | _, [] => True
  | t, call :: calls => t ≤ call.time ∧ ClockFrom call.time calls

end ObjectCall

namespace WardenObject

variable {hash : CacheKey → ℕ} (country : IpAddr → Option (UInt8 × UInt8))

def step (o : WardenObject hash) : ObjectCall → WardenObject hash
  | .verdict nowMs conn epoch => (o.verdict country nowMs conn epoch).2
  | .verdictInternal nowMs conn epoch => (o.verdictInternal country nowMs conn epoch).2
  | .setAppRow _ row => o.setAppRow row

/-- The warden that the cascade runs on at a time: swept if a sweep is due. -/
def judge (o : WardenObject hash) (nowMs : ℕ) : Warden hash :=
  (o.tempAllowSweepDue nowMs).2.swept (o.tempAllowSweepDue nowMs).1

/-- The verdict reads no row whose pause was over a sweep interval ago. -/
def InTime (o : WardenObject hash) (call : ObjectCall) : Prop :=
  ∀ conn row, call.judges = some conn → (o.judge call.time).matrix.get conn.uid = some row →
    ¬ (0 < row.tempAllowUntil ∧ row.tempAllowUntil + tempAllowSweepIntervalMs ≤ call.time)

/-- Every verdict of the run is in time. -/
def AllInTime (o : WardenObject hash) : List ObjectCall → Prop
  | [] => True
  | call :: calls => o.InTime call ∧ AllInTime (o.step country call) calls

/-- No pause of the matrix is over before a time. -/
def NoPauseBefore (o : WardenObject hash) (t : ℕ) : Prop :=
  ∀ uid row, o.engine.matrix.get uid = some row →
    row.tempAllowUntil = 0 ∨ t ≤ row.tempAllowUntil

/-- A call whose facts do not parse comes when no sweep is due, or when there is nothing to
sweep. -/
def Heeds (o : WardenObject hash) : ObjectCall → Prop
  | .verdict nowMs conn _ => conn.toInternal = none →
      nowMs - o.lastTempSweepMs < tempAllowSweepIntervalMs ∨ o.NoPauseBefore nowMs
  | _ => True

def AllHeed (o : WardenObject hash) : List ObjectCall → Prop
  | [] => True
  | call :: calls => o.Heeds call ∧ AllHeed (o.step country call) calls

/-! ### The sweep -/

theorem matrix_expireTempAllows (w : Warden hash) (nowMs : ℕ) :
    (w.expireTempAllows nowMs).2.matrix = (w.matrix.expireTempAllows nowMs).2 := by
  rw [Warden.expireTempAllows]
  dsimp only
  split
  · rfl
  · rfl

/-- After a sweep every pause that is left ends later. -/
theorem pause_of_get_swept {w : Warden hash} {nowMs : ℕ} {uid : UInt32} {row : AppMatrixRow}
    (h : (w.expireTempAllows nowMs).2.matrix.get uid = some row) :
    row.tempAllowUntil = 0 ∨ nowMs < row.tempAllowUntil := by
  rw [matrix_expireTempAllows, AppMatrix.get, AppMatrix.expireTempAllows, Dict.get?_mapVals] at h
  obtain ⟨old, -, hold⟩ := Option.map_eq_some_iff.mp h
  by_cases hlapsed : AppMatrix.lapsed nowMs old = true
  · rw [if_pos hlapsed] at hold
    exact .inl (by rw [← hold])
  · rw [if_neg hlapsed] at hold
    subst hold
    simp only [AppMatrix.lapsed, AppMatrixRow.tempAllowActive, Bool.and_eq_true, bne_iff_ne,
      Bool.not_eq_true', Bool.and_eq_false_iff, decide_eq_false_iff_not] at hlapsed
    omega

theorem verdictAt_matrix (w : Warden hash) (conn : ConnFacts) (epoch : ℕ) :
    (w.verdictAt country conn epoch).2.matrix = w.matrix :=
  congrArg Posture.matrix (w.verdictAt_eq_ask country conn epoch).1

/-! ### The invariant -/

/-- The last sweep is not after `t`, and no pause was over before it. -/
structure Swept (o : WardenObject hash) (t : ℕ) : Prop where
  claimed : o.lastTempSweepMs ≤ t
  pauses : o.NoPauseBefore o.lastTempSweepMs

namespace Swept

variable {o : WardenObject hash} {t : ℕ}

/-- What a verdict leaves behind: a sweep that was due is done. -/
theorem afterVerdict (h : o.Swept t) {nowMs : ℕ} (ht : t ≤ nowMs) {engine : Warden hash}
    (hengine : engine.matrix = (o.judge nowMs).matrix) :
    Swept { (o.tempAllowSweepDue nowMs).2 with engine := engine } nowMs := by
  rw [judge, tempAllowSweepDue] at hengine
  rw [tempAllowSweepDue]
  by_cases hdue : nowMs - o.lastTempSweepMs < tempAllowSweepIntervalMs
  · rw [if_pos hdue] at hengine ⊢
    refine ⟨h.claimed.trans ht, fun uid row hrow => ?_⟩
    rw [hengine] at hrow
    exact h.pauses uid row hrow
  · rw [if_neg hdue] at hengine ⊢
    refine ⟨le_rfl, fun uid row hrow => ?_⟩
    rw [hengine] at hrow
    exact (pause_of_get_swept hrow).imp_right le_of_lt

/-- What a call with facts that do not parse leaves behind. -/
theorem afterMalformed (h : o.Swept t) {nowMs : ℕ} (ht : t ≤ nowMs)
    (hheeds : nowMs - o.lastTempSweepMs < tempAllowSweepIntervalMs ∨ o.NoPauseBefore nowMs) :
    Swept (o.tempAllowSweepDue nowMs).2 nowMs := by
  rw [tempAllowSweepDue]
  by_cases hdue : nowMs - o.lastTempSweepMs < tempAllowSweepIntervalMs
  · rw [if_pos hdue]
    exact ⟨h.claimed.trans ht, h.pauses⟩
  · rw [if_neg hdue]
    exact ⟨le_rfl, hheeds.resolve_left hdue⟩

theorem afterSetAppRow (h : o.Swept t) {nowMs : ℕ} (ht : t ≤ nowMs) {row : AppMatrixRow}
    (hrow : row.tempAllowUntil = 0 ∨ nowMs < row.tempAllowUntil) :
    Swept (o.setAppRow row) nowMs := by
  refine ⟨h.claimed.trans ht, fun uid old hold => ?_⟩
  have hget : (o.setAppRow row).engine.matrix.get uid =
      if row.uid = uid then some row else o.engine.matrix.get uid :=
    Dict.get?_set o.engine.matrix.rows row.uid uid row
  rw [hget] at hold
  split at hold
  · cases hold
    exact hrow.imp_right fun hlt => (h.claimed.trans ht).trans hlt.le
  · exact h.pauses uid old hold

theorem step (h : o.Swept t) {call : ObjectCall} (ht : t ≤ call.time)
    (hgrant : call.GrantsAhead) (hheeds : o.Heeds call) :
    Swept (o.step country call) call.time := by
  cases call with
  | verdict nowMs conn epoch =>
    rw [WardenObject.step, verdict]
    cases hconn : conn.toInternal with
    | none => exact h.afterMalformed ht (hheeds hconn)
    | some internal => exact h.afterVerdict ht (verdictAt_matrix country _ internal epoch)
  | verdictInternal nowMs conn epoch =>
    exact h.afterVerdict ht (verdictAt_matrix country _ conn epoch)
  | setAppRow nowMs row => exact h.afterSetAppRow ht hgrant

theorem inTime (h : o.Swept t) {call : ObjectCall} : o.InTime call := by
  rintro conn row - hrow ⟨hpos, hlate⟩
  rw [judge, tempAllowSweepDue] at hrow
  by_cases hdue : call.time - o.lastTempSweepMs < tempAllowSweepIntervalMs
  · rw [if_pos hdue] at hrow
    have hpause := h.pauses conn.uid row hrow
    omega
  · rw [if_neg hdue] at hrow
    have hpause := pause_of_get_swept hrow
    omega

theorem allInTime {calls : List ObjectCall} : ∀ {o : WardenObject hash} {t : ℕ}, o.Swept t →
    ObjectCall.ClockFrom t calls → (∀ call ∈ calls, call.GrantsAhead) →
    o.AllHeed country calls → o.AllInTime country calls := by
  induction calls with
  | nil => intros; trivial
  | cons call calls ih =>
    intro o t h hclock hgrants hheed
    have hgrant := hgrants call mem_cons_self
    refine ⟨h.inTime, ih (h.step country hclock.1 hgrant hheed.1) hclock.2 ?_ hheed.2⟩
    exact fun c hc => hgrants c (mem_cons_of_mem _ hc)

end Swept

/-- **A pause ends in time**: over every run from an object without a pause, with a clock
that does not run back, grants that end later than they are made, and no sweep given away,
no verdict reads a row whose pause was over a minute ago. -/
theorem pauses_end (o : WardenObject hash) (calls : List ObjectCall)
    (hstart : ∀ uid row, o.engine.matrix.get uid = some row → row.tempAllowUntil = 0)
    (hclock : ObjectCall.ClockFrom o.lastTempSweepMs calls)
    (hgrants : ∀ call ∈ calls, call.GrantsAhead) (hheed : o.AllHeed country calls) :
    o.AllInTime country calls :=
  Swept.allInTime country ⟨le_rfl, fun uid row hrow => .inl (hstart uid row hrow)⟩ hclock hgrants
    hheed

/-- The condition is needed: a call that gives a needed sweep away is followed, within the
minute, by a verdict that would not be in time. -/
theorem heeds_or_late (o : WardenObject hash) (nowMs epoch : ℕ) (conn : WardenConnFacts) :
    o.Heeds (.verdict nowMs conn epoch) ∨
      ∃ call : ObjectCall, call.time < nowMs + tempAllowSweepIntervalMs ∧ nowMs ≤ call.time ∧
        ¬ (o.step country (.verdict nowMs conn epoch)).InTime call := by
  refine or_iff_not_imp_left.mpr fun h => ?_
  simp only [Heeds, NoPauseBefore, Classical.not_imp, not_or, not_forall] at h
  obtain ⟨hconn, hdue, uid, row, hrow, hpause, hover⟩ := h
  -- the window is claimed and nothing is swept
  have hstep : o.step country (.verdict nowMs conn epoch) =
      { o with lastTempSweepMs := nowMs } := by
    simp only [step, verdict, hconn, tempAllowSweepDue, if_neg hdue]
  let late : ConnFacts := ⟨uid, .v4 ⟨0, 0, 0, 0⟩, 0, 0, none, .wifi, false⟩
  refine ⟨.verdictInternal (nowMs + 59999) late 0, ?_, Nat.le_add_right _ _, fun hin => ?_⟩
  · exact Nat.add_lt_add_left (by decide) nowMs
  · refine hin late row rfl ?_ ⟨Nat.pos_of_ne_zero hpause, ?_⟩
    · have hsoon : nowMs + 59999 - nowMs < tempAllowSweepIntervalMs := by
        rw [Nat.add_sub_cancel_left]
        decide
      rw [hstep, judge, tempAllowSweepDue, ObjectCall.time, if_pos hsoon]
      exact hrow
    · rw [ObjectCall.time, tempAllowSweepIntervalMs]
      omega

/-! ### A minute given away -/

/-- App 10 connects over Wi-Fi. -/
def wifiConn (daddr : Str) : WardenConnFacts := ⟨10, daddr, 443, 6, none, .wifi, false⟩

/-- App 10 is isolated, with a pause of a millisecond. -/
def pausedRow : AppMatrixRow := ⟨10, .isolate, .allow, 1⟩

/-- The pause is over at the first sweep, and the call with no address comes after it. -/
theorem pauses_end_swept :
    AllInTime (fun _ => none) ⟨Warden.withCacheCap (fun _ => 0) 16, 0⟩
      [.setAppRow 0 pausedRow, .verdict 60000 (wifiConn "192.0.2.1".toList) 0,
        .verdict 60001 (wifiConn "192.0.2.".toList) 0] := by
  have hgood : (wifiConn "192.0.2.1".toList).toInternal ≠ none := by decide +kernel
  refine pauses_end (fun _ => none) _ _ (fun uid row hrow => by cases hrow)
    ⟨le_rfl, by decide, by decide, trivial⟩ ?_ ⟨trivial, fun hbad => (hgood hbad).elim, ?_, trivial⟩
  · intro call hcall
    simp only [mem_cons, not_mem_nil, or_false] at hcall
    obtain rfl | rfl | rfl := hcall
    · exact .inr (by decide)
    · trivial
    · trivial
  · exact fun _ => .inl (by decide +kernel)

/-- The call with no address comes first and takes the minute: the next verdict allows an
isolated app on a pause that was over a minute ago. -/
theorem pause_outlives_minute :
    let o : WardenObject (fun _ => 0) := ⟨Warden.withCacheCap (fun _ => 0) 16, 0⟩
    let late := (o.step (fun _ => none) (.setAppRow 0 pausedRow)).step (fun _ => none)
      (.verdict 60000 (wifiConn "192.0.2.".toList) 0)
    ¬ o.AllInTime (fun _ => none) [.setAppRow 0 pausedRow,
        .verdict 60000 (wifiConn "192.0.2.".toList) 0,
        .verdict 60001 (wifiConn "192.0.2.1".toList) 0] ∧
      (late.verdict (fun _ => none) 60001 (wifiConn "192.0.2.1".toList) 0).1 = .allow := by
  intro o late
  constructor
  · rintro ⟨-, -, hlast, -⟩
    refine hlast ⟨10, .v4 ⟨192, 0, 2, 1⟩, 443, 6, none, .wifi, false⟩ pausedRow ?_ ?_ ?_
    · decide +kernel
    · decide +kernel
    · decide
  · decide +kernel

end WardenObject

end Firewall
end TortaCore
