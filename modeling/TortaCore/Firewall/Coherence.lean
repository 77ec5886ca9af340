import TortaCore.Firewall.Engine

/-!
# Coherence of the verdict cache

When the cache of the warden gives the verdict that the cascade would give.  Two things
can come between them.  The identity of a connection leaves out the resolver's flag, which
the last tier reads; and one mutator, the one that pauses the denies of an app, does not
empty the cache.

## Main definitions

* `Warden.callsAfter`: the calls since the cache was emptied.
* `Warden.Heeds`: a step that cannot leave a verdict behind.
-/

namespace TortaCore
namespace Firewall

open Text Store Net

section Country

variable (country : IpAddr → Option (UInt8 × UInt8))

/-! ### The resolver's flag -/

/-- Connections of one identity get one verdict, unless their flags differ and count. -/
theorem uncachedVerdict_eq_iff {p : Posture} {a b : ConnFacts}
    (h : CacheKey.fromConn a = CacheKey.fromConn b) :
    uncachedVerdict country p a = uncachedVerdict country p b ↔
      a.dnsBlocked = b.dnsBlocked ∨ ¬ ReachesBlocklist country p b := by
  obtain ⟨uid, daddr, dport, proto, qname, net, flag⟩ := a
  obtain ⟨uid', daddr', dport', proto', qname', net', flag'⟩ := b
  cases h
  -- the tiers before the flag do not read it
  have hreach : ReachesBlocklist country p ⟨uid, daddr, dport, proto, qname, net, flag⟩ ↔
      ReachesBlocklist country p ⟨uid, daddr, dport, proto, qname, net, flag'⟩ := Iff.rfl
  rw [uncachedVerdict_eq, uncachedVerdict_eq]
  by_cases hr : ReachesBlocklist country p ⟨uid, daddr, dport, proto, qname, net, flag'⟩
  · rw [if_pos (hreach.mpr hr), if_pos hr]
    cases flag <;> cases flag' <;> simp [hr]
  · rw [if_neg fun h => hr (hreach.mp h), if_neg hr]
    exact iff_of_true rfl (.inr hr)

/-- If the last call of the same identity was at the same epoch, it had the same flag, or
the flag does not count. -/
def FlagAgrees (p : Posture) (log : List (ConnFacts × ℕ)) (conn : ConnFacts) (epoch : ℕ) : Prop :=
  ∀ conn', lastAsked CacheKey.fromConn (CacheKey.fromConn conn) log = some (conn', epoch) →
    conn'.dnsBlocked = conn.dnsBlocked ∨ ¬ ReachesBlocklist country p conn

theorem agreesWith_iff (p : Posture) (log : List (ConnFacts × ℕ)) (conn : ConnFacts) (epoch : ℕ) :
    AgreesWith (uncachedVerdict country p) CacheKey.fromConn log conn epoch ↔
      FlagAgrees country p log conn epoch := by
  refine forall_congr' fun conn' => imp_congr_right fun hlast => ?_
  exact uncachedVerdict_eq_iff country (lastAsked_eq_some hlast).2

/-- The flags of a sequence of calls, the last of them in `log`. -/
def FlagsAgree (p : Posture) (log : List (ConnFacts × ℕ)) : List (ConnFacts × ℕ) → Prop
  | [] => True
  | (conn, epoch) :: calls =>
    FlagAgrees country p log conn epoch ∧ FlagsAgree p ((conn, epoch) :: log) calls

theorem agrees_iff (p : Posture) (calls : List (ConnFacts × ℕ)) :
    ∀ log, Agrees (uncachedVerdict country p) CacheKey.fromConn log calls ↔
      FlagsAgree country p log calls := by
  induction calls with
  | nil => intro log; rfl
  | cons call calls ih =>
    intro log
    exact and_congr (agreesWith_iff country p log call.1 call.2) (ih _)

/-! ### Calls without a change of the posture -/

namespace Warden

variable {hash : CacheKey → ℕ}

/-- A warden with this posture and an empty cache. -/
def armed (hash : CacheKey → ℕ) (cap : ℕ) (p : Posture) : Warden hash :=
  { withCacheCap hash cap with toPosture := p }

/-- The verdicts of a sequence of calls. -/
def verdicts (w : Warden hash) : List (ConnFacts × ℕ) → List Verdict
  | [] => []
  | (conn, epoch) :: calls =>
    let (v, w) := w.verdictAt country conn epoch
    v :: w.verdicts calls

theorem verdicts_eq_askAll (calls : List (ConnFacts × ℕ)) (w : Warden hash) :
    w.verdicts country calls =
      (w.cache.askAll (uncachedVerdict country w.toPosture) CacheKey.fromConn calls).1 := by
  induction calls generalizing w with
  | nil => rfl
  | cons call calls ih =>
    obtain ⟨hposture, hask⟩ := w.verdictAt_eq_ask country call.1 call.2
    show (w.verdictAt country call.1 call.2).1 ::
      (w.verdictAt country call.1 call.2).2.verdicts country calls = _
    rw [ih, hposture, MemoTable.askAll, ← hask]

/-- **When the cache is transparent**: for every hash and capacity, a sequence of calls gets
the verdicts of the cascade exactly when the flags agree. -/
theorem verdicts_eq_iff (p : Posture) (calls : List (ConnFacts × ℕ)) :
    (∀ (hash : CacheKey → ℕ) (cap : ℕ),
      (armed hash cap p).verdicts country calls =
        calls.map fun call => uncachedVerdict country p call.1) ↔
    FlagsAgree country p [] calls := by
  rw [← agrees_iff, ← MemoTable.transparent_iff]
  refine forall_congr' fun hash => forall_congr' fun cap => ?_
  rw [verdicts_eq_askAll]
  rfl

/-! ### A verdict that ignores the flag -/

/-- A TCP connection of app 10 to 198.51.100.7, port 443, over Wi-Fi. -/
def plainConn : ConnFacts where
  uid := 10
  daddr := .v4 ⟨198, 51, 100, 7⟩
  dport := 443
  proto := 6
  qname := none
  net := .wifi
  dnsBlocked := false

/-- The second call has the resolver's flag, and gets the verdict of the first. -/
theorem verdicts_flag_ignored :
    (armed (fun k => k.uid.toNat) 4096 {}).verdicts (fun _ => none)
        [(plainConn, 1), ({ plainConn with dnsBlocked := true }, 1)] = [.allow, .allow] ∧
      uncachedVerdict (fun _ => none) {} { plainConn with dnsBlocked := true } = .deny := by
  decide +kernel

end Warden

/-! ### Pauses -/

/-- The pause of the app is set. -/
def Paused (p : Posture) (uid : UInt32) : Prop :=
  ∃ row, p.matrix.get uid = some row ∧ row.tempAllowUntil ≠ 0

/-- Only the mode of the app and the tier of its row can make a difference between two
postures that differ in the matrix. -/
theorem uncachedVerdict_congr {p : Posture} {m : AppMatrix} {conn : ConnFacts}
    (hmode : appMode { p with matrix := m } conn.uid = appMode p conn.uid)
    (happ : checkPerApp p conn (m.get conn.uid) = checkPerApp p conn (p.matrix.get conn.uid)) :
    uncachedVerdict country { p with matrix := m } conn = uncachedVerdict country p conn := by
  have htier : firewallTier country { p with matrix := m } conn = firewallTier country p conn := by
    have htoggles : checkUniversalToggles { p with matrix := m } conn (appMode p conn.uid) =
        checkUniversalToggles p conn (appMode p conn.uid) := rfl
    have hper : checkPerApp { p with matrix := m } conn (m.get conn.uid) =
        checkPerApp p conn (m.get conn.uid) := rfl
    have hrules : checkUniversalRules country { p with matrix := m } conn =
        checkUniversalRules country p conn := rfl
    simp only [firewallTier, hmode, htoggles, hper, happ, hrules]
  have hcascade : cascade country { p with matrix := m } conn = cascade country p conn := by
    rw [cascade, cascade, htier]
    cases firewallTier country p conn with
    | some tier => rfl
    | none =>
      by_cases hbypass : appMode p conn.uid = .bypassDnsFirewall
      · simp [hmode, hbypass]
      · simp [hmode, hbypass]
  rw [uncachedVerdict, uncachedVerdict, hcascade]

theorem get_grantTempAllow (m : AppMatrix) (uid uid' : UInt32) (expiresAtMs : ℕ) :
    (m.grantTempAllow uid expiresAtMs).get uid' =
      if uid = uid' then
        some { (m.get uid).getD (AppMatrixRow.new uid) with tempAllowUntil := expiresAtMs }
      else m.get uid' := by
  simp only [AppMatrix.grantTempAllow, AppMatrix.get, Dict.get?_set]

/-- A pause that is set as it was changes no verdict, and one of another app neither. -/
theorem uncachedVerdict_grantTempAllow {p : Posture} {uid : UInt32} {expiresAtMs : ℕ}
    {conn : ConnFacts} (h : (Paused p uid ↔ expiresAtMs ≠ 0) ∨ conn.uid ≠ uid) :
    uncachedVerdict country { p with matrix := p.matrix.grantTempAllow uid expiresAtMs } conn =
      uncachedVerdict country p conn := by
  have hget := get_grantTempAllow p.matrix uid conn.uid expiresAtMs
  by_cases huid : uid = conn.uid
  · obtain hpause | hne := h
    · rw [if_pos huid] at hget
      subst huid
      cases hrow : p.matrix.get conn.uid with
      | none =>
        -- a new row says nothing
        have hzero : expiresAtMs = 0 := by
          by_contra hne
          obtain ⟨row, hsome, -⟩ := hpause.mpr hne
          rw [hrow] at hsome
          cases hsome
        subst hzero
        refine uncachedVerdict_congr country ?_ ?_
        · simp [appMode, hget, hrow, AppMatrixRow.new]
        · simp [hget, hrow, checkPerApp, AppMatrixRow.new]
      | some row =>
        have hsame : row.tempAllowUntil ≠ 0 ↔ expiresAtMs ≠ 0 := by
          rw [← hpause]
          exact ⟨fun hne => ⟨row, hrow, hne⟩, fun ⟨row', hrow', hne⟩ => by
            rw [hrow] at hrow'
            cases hrow'
            exact hne⟩
        refine uncachedVerdict_congr country ?_ ?_
        · simp [appMode, hget, hrow]
        · simp only [hget, hrow, checkPerApp, Option.getD_some, hsame]
    · exact absurd huid.symm hne
  · rw [if_neg huid] at hget
    refine uncachedVerdict_congr country ?_ ?_
    · simp only [appMode, hget]
    · rw [hget]

/-- Nothing is over, so nothing changes. -/
theorem expireTempAllows_of_eq_zero {m : AppMatrix} {nowMs : ℕ}
    (h : (m.expireTempAllows nowMs).1 = 0) : (m.expireTempAllows nowMs).2 = m := by
  obtain ⟨⟨rows, hnodup⟩⟩ := m
  have hnone := List.countP_eq_zero.mp h
  simp only [AppMatrix.expireTempAllows, Dict.mapVals, AppMatrix.mk.injEq, Dict.mk.injEq]
  refine (List.map_congr_left fun r hr => ?_).trans (List.map_id rows)
  have hr : AppMatrix.lapsed nowMs r.2 = false := by simpa using hnone r hr
  simp [hr]

namespace Warden

variable {hash : CacheKey → ℕ}

/-! ### Steps -/

/-- The calls since the cache was last emptied, the latest first. -/
def callsAfter (w : Warden hash) (log : List (ConnFacts × ℕ)) : Action → List (ConnFacts × ℕ)
  | .verdict conn epoch => (conn, epoch) :: log
  | .setTempAllow _ _ => log
  | .expireTempAllows nowMs => if (w.expireTempAllows nowMs).1 > 0 then [] else log
  | .removeCidrRuleAt index => if (w.removeCidrRuleAt index).1 then [] else log
  | _ => []

/-- A step that cannot leave a verdict behind.  A call has the flag of the last call of its
identity, where the flag counts; a pause is set or ended before the calls of its app, or
changes nothing. -/
def Heeds (w : Warden hash) (log : List (ConnFacts × ℕ)) : Action → Prop
  | .verdict conn epoch => FlagAgrees country w.toPosture log conn epoch
  | .setTempAllow uid expiresAtMs =>
    (Paused w.toPosture uid ↔ expiresAtMs ≠ 0) ∨ ∀ call ∈ log, call.1.uid ≠ uid
  | _ => True

def AllHeed (w : Warden hash) (log : List (ConnFacts × ℕ)) : List Action → Prop
  | [] => True
  | a :: actions =>
    w.Heeds country log a ∧ (w.step country a).AllHeed (w.callsAfter log a) actions

/-- Every step empties the cache, or does nothing, or is a pause or a call. -/
theorem step_cases (w : Warden hash) (log : List (ConnFacts × ℕ)) (a : Action) :
    ((w.step country a).cache.slots.order = [] ∧ w.callsAfter log a = []) ∨
    (w.step country a = w ∧ w.callsAfter log a = log) ∨
    (∃ uid expiresAtMs, a = .setTempAllow uid expiresAtMs) ∨
    ∃ conn epoch, a = .verdict conn epoch := by
  cases a with
  | setTempAllow uid expiresAtMs => exact .inr (.inr (.inl ⟨uid, expiresAtMs, rfl⟩))
  | verdict conn epoch => exact .inr (.inr (.inr ⟨conn, epoch, rfl⟩))
  | expireTempAllows nowMs =>
    by_cases hzero : (w.matrix.expireTempAllows nowMs).1 = 0
    · have hsame := expireTempAllows_of_eq_zero hzero
      refine .inr (.inl ⟨?_, ?_⟩)
      · simp [step, expireTempAllows, hzero, hsame]
      · simp [callsAfter, expireTempAllows, hzero]
    · have hpos := Nat.pos_of_ne_zero hzero
      refine .inl ⟨?_, ?_⟩
      · simp only [step, expireTempAllows, gt_iff_lt, hpos, if_true]
        rfl
      · simp [callsAfter, expireTempAllows, hpos]
  | removeCidrRuleAt index =>
    cases hremoved : (w.ruleSets.cidr.removeAt index).1 with
    | false =>
      have hsame := CidrRuleSet.removeAt_of_false hremoved
      refine .inr (.inl ⟨?_, ?_⟩)
      · simp [step, removeCidrRuleAt, hremoved, hsame]
      · simp [callsAfter, removeCidrRuleAt, hremoved]
    | true =>
      refine .inl ⟨?_, ?_⟩
      · simp only [step, removeCidrRuleAt, hremoved, if_true]
        rfl
      · simp [callsAfter, removeCidrRuleAt, hremoved]
  | bindDurable blob nowMs =>
    cases blob with
    | none => exact .inl ⟨rfl, rfl⟩
    | some payload => exact .inl ⟨rfl, rfl⟩
  | _ => exact .inl ⟨rfl, rfl⟩

/-- Every verdict in the cache is the cascade's for the last call of its identity. -/
def CacheBacked (w : Warden hash) (log : List (ConnFacts × ℕ)) : Prop :=
  w.cache.Backed (uncachedVerdict country w.toPosture) CacheKey.fromConn log

/-- A step that heeds the cache keeps it backed. -/
theorem CacheBacked.step {w : Warden hash} {log : List (ConnFacts × ℕ)} {a : Action}
    (h : w.CacheBacked country log) (ha : w.Heeds country log a) :
    (w.step country a).CacheBacked country (w.callsAfter log a) := by
  obtain ⟨hempty, -⟩ | ⟨hsame, hlog⟩ | ⟨uid, expiresAtMs, rfl⟩ | ⟨conn, epoch, rfl⟩ :=
    w.step_cases country log a
  · exact MemoTable.backed_of_order_nil hempty
  · rw [hsame, hlog]
    exact h
  · refine MemoTable.Backed.congr h fun call hcall => uncachedVerdict_grantTempAllow country ?_
    exact ha.imp_right fun hall => hall call hcall
  · obtain ⟨hposture, hask⟩ := w.verdictAt_eq_ask country conn epoch
    have hagree := (agreesWith_iff country w.toPosture log conn epoch).mpr ha
    have hbacked := (MemoTable.Backed.ask h hagree).2
    rw [← hask] at hbacked
    show MemoTable.Backed (uncachedVerdict country (w.verdictAt country conn epoch).2.toPosture)
      CacheKey.fromConn (w.verdictAt country conn epoch).2.cache _
    rw [hposture]
    exact hbacked

/-- A call that heeds a backed cache gets the verdict of the cascade. -/
theorem CacheBacked.verdictAt_eq {w : Warden hash} {log : List (ConnFacts × ℕ)} {conn : ConnFacts}
    {epoch : ℕ} (h : w.CacheBacked country log)
    (hflag : FlagAgrees country w.toPosture log conn epoch) :
    (w.verdictAt country conn epoch).1 = uncachedVerdict country w.toPosture conn := by
  have hask := (w.verdictAt_eq_ask country conn epoch).2
  have hagree := (agreesWith_iff country w.toPosture log conn epoch).mpr hflag
  rw [← (MemoTable.Backed.ask h hagree).1, ← hask]

/-- The last call of a run in which every step heeds the cache gets the cascade's verdict. -/
theorem CacheBacked.run (actions : List Action) {w : Warden hash} {log : List (ConnFacts × ℕ)}
    {conn : ConnFacts} {epoch : ℕ} (h : w.CacheBacked country log)
    (hall : w.AllHeed country log (actions ++ [.verdict conn epoch])) :
    ((w.run country actions).verdictAt country conn epoch).1 =
      uncachedVerdict country (w.run country actions).toPosture conn := by
  induction actions generalizing w log with
  | nil =>
    exact h.verdictAt_eq country hall.1
  | cons a actions ih =>
    exact ih (h.step country hall.1) hall.2

theorem cacheBacked_armed (cap : ℕ) (p : Posture) (log : List (ConnFacts × ℕ)) :
    (armed hash cap p).CacheBacked country log :=
  MemoTable.backed_of_order_nil rfl

theorem verdictAt_armed (cap : ℕ) (p : Posture) (conn : ConnFacts) (epoch : ℕ) :
    ((armed hash cap p).verdictAt country conn epoch).1 = uncachedVerdict country p conn :=
  (cacheBacked_armed country cap p []).verdictAt_eq country fun _ hlast => nomatch hlast

/-- **No verdict is left behind**: after any steps that heed the cache, and a call that does,
the verdict is that of a warden with the same posture and an empty cache. -/
theorem verdict_fresh (hash : CacheKey → ℕ) (cap cap' : ℕ) (actions : List Action)
    (conn : ConnFacts) (epoch : ℕ)
    (h : (withCacheCap hash cap).AllHeed country [] (actions ++ [.verdict conn epoch])) :
    (((withCacheCap hash cap).run country actions).verdictAt country conn epoch).1 =
      ((armed hash cap' ((withCacheCap hash cap).run country actions).toPosture).verdictAt
        country conn epoch).1 := by
  rw [verdictAt_armed]
  exact CacheBacked.run country actions (cacheBacked_armed country cap {} []) h

/-- App 10 is isolated, its pause is set while it has no verdict yet, and its call passes. -/
theorem verdict_fresh_paused_first :
    (((withCacheCap (fun k => k.uid.toNat) 4096).run (fun _ => none)
      [.setAppRow ⟨10, .isolate, .allow, 0⟩, .setTempAllow 10 5000]).verdictAt
        (fun _ => none) plainConn 1).1 = .allow := by
  have hheed : (withCacheCap (fun k => k.uid.toNat) 4096).AllHeed (fun _ => none) []
      ([.setAppRow ⟨10, .isolate, .allow, 0⟩, .setTempAllow 10 5000] ++ [.verdict plainConn 1]) :=
    ⟨trivial, .inr nofun, nofun, trivial⟩
  rw [verdict_fresh (fun _ => none) (fun k => k.uid.toNat) 4096 1 _ plainConn 1 hheed]
  decide +kernel

/-- App 10 is isolated and denied; its pause is set, and the verdict in the cache stays. -/
theorem verdict_stale_after_pause :
    let w := (withCacheCap (fun k => k.uid.toNat) 4096).run (fun _ => none)
      [.setAppRow ⟨10, .isolate, .allow, 0⟩, .verdict plainConn 1, .setTempAllow 10 5000]
    (w.verdictAt (fun _ => none) plainConn 1).1 = .deny ∧
      ((armed (fun k => k.uid.toNat) 4096 w.toPosture).verdictAt (fun _ => none) plainConn 1).1 =
        .allow := by
  decide +kernel

end Warden

end Country

end Firewall
end TortaCore
