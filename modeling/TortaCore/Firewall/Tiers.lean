import TortaCore.Firewall.Engine

/-!
# What the tiers hand on

Two facts about a connection are found in one tier of the cascade (`warden/mod.rs`) and
meant for another.  That an app has no row is meant for the switches against unknown apps,
and that the app's most specific address rule is a bypass is meant for the universal tier.
Neither arrives: the mode of an app without a row is the mode of a row that denies nothing,
and no tier looks for a bypass.
-/

namespace TortaCore
namespace Firewall

open Text Store Net List

/-! ### Which tier denies -/

variable {conn : ConnFacts} {p : Posture} {tier : DenyTier}

theorem checkUniversalToggles_eq_some {mode : AppFirewallMode}
    (h : checkUniversalToggles p conn mode = some tier) :
    tier = .universalToggle := by
  rw [checkUniversalToggles] at h
  repeat' split at h
  all_goals cases h
  all_goals rfl

theorem checkAppRules_eq_some (h : checkAppRules p conn = some tier) : tier = .app := by
  rw [checkAppRules] at h
  repeat' split at h
  all_goals cases h
  all_goals rfl

theorem checkPerApp_eq_some {row : Option AppMatrixRow}
    (h : checkPerApp p conn row = some tier) : tier = .app := by
  revert h
  fun_cases checkPerApp with
  | case1 => exact fun h => by cases h
  | case2 | case3 =>
    rintro ⟨⟩
    rfl
  | _ => exact checkAppRules_eq_some

section Country

variable (country : IpAddr → Option (UInt8 × UInt8))

theorem checkUniversalRules_eq_some {p : Posture} {conn : ConnFacts} {tier : DenyTier}
    (h : checkUniversalRules country p conn = some tier) : tier = .universalRule := by
  rw [checkUniversalRules] at h
  repeat' split at h
  all_goals cases h
  all_goals rfl

theorem firewallTier_eq_or (p : Posture) (conn : ConnFacts) :
    firewallTier country p conn =
      (checkUniversalToggles p conn (appMode p conn.uid)).or
        ((checkPerApp p conn (p.matrix.get conn.uid)).or
          (if appMode p conn.uid ≠ .bypassUniversal then checkUniversalRules country p conn
          else none)) := by
  rw [firewallTier]
  cases checkUniversalToggles p conn (appMode p conn.uid) with
  | some tier => rfl
  | none =>
    cases checkPerApp p conn (p.matrix.get conn.uid) with
    | some tier => rfl
    | none => rfl

theorem cascade_eq_or (p : Posture) (conn : ConnFacts) :
    cascade country p conn =
      (firewallTier country p conn).or
        (if appMode p conn.uid ≠ .bypassDnsFirewall ∧ conn.dnsBlocked then some .blocklist
        else none) := by
  rw [cascade]
  cases firewallTier country p conn with
  | some tier => rfl
  | none => rfl

/-- The universal tier denies when the tiers before it do not and it is not skipped. -/
theorem cascade_eq_universalRule_iff (p : Posture) (conn : ConnFacts) :
    cascade country p conn = some .universalRule ↔
      checkUniversalToggles p conn (appMode p conn.uid) = none ∧
      checkPerApp p conn (p.matrix.get conn.uid) = none ∧
      appMode p conn.uid ≠ .bypassUniversal ∧ checkUniversalRules country p conn ≠ none := by
  rw [cascade_eq_or, firewallTier_eq_or]
  cases htoggles : checkUniversalToggles p conn (appMode p conn.uid) with
  | some tier =>
    cases checkUniversalToggles_eq_some htoggles
    simp
  | none =>
    cases happ : checkPerApp p conn (p.matrix.get conn.uid) with
    | some tier =>
      cases checkPerApp_eq_some happ
      simp
    | none =>
      by_cases hmode : appMode p conn.uid = .bypassUniversal
      · simp [hmode]
      · cases hrules : checkUniversalRules country p conn with
        | some tier =>
          cases checkUniversalRules_eq_some country hrules
          simp [hmode]
        | none => simp [hmode]

/-! ### What the tiers read -/

/-- Two postures are alike in all that the tiers read about an app. -/
structure ReadsAlike (p p' : Posture) (uid : UInt32) : Prop where
  row : p.matrix.get uid = p'.matrix.get uid
  toggles : p.toggles = p'.toggles
  universalRules : p.universalRules = p'.universalRules
  domainApp : p.ruleSets.domain.matchesApp uid = p'.ruleSets.domain.matchesApp uid
  domainUniversal : p.ruleSets.domain.matchesUniversal = p'.ruleSets.domain.matchesUniversal
  cidrApp : p.ruleSets.cidr.lookupApp uid = p'.ruleSets.cidr.lookupApp uid
  cidrUniversal : p.ruleSets.cidr.lookupUniversal = p'.ruleSets.cidr.lookupUniversal
  geo : ∀ cc, cc ∈ p.geoBlocks ↔ cc ∈ p'.geoBlocks

namespace ReadsAlike

variable {p' : Posture} (h : ReadsAlike p p' conn.uid)
include h

theorem appMode_eq : appMode p conn.uid = appMode p' conn.uid := by
  rw [appMode, appMode, h.row]

theorem checkUniversalToggles_eq (mode : AppFirewallMode) :
    checkUniversalToggles p conn mode = checkUniversalToggles p' conn mode := by
  rw [checkUniversalToggles, checkUniversalToggles, h.toggles, h.universalRules]

theorem checkPerApp_eq (row : Option AppMatrixRow) :
    checkPerApp p conn row = checkPerApp p' conn row := by
  have hrules : checkAppRules p conn = checkAppRules p' conn := by
    rw [checkAppRules, checkAppRules, h.domainApp, h.cidrApp]
  cases row with
  | none => exact hrules
  | some row => rw [checkPerApp, checkPerApp, hrules]

theorem checkUniversalRules_eq :
    checkUniversalRules country p conn = checkUniversalRules country p' conn := by
  have hcontains : ∀ cc, p.geoBlocks.contains cc = p'.geoBlocks.contains cc := by
    intro cc
    rw [Bool.eq_iff_iff, contains_iff_mem, contains_iff_mem, h.geo cc]
  have hempty : p.geoBlocks.isEmpty = p'.geoBlocks.isEmpty := by
    rw [Bool.eq_iff_iff, List.isEmpty_iff, List.isEmpty_iff, eq_nil_iff_forall_not_mem,
      eq_nil_iff_forall_not_mem]
    exact forall_congr' fun cc => not_congr (h.geo cc)
  rw [checkUniversalRules, checkUniversalRules, h.domainUniversal, h.cidrUniversal, hempty,
    funext hcontains]

/-- The cascade gives one verdict under both. -/
theorem uncachedVerdict_eq : uncachedVerdict country p conn = uncachedVerdict country p' conn := by
  rw [uncachedVerdict, uncachedVerdict, cascade_eq_or, cascade_eq_or, firewallTier_eq_or,
    firewallTier_eq_or, h.checkUniversalRules_eq, h.checkPerApp_eq, h.checkUniversalToggles_eq,
    h.appMode_eq, h.row]

end ReadsAlike

end Country

/-! ### Apps without a row -/

/-- The posture with the switches against unknown apps off. -/
def Posture.ignoringUnknown (p : Posture) : Posture :=
  { p with toggles.blockNewApps := false, toggles.blockUnknownConns := false }

/-- The switches against unknown apps that are on, and armed where they need a rule. -/
def Posture.BlocksUnknown (p : Posture) : Prop :=
  p.toggles.blockUnknownConns = true ∨
    p.toggles.blockNewApps = true ∧ UniversalRule.blockNewApps ∈ p.universalRules

theorem checkUniversalToggles_ignoringUnknown (p : Posture) (conn : ConnFacts)
    {mode : AppFirewallMode} (hmode : mode ≠ .untracked) :
    checkUniversalToggles p.ignoringUnknown conn mode = checkUniversalToggles p conn mode := by
  simp [checkUniversalToggles, Posture.ignoringUnknown, hmode]

theorem uncachedVerdict_ignoringUnknown (country : IpAddr → Option (UInt8 × UInt8))
    (hrow : p.matrix.get conn.uid = none) :
    uncachedVerdict country p.ignoringUnknown conn = uncachedVerdict country p conn := by
  -- an app without a row has the mode of a row that denies nothing
  have hmode : appMode p conn.uid = .none := by rw [appMode, hrow]; rfl
  have htoggles : checkUniversalToggles p.ignoringUnknown conn (appMode p conn.uid) =
      checkUniversalToggles p conn (appMode p conn.uid) :=
    checkUniversalToggles_ignoringUnknown p conn (by rw [hmode]; decide)
  have htier : firewallTier country p.ignoringUnknown conn = firewallTier country p conn := by
    rw [firewallTier_eq_or, firewallTier_eq_or, ← htoggles]
    rfl
  have hcascade : cascade country p.ignoringUnknown conn = cascade country p conn := by
    rw [cascade_eq_or, cascade_eq_or, htier]
    rfl
  rw [uncachedVerdict, uncachedVerdict, hcascade]

namespace Warden

variable {hash : CacheKey → ℕ} (country : IpAddr → Option (UInt8 × UInt8))

theorem verdictAt_fst (w : Warden hash) (conn : ConnFacts) (epoch : ℕ) :
    (w.verdictAt country conn epoch).1 =
      (w.cache.get (CacheKey.fromConn conn) epoch).1.getD
        (uncachedVerdict country w.toPosture conn) := by
  cases hget : w.cache.get (CacheKey.fromConn conn) epoch with
  | mk hit cache =>
    cases hit with
    | some v => simp [verdictAt, hget]
    | none =>
      cases htier : cascade country w.toPosture conn with
      | some tier => simp [verdictAt, hget, uncachedVerdict, htier]
      | none => simp [verdictAt, hget, uncachedVerdict, htier]

/-- A connection of an app without a row is denied exactly when it is denied with the
switches against unknown apps off. -/
theorem unknown_app_denied_iff (w : Warden hash) (conn : ConnFacts) (epoch : ℕ)
    (_hswitch : w.toPosture.BlocksUnknown) (hrow : w.matrix.get conn.uid = none) :
    (w.verdictAt country conn epoch).1 = .deny ↔
      (w.cache.get (CacheKey.fromConn conn) epoch).1.getD
        (uncachedVerdict country w.toPosture.ignoringUnknown conn) = .deny := by
  rw [verdictAt_fst, uncachedVerdict_ignoringUnknown country hrow]

/-- A connection of an app that the tests below give no row. -/
def strangerConn (dport : UInt16) : ConnFacts :=
  ⟨10001, .v4 ⟨93, 184, 216, 34⟩, dport, 6, some "example.com".toList, .wifi, false⟩

/-- The port of HTTP is blocked, so it is denied for an app without a row too. -/
theorem unknown_app_denied_http :
    let w := ((withCacheCap (fun _ => 0) 16).setUniversalToggles
      { blockUnknownConns := true, blockHttp := true }).setUniversalRules [.blockHttp]
    (w.verdictAt (fun _ => none) (strangerConn 80) 0).1 = .deny :=
  (unknown_app_denied_iff (fun _ => none) _ (strangerConn 80) 0 (.inl rfl) rfl).mpr
    (by decide +kernel)

/-- Unknown connections are blocked, and an app without a row connects; with a row whose
mode is untracked it would not. -/
theorem unknown_app_connects :
    let w := (withCacheCap (fun _ => 0) 16).setUniversalToggles { blockUnknownConns := true }
    w.toPosture.BlocksUnknown ∧ w.matrix.get (strangerConn 443).uid = none ∧
      (w.verdictAt (fun _ => none) (strangerConn 443) 0).1 = .allow ∧
      ((w.setAppRow ⟨10001, .untracked, .allow, 0⟩).verdictAt (fun _ => none)
        (strangerConn 443) 0).1 = .deny := by
  refine ⟨.inl rfl, rfl, ?_, ?_⟩
  · decide +kernel
  · decide +kernel

/-! ### The bypass of an app -/

/-- The most specific address rule of the app that competes is a bypass. -/
def AppBypass (edits : List CidrEdit) (conn : ConnFacts) : Prop :=
  ∃ r, MostSpecific (candidates edits conn.uid conn.daddr conn.dport conn.proto) r ∧
    r.status = .bypass

/-- The verdict is cached, an earlier tier denies, the mode of the app skips the universal
tier, or no universal rule is against the connection. -/
def Spared (w : Warden hash) (conn : ConnFacts) (epoch : ℕ) : Prop :=
  (w.cache.get (CacheKey.fromConn conn) epoch).1 ≠ none ∨
    checkUniversalToggles w.toPosture conn (appMode w.toPosture conn.uid) ≠ none ∨
    checkPerApp w.toPosture conn (w.matrix.get conn.uid) ≠ none ∨
    appMode w.toPosture conn.uid = .bypassUniversal ∨
    checkUniversalRules country w.toPosture conn = none

/-- The call counts no deny of the universal tier. -/
def PassesUniversal (w : Warden hash) (conn : ConnFacts) (epoch : ℕ) : Prop :=
  (w.verdictAt country conn epoch).2.stats.denyByUniversalRule = w.stats.denyByUniversalRule

theorem passesUniversal_iff (w : Warden hash) (conn : ConnFacts) (epoch : ℕ) :
    w.PassesUniversal country conn epoch ↔
      ¬ ((w.cache.get (CacheKey.fromConn conn) epoch).1 = none ∧
        cascade country w.toPosture conn = some .universalRule) := by
  rw [PassesUniversal, verdictAt]
  cases hget : w.cache.get (CacheKey.fromConn conn) epoch with
  | mk hit cache =>
    cases hit with
    | some v => simp
    | none =>
      cases htier : cascade country w.toPosture conn with
      | none => simp
      | some tier => cases tier <;> simp [WardenStats.recordDeny]

theorem passesUniversal_iff_spared (w : Warden hash) (conn : ConnFacts) (epoch : ℕ) :
    w.PassesUniversal country conn epoch ↔ w.Spared country conn epoch := by
  rw [passesUniversal_iff, cascade_eq_universalRule_iff, Spared]
  simp only [not_and_or, ne_eq, not_not]

/-- The address rules of a built set: the most specific one wins in its list, and a bypass
of the app spares the connection the universal tier only where something else does. -/
theorem specific_rule_wins_iff (w : Warden hash) (edits : List CidrEdit)
    (hbuilt : w.ruleSets.cidr = CidrRuleSet.build edits) (conn : ConnFacts) (epoch : ℕ) :
    ((∀ uid addr dport proto,
        AnswersFor (candidates edits uid addr dport proto)
          (w.ruleSets.cidr.lookupApp uid addr dport proto) ∧
        AnswersFor (candidates edits uidUniversal addr dport proto)
          (w.ruleSets.cidr.lookupUniversal addr dport proto)) ∧
      (AppBypass edits conn → w.PassesUniversal country conn epoch)) ↔
    (AppBypass edits conn → w.Spared country conn epoch) := by
  rw [passesUniversal_iff_spared]
  refine and_iff_right fun uid addr dport proto => ?_
  rw [hbuilt]
  exact ⟨CidrRuleSet.scanBucket_build edits uid addr dport proto,
    CidrRuleSet.scanBucket_build edits uidUniversal addr dport proto⟩

/-- A bypass of app 10001 for its whole `/24`, and nothing universal: the tier passes. -/
theorem specific_rule_wins_alone :
    let w := (withCacheCap (fun _ => 0) 16).setCidrRules
      (CidrRuleSet.build [.insert ⟨10001, .v4 0x5DB8D800 24, .any, .any, .bypass⟩])
    w.PassesUniversal (fun _ => none) (strangerConn 443) 0 := by
  intro w
  have hbypass : AppBypass [.insert ⟨10001, .v4 0x5DB8D800 24, .any, .any, .bypass⟩]
      (strangerConn 443) := by
    refine ⟨⟨10001, .v4 0x5DB8D800 24, .any, .any, .bypass⟩, ⟨?_, ?_⟩, rfl⟩
    · decide +kernel
    · decide +kernel
  refine ((specific_rule_wins_iff (fun _ => none) w _ rfl (strangerConn 443) 0).mpr ?_).2 hbypass
  intro _
  refine .inr (.inr (.inr (.inr ?_)))
  decide +kernel

/-- The same bypass beside a universal block of the network around it: the universal tier
denies. -/
theorem bypass_denied_by_universal :
    let edits : List CidrEdit := [.insert ⟨10001, .v4 0x5DB8D800 24, .any, .any, .bypass⟩,
      .insert ⟨uidUniversal, .v4 0x5DB80000 16, .any, .any, .block⟩]
    let w := (withCacheCap (fun _ => 0) 16).setCidrRules (CidrRuleSet.build edits)
    AppBypass edits (strangerConn 443) ∧
      (w.verdictAt (fun _ => none) (strangerConn 443) 0).1 = .deny ∧
      (w.verdictAt (fun _ => none) (strangerConn 443) 0).2.stats.denyByUniversalRule = 1 := by
  refine ⟨⟨⟨10001, .v4 0x5DB8D800 24, .any, .any, .bypass⟩, ⟨?_, ?_⟩, rfl⟩, ?_, ?_⟩
  · decide +kernel
  · decide +kernel
  · decide +kernel
  · decide +kernel

end Warden

end Firewall
end TortaCore
