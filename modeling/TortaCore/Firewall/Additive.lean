import TortaCore.Firewall.Rebuild
import TortaCore.Firewall.Tiers

/-!
# Additions to a posture

A posture (`warden/mod.rs`) is added to: more switches and more universal rules, more domain
rules, more address rules that block, more countries.  Every tier of the cascade then denies
what it denied before, although a rule that is added to a list of addresses moves the others
and may come before them.

## Main definitions

* `Addition`, `Posture.add`: one addition.
-/

namespace TortaCore
namespace Firewall

open Text Store Net List

/-! ### Switches -/

/-- The switches that are on in one of the two. -/
def UniversalToggles.turnOn (t more : UniversalToggles) : UniversalToggles where
  blockNewApps := t.blockNewApps || more.blockNewApps
  blockUnknownConns := t.blockUnknownConns || more.blockUnknownConns
  blockMetered := t.blockMetered || more.blockMetered
  lockdown := t.lockdown || more.lockdown
  deviceLock := t.deviceLock || more.deviceLock
  blockBackground := t.blockBackground || more.blockBackground
  blockUdpNtp := t.blockUdpNtp || more.blockUdpNtp
  blockHttp := t.blockHttp || more.blockHttp
  blockDnsBypass := t.blockDnsBypass || more.blockDnsBypass

/-- What the order of the switches hides: each of them denies by itself. -/
theorem checkUniversalToggles_isSome (p : Posture) (conn : ConnFacts) (mode : AppFirewallMode) :
    (checkUniversalToggles p conn mode).isSome = true ↔
      p.toggles.lockdown = true ∧ .lockdown ∈ p.universalRules ∨
      p.toggles.blockNewApps = true ∧ .blockNewApps ∈ p.universalRules ∧ mode = .untracked ∨
      p.toggles.blockUnknownConns = true ∧ mode = .untracked ∨
      p.toggles.blockMetered = true ∧ .blockMetered ∈ p.universalRules ∧
        (conn.net = .gsm ∨ conn.net = .roaming) ∨
      p.toggles.deviceLock = true ∧ .deviceLock ∈ p.universalRules ∨
      p.toggles.blockBackground = true ∧ .blockBackground ∈ p.universalRules ∨
      p.toggles.blockHttp = true ∧ .blockHttp ∈ p.universalRules ∧ conn.dport = 80 ∨
      p.toggles.blockUdpNtp = true ∧ .blockUdpNtp ∈ p.universalRules ∧ conn.proto = 17 ∧
        conn.dport = 123 ∨
      p.toggles.blockDnsBypass = true ∧ .blockDnsBypass ∈ p.universalRules ∧
        conn.qname.isNone = true := by
  have hite : ∀ (c : Prop) [Decidable c] (o : Option DenyTier),
      (if c then some DenyTier.universalToggle else o).isSome = true ↔ c ∨ o.isSome = true := by
    intro c _ o
    by_cases hc : c
    · simp [hc]
    · simp [hc]
  simp only [checkUniversalToggles, hite, Bool.and_eq_true, Bool.or_eq_true, beq_iff_eq,
    contains_iff_mem, Option.isSome_none, Bool.false_eq_true, or_false, and_assoc]

/-! ### Address rules that block -/

/-- An address rule that blocks. -/
abbrev BlockRule := { r : IpRule // r.status = .block }

namespace CidrRuleSet

def addBlocks (s : CidrRuleSet) (rules : List BlockRule) : CidrRuleSet :=
  (rules.foldl (fun s r => s.insert r.1) s).finalize

/-- The inserts append blocks to the list of an app. -/
theorem bucket_foldl_insert (uid : UInt32) (rules : List BlockRule) : ∀ s : CidrRuleSet,
    ∃ new : List IpRule, (∀ r ∈ new, r.status = .block) ∧
      (rules.foldl (fun s r => s.insert r.1) s).bucket uid = s.bucket uid ++ new := by
  induction rules with
  | nil => exact fun s => ⟨[], by simp, by simp⟩
  | cons rule rules ih =>
    intro s
    obtain ⟨new, hblock, hnew⟩ := ih (s.insert rule.1)
    rw [bucket_insert] at hnew
    rw [foldl_cons]
    split at hnew
    · refine ⟨rule.1 :: new, ?_, by rw [hnew, append_assoc, singleton_append]⟩
      intro r hr
      rcases mem_cons.mp hr with rfl | hr
      · exact rule.2
      · exact hblock r hr
    · exact ⟨new, hblock, hnew⟩

/-- What the list of an app blocks it blocks with more blocks in it: the first rule that
competes after the sort is one of these or the one that was first before. -/
theorem scanBucket_block_addBlocks {s : CidrRuleSet} (hfin : s.finalize = s)
    (rules : List BlockRule) {uid : UInt32} {addr : IpAddr} {dport : UInt16} {proto : UInt8}
    (hblock : s.scanBucket uid addr dport proto = some .block) :
    (s.addBlocks rules).scanBucket uid addr dport proto = some .block := by
  rw [scanBucket_eq_block_iff] at hblock ⊢
  obtain ⟨x, hx, hxblock⟩ := hblock
  obtain ⟨new, hnew, hbucket⟩ := bucket_foldl_insert uid rules s
  rw [addBlocks, bucket_finalize, hbucket]
  have hsorted : s.bucket uid = rankSort IpRule.specificity (s.bucket uid) := by
    rw [← bucket_finalize, hfin]
  cases hfind : (rankSort IpRule.specificity (s.bucket uid ++ new)).find?
      (IpRule.competes addr dport proto) with
  | none =>
    have hmem : x ∈ rankSort IpRule.specificity (s.bucket uid ++ new) :=
      mem_rankSort.mpr (mem_append_left _ (mem_of_find?_eq_some hx))
    exact absurd (find?_some hx) (find?_eq_none.mp hfind x hmem)
  | some y =>
    refine ⟨y, rfl, ?_⟩
    rcases find?_rankSort_append hfind with hy | hy
    · exact hnew y hy
    · rw [← hsorted, hx, Option.some.injEq] at hy
      exact hy ▸ hxblock

end CidrRuleSet

/-! ### Domain rules -/

theorem DomainTrie.matchesName_insert {t : DomainTrie} {qname : Str}
    (h : t.matchesName qname = true) (domain : Str) :
    (t.insert domain).2.matchesName qname = true := by
  rw [DomainTrie.insert_eq]
  split
  · next hins =>
    rw [DomainTrie.matchesName, Bool.and_eq_true] at h ⊢
    exact ⟨h.1, PathTrie.covers_insert id () hins.zonePath_ne_nil h.2⟩
  · exact h

namespace DomainRuleSet

theorem matchesApp_insert {s : DomainRuleSet} {uid : UInt32} {qname : Str}
    (h : s.matchesApp uid qname = true) (rule : DomainRule) :
    (s.insert rule).matchesApp uid qname = true := by
  rw [matchesApp_eq] at h ⊢
  rw [trieOf_insert]
  split
  · exact DomainTrie.matchesName_insert h rule.domain
  · exact h

theorem matchesApp_foldl_insert {uid : UInt32} {qname : Str} (rules : List DomainRule) :
    ∀ {s : DomainRuleSet}, s.matchesApp uid qname = true →
      (rules.foldl insert s).matchesApp uid qname = true := by
  induction rules with
  | nil => exact fun h => h
  | cons rule rules ih => exact fun h => ih (matchesApp_insert h rule)

end DomainRuleSet

/-! ### Tiers that deny no less -/

/-- The cascade without its order: a connection is denied when one of the tiers that it
meets is against it. -/
theorem uncachedVerdict_eq_deny_iff (country : IpAddr → Option (UInt8 × UInt8)) (p : Posture)
    (conn : ConnFacts) :
    uncachedVerdict country p conn = .deny ↔
      (checkUniversalToggles p conn (appMode p conn.uid)).isSome = true ∨
      (checkPerApp p conn (p.matrix.get conn.uid)).isSome = true ∨
      (appMode p conn.uid ≠ .bypassUniversal ∧
        (checkUniversalRules country p conn).isSome = true) ∨
      (appMode p conn.uid ≠ .bypassDnsFirewall ∧ conn.dnsBlocked = true) := by
  have hite : ∀ (c : Prop) [Decidable c] (o : Option DenyTier),
      (if c then o else none).isSome = true ↔ c ∧ o.isSome = true := by
    intro c _ o
    by_cases hc : c
    · simp [hc]
    · simp [hc]
  have hdeny : ∀ o : Option DenyTier,
      (if o.isSome then Verdict.deny else .allow) = .deny ↔ o.isSome = true := by
    intro o
    cases o with
    | none => simp
    | some tier => simp
  rw [uncachedVerdict, hdeny, cascade_eq_or, firewallTier_eq_or]
  simp only [Option.isSome_or, Bool.or_eq_true, hite, or_assoc, Option.isSome_some, and_true]

/-- Every tier denies under the second posture what it denies under the first. -/
structure Tightens (p p' : Posture) : Prop where
  matrix : p'.matrix = p.matrix
  toggles : ∀ conn mode, (checkUniversalToggles p conn mode).isSome = true →
    (checkUniversalToggles p' conn mode).isSome = true
  domain : ∀ uid qname, p.ruleSets.domain.matchesApp uid qname = true →
    p'.ruleSets.domain.matchesApp uid qname = true
  cidr : ∀ uid addr dport proto, p.ruleSets.cidr.scanBucket uid addr dport proto = some .block →
    p'.ruleSets.cidr.scanBucket uid addr dport proto = some .block
  geo : ∀ cc ∈ p.geoBlocks, cc ∈ p'.geoBlocks

namespace Tightens

theorem refl (p : Posture) : Tightens p p :=
  ⟨rfl, fun _ _ h => h, fun _ _ h => h, fun _ _ _ _ h => h, fun _ h => h⟩

theorem trans {p q r : Posture} (h : Tightens p q) (h' : Tightens q r) : Tightens p r where
  matrix := h'.matrix.trans h.matrix
  toggles conn mode hp := h'.toggles conn mode (h.toggles conn mode hp)
  domain uid qname hp := h'.domain uid qname (h.domain uid qname hp)
  cidr uid addr dport proto hp := h'.cidr uid addr dport proto (h.cidr uid addr dport proto hp)
  geo cc hp := h'.geo cc (h.geo cc hp)

variable {p p' : Posture} (h : Tightens p p')
include h

theorem appMode_eq (uid : UInt32) : appMode p' uid = appMode p uid := by
  rw [appMode, appMode, h.matrix]

theorem checkAppRules_isSome {conn : ConnFacts} (hp : (checkAppRules p conn).isSome = true) :
    (checkAppRules p' conn).isSome = true := by
  rw [checkAppRules] at hp ⊢
  by_cases hname : (conn.qname.any fun qname =>
      p.ruleSets.domain.matchesApp conn.uid qname) = true
  · have hname' : (conn.qname.any fun qname =>
        p'.ruleSets.domain.matchesApp conn.uid qname) = true := by
      rw [Option.any_eq_true] at hname ⊢
      exact hname.imp fun qname hq => ⟨hq.1, h.domain _ _ hq.2⟩
    simp [hname']
  · rw [if_neg hname] at hp
    split at hp
    · next haddr =>
      have haddr' := h.cidr _ _ _ _ haddr
      rw [CidrRuleSet.lookupApp, haddr']
      split <;> rfl
    · cases hp

theorem checkPerApp_isSome {conn : ConnFacts} (row : Option AppMatrixRow)
    (hp : (checkPerApp p conn row).isSome = true) :
    (checkPerApp p' conn row).isSome = true := by
  cases row with
  | none => exact h.checkAppRules_isSome hp
  | some row =>
    rw [checkPerApp] at hp ⊢
    split at hp
    · cases hp
    next hpause =>
    rw [if_neg hpause]
    split at hp
    · next hisolate => rw [if_pos hisolate]; rfl
    next hisolate =>
    rw [if_neg hisolate]
    split at hp
    · next hmeter => rw [if_pos hmeter]; rfl
    · next hmeter =>
      rw [if_neg hmeter]
      exact h.checkAppRules_isSome hp

variable (country : IpAddr → Option (UInt8 × UInt8))

theorem checkUniversalRules_isSome {conn : ConnFacts}
    (hp : (checkUniversalRules country p conn).isSome = true) :
    (checkUniversalRules country p' conn).isSome = true := by
  rw [checkUniversalRules] at hp ⊢
  by_cases hname : (conn.qname.any p.ruleSets.domain.matchesUniversal) = true
  · have hname' : (conn.qname.any p'.ruleSets.domain.matchesUniversal) = true := by
      rw [Option.any_eq_true] at hname ⊢
      exact hname.imp fun qname hq => ⟨hq.1, h.domain uidUniversal _ hq.2⟩
    simp [hname']
  · rw [if_neg hname] at hp
    split at hp
    · next haddr =>
      have haddr' := h.cidr _ _ _ _ haddr
      rw [CidrRuleSet.lookupUniversal, haddr']
      split <;> rfl
    · split at hp
      · next hgeo =>
        obtain ⟨-, hcountry⟩ := Bool.and_eq_true_iff.mp hgeo
        obtain ⟨cc, hcc, hmem⟩ := (Option.any_eq_true _ _).mp hcountry
        have hmem' := h.geo cc (contains_iff_mem.mp hmem)
        have hne : p'.geoBlocks ≠ [] := ne_nil_of_mem hmem'
        have hgeo' : (!p'.geoBlocks.isEmpty &&
            (country conn.daddr).any fun cc => p'.geoBlocks.contains cc) = true := by
          simp [hcc, hmem', hne]
        repeat' split
        all_goals simp_all
      · cases hp

/-- A connection that is denied stays denied, and so it does when the resolver's flag is
set as well. -/
theorem deny {conn : ConnFacts} (hdeny : uncachedVerdict country p conn = .deny) (flag : Bool) :
    uncachedVerdict country p' { conn with dnsBlocked := conn.dnsBlocked || flag } = .deny := by
  rw [uncachedVerdict_eq_deny_iff] at hdeny ⊢
  simp only [h.appMode_eq, h.matrix]
  rcases hdeny with htoggles | happ | ⟨hmode, hrules⟩ | ⟨hmode, hflag⟩
  · exact .inl (h.toggles conn _ htoggles)
  · exact .inr (.inl (h.checkPerApp_isSome _ happ))
  · exact .inr (.inr (.inl ⟨hmode, h.checkUniversalRules_isSome country hrules⟩))
  · exact .inr (.inr (.inr ⟨hmode, by simp [hflag]⟩))

end Tightens

/-! ### Additions -/

/-- What is added to a posture. -/
inductive Addition where
  | toggles (more : UniversalToggles)
  | universalRules (more : List UniversalRule)
  | domain (rules : List DomainRule)
  /-- The address rules are finalized after the inserts. -/
  | cidr (rules : List BlockRule)
  | geo (codes : List (UInt8 × UInt8))

namespace Posture

def add (p : Posture) : Addition → Posture
  | .toggles more => { p with toggles := p.toggles.turnOn more }
  | .universalRules more => { p with universalRules := p.universalRules ++ more }
  | .domain rules =>
    { p with ruleSets.domain := rules.foldl DomainRuleSet.insert p.ruleSets.domain }
  | .cidr rules => { p with ruleSets.cidr := p.ruleSets.cidr.addBlocks rules }
  | .geo codes => { p with geoBlocks := p.geoBlocks ++ codes }

/-- The address rules are finalized, as they are whenever they are armed. -/
def Finalized (p : Posture) : Prop := p.ruleSets.cidr.finalize = p.ruleSets.cidr

theorem finalized_add {p : Posture} (h : p.Finalized) (a : Addition) : (p.add a).Finalized := by
  cases a with
  | cidr rules => exact CidrRuleSet.finalize_finalize _
  | toggles | universalRules | domain | geo => exact h

/-- One addition: the tier it is for denies more, and the others read nothing of it. -/
theorem tightens_add {p : Posture} (h : p.Finalized) (a : Addition) : Tightens p (p.add a) := by
  cases a with
  | toggles more =>
    refine { Tightens.refl p with toggles := fun conn mode hp => ?_ }
    rw [checkUniversalToggles_isSome] at hp ⊢
    simp only [add, UniversalToggles.turnOn, Bool.or_eq_true]
    revert hp
    iterate 8 refine Or.imp (And.imp_left .inl) ?_
    exact And.imp_left .inl
  | universalRules more =>
    refine { Tightens.refl p with toggles := fun conn mode hp => ?_ }
    rw [checkUniversalToggles_isSome] at hp ⊢
    simp only [add, mem_append]
    revert hp
    refine Or.imp (And.imp_right .inl) ?_
    refine Or.imp (And.imp_right (And.imp_left .inl)) ?_
    -- the switch for unknown connections has no rule
    refine Or.imp id ?_
    refine Or.imp (And.imp_right (And.imp_left .inl)) ?_
    refine Or.imp (And.imp_right .inl) ?_
    refine Or.imp (And.imp_right .inl) ?_
    iterate 2 refine Or.imp (And.imp_right (And.imp_left .inl)) ?_
    exact And.imp_right (And.imp_left .inl)
  | domain rules =>
    exact { Tightens.refl p with
      domain := fun uid qname hp => DomainRuleSet.matchesApp_foldl_insert rules hp }
  | cidr rules =>
    exact { Tightens.refl p with
      cidr := fun uid addr dport proto hp => CidrRuleSet.scanBucket_block_addBlocks h rules hp }
  | geo codes =>
    exact { Tightens.refl p with geo := fun cc hcc => mem_append_left codes hcc }

theorem tightens_foldl_add (adds : List Addition) : ∀ {p : Posture}, p.Finalized →
    Tightens p (adds.foldl add p) := by
  induction adds with
  | nil => exact fun {p} _ => Tightens.refl p
  | cons a adds ih => exact fun h => (tightens_add h a).trans (ih (finalized_add h a))

/-- **Additions keep denials**: whatever the rows and the bypasses are, a connection that
the cascade denies is denied after any additions, with the resolver's flag as it was or set. -/
theorem additions_keep_denials (country : IpAddr → Option (UInt8 × UInt8)) {p : Posture}
    (hfin : p.Finalized) (adds : List Addition) (conn : ConnFacts) (flag : Bool)
    (hdeny : uncachedVerdict country p conn = .deny) :
    uncachedVerdict country (adds.foldl add p)
      { conn with dnsBlocked := conn.dnsBlocked || flag } = .deny :=
  (tightens_foldl_add adds hfin).deny country hdeny flag

/-- A bypass of `10.0.0.1` beside a block of `10.0.0.0/8`. -/
def exceptionPosture : Posture :=
  { ruleSets.cidr := CidrRuleSet.build [
      .insert ⟨uidUniversal, .v4 0x0A000000 8, .any, .any, .block⟩,
      .insert ⟨uidUniversal, .v4 0x0A000001 32, .any, .any, .bypass⟩] }

/-- A connection of an app without a row to an address of `10.0.0.0/24`. -/
def lanConn (host : UInt8) : ConnFacts :=
  ⟨10001, .v4 ⟨10, 0, 0, host⟩, 443, 6, none, .wifi, false⟩

/-- The address beside the exception is denied after a switch, a country and a more specific
block are added. -/
theorem additions_keep_lan_denied :
    exceptionPosture.Finalized ∧
      uncachedVerdict (fun _ => none) exceptionPosture (lanConn 2) = .deny ∧
      uncachedVerdict (fun _ => none)
        ([.toggles { blockHttp := true }, .geo [(0x46, 0x52)],
          .cidr [⟨⟨uidUniversal, .v4 0x0A000001 32, .any, .any, .block⟩, rfl⟩]].foldl add
            exceptionPosture)
        (lanConn 2) = .deny := by
  have hfin : exceptionPosture.Finalized := CidrRuleSet.finalize_finalize _
  have hdeny : uncachedVerdict (fun _ => none) exceptionPosture (lanConn 2) = .deny := by
    decide +kernel
  exact ⟨hfin, hdeny, additions_keep_denials (fun _ => none) hfin _ (lanConn 2) false hdeny⟩

end Posture

end Firewall
end TortaCore
