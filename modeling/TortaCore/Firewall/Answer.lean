import TortaCore.Firewall.Additive

/-!
# Answers of the resolver, and installed rules

The second verdict of the warden (`warden/verdict_loop.rs`): a name with the addresses it
resolved to, against the rules that are for every app.  And the way domain rules are
installed (`warden/object.rs`): each rule passes the gate, a plain one goes to the trie of
its app, and one with a star goes to the list of globs, where its app is forgotten.

## Main definitions

* `applyDnsVerdict`, `Posture.dnsVerdict`: the verdict on an answer.
* `Warden.installDomainRules`, `InstallReport`: the install, and what it reports.
-/

namespace TortaCore
namespace Firewall

open Text Store Net Blocklist List CidrRuleSet

/-! ### The verdict on an answer -/

/-- The networks of the universal blocks that have no port and no protocol: an answer has
neither. -/
def CidrRuleSet.universalBlocks (s : CidrRuleSet) : List CidrMatch :=
  ((s.bucket uidUniversal).filter fun r =>
    r.status == .block && r.port == .any && r.proto == .any).map IpRule.cidr

inductive DnsDenyReason where
  | domain
  | globDomain
  | address
  deriving DecidableEq

inductive DnsVerdict where
  | allow
  | deny (reason : DnsDenyReason)
  deriving DecidableEq

def DnsVerdict.isDeny : DnsVerdict → Bool
  | .allow => false
  | .deny _ => true

/-- The name against the universal trie and the globs, then each address against each
block. -/
def applyDnsVerdict (name : Str) (addrs : List IpAddr) (domain : DomainRuleSet)
    (globPatterns : List DomainPattern) (cidrBlocks : List CidrMatch) : DnsVerdict :=
  let name := stem name
  if !name.isEmpty && domain.matchesUniversal name then .deny .domain
  else if !name.isEmpty && globPatterns.any fun pat => pat.matchesName name then
    .deny .globDomain
  else if addrs.any fun addr => cidrBlocks.any fun cidr => cidr.matchesAddr addr then
    .deny .address
  else .allow

theorem Verdict.eq_of_deny_iff {a b : Verdict} (h : a = .deny ↔ b = .deny) : a = b := by
  cases a <;> cases b <;> simp_all

namespace Posture

def dnsOutcome (p : Posture) (name : Str) (addrs : List IpAddr) : DnsVerdict :=
  applyDnsVerdict name addrs p.ruleSets.domain p.ruleSets.globDomains
    p.ruleSets.cidr.universalBlocks

def dnsVerdict (p : Posture) (name : Str) (addrs : List IpAddr) : Verdict :=
  if (p.dnsOutcome name addrs).isDeny then .deny else .allow

/-- A universal rule or a glob is against the name. -/
def DeniesName (p : Posture) (name : Str) : Prop :=
  stem name ≠ [] ∧ (p.ruleSets.domain.matchesUniversal (stem name) = true ∨
    ∃ g ∈ p.ruleSets.globDomains, g.matchesName (stem name) = true)

/-- A universal block holds one of the addresses. -/
def DeniesAddr (p : Posture) (addrs : List IpAddr) : Prop :=
  ∃ addr ∈ addrs, ∃ c ∈ p.ruleSets.cidr.universalBlocks, c.matchesAddr addr = true

theorem dnsVerdict_eq_deny_iff (p : Posture) (name : Str) (addrs : List IpAddr) :
    p.dnsVerdict name addrs = .deny ↔ p.DeniesName name ∨ p.DeniesAddr addrs := by
  have hname : p.DeniesName name ↔
      (!(stem name).isEmpty && p.ruleSets.domain.matchesUniversal (stem name)) = true ∨
      (!(stem name).isEmpty &&
        p.ruleSets.globDomains.any fun pat => pat.matchesName (stem name)) = true := by
    simp [DeniesName, ← and_or_left]
  have haddr : p.DeniesAddr addrs ↔
      (addrs.any fun addr =>
        p.ruleSets.cidr.universalBlocks.any fun cidr => cidr.matchesAddr addr) = true := by
    simp [DeniesAddr]
  rw [hname, haddr, dnsVerdict, dnsOutcome, applyDnsVerdict]
  split
  · next h => simp [DnsVerdict.isDeny, h]
  next hd =>
  split
  · next h => simp [DnsVerdict.isDeny, h]
  · next hg =>
    split
    · next h => simp [DnsVerdict.isDeny, h]
    · next ha => simp only [DnsVerdict.isDeny, hd, hg, ha]; simp

/-! ### Exceptions

A connection is judged by the most specific rule that holds its address, and an answer by
all the blocks: a bypass that wins over a block is an exception for the one and nothing for
the other. -/

/-- The universal rules that hold the address and are not inert, the longest first. -/
def holding (p : Posture) (addr : IpAddr) : List IpRule :=
  (p.ruleSets.cidr.bucket uidUniversal).filter fun r =>
    r.status != .none && r.cidr.matchesAddr addr

/-- A block holds the address, and the most specific rule that does is a bypass. -/
def Excepted (p : Posture) (addr : IpAddr) : Prop :=
  ∃ r, MostSpecific (p.holding addr) r ∧ r.status = .bypass ∧
    ∃ b ∈ p.holding addr, b.status = .block

/-- The universal rules have no port and no protocol. -/
def Unscoped (p : Posture) : Prop :=
  ∀ r ∈ p.ruleSets.cidr.bucket uidUniversal, r.port = .any ∧ r.proto = .any

theorem dnsOutcome_eq_address_iff {p : Posture} {name : Str} (hname : ¬ p.DeniesName name)
    (addrs : List IpAddr) :
    p.dnsOutcome name addrs = .deny .address ↔ p.DeniesAddr addrs := by
  have hmatch : ∀ q : Str → Bool, (!(stem name).isEmpty && q (stem name)) = true ↔
      stem name ≠ [] ∧ q (stem name) = true := by
    intro q
    simp
  have hd : ¬ (!(stem name).isEmpty && p.ruleSets.domain.matchesUniversal (stem name)) = true := by
    rw [hmatch]
    exact fun h => hname ⟨h.1, .inl h.2⟩
  have hg : ¬ (!(stem name).isEmpty &&
      p.ruleSets.globDomains.any fun pat => pat.matchesName (stem name)) = true := by
    rw [hmatch fun s => p.ruleSets.globDomains.any fun pat => pat.matchesName s]
    exact fun h => hname ⟨h.1, .inr (any_eq_true.mp h.2)⟩
  rw [dnsOutcome, applyDnsVerdict, if_neg hd, if_neg hg]
  simp [DeniesAddr]

theorem deniesAddr_singleton_iff {p : Posture} (h : p.Unscoped) (addr : IpAddr) :
    p.DeniesAddr [addr] ↔ ∃ b ∈ p.holding addr, b.status = .block := by
  simp only [DeniesAddr, universalBlocks, holding, mem_singleton, exists_eq_left,
    mem_map, mem_filter, Bool.and_eq_true, beq_iff_eq, bne_iff_ne]
  constructor
  · rintro ⟨c, ⟨r, ⟨hr, ⟨hblock, -⟩, -⟩, rfl⟩, haddr⟩
    exact ⟨r, ⟨hr, by rw [hblock]; decide, haddr⟩, hblock⟩
  · rintro ⟨r, ⟨hr, -, haddr⟩, hblock⟩
    exact ⟨r.cidr, ⟨r, ⟨hr, ⟨hblock, (h r hr).1⟩, (h r hr).2⟩, rfl⟩, haddr⟩

/-- Without ports and protocols the scan looks for the first rule that holds the address. -/
theorem lookupUniversal_eq_block_iff {p : Posture} (h : p.Unscoped) (addr : IpAddr)
    (dport : UInt16) (proto : UInt8) :
    p.ruleSets.cidr.lookupUniversal addr dport proto = some .block ↔
      ∃ r, (p.holding addr).head? = some r ∧ r.status = .block := by
  have hcompetes : (p.ruleSets.cidr.bucket uidUniversal).filter
      (IpRule.competes addr dport proto) = p.holding addr := by
    refine filter_congr fun r hr => ?_
    obtain ⟨hport, hproto⟩ := h r hr
    simp [IpRule.competes, IpRule.accepts, hport, hproto, PortSpec.accepts, ProtoSpec.accepts]
  rw [lookupUniversal, scanBucket_eq_block_iff, ← head?_filter, hcompetes]

/-- In a finalized set the first rule that holds the address is the most specific one. -/
theorem mostSpecific_of_head? {p : Posture} (hfin : p.ruleSets.cidr.finalize = p.ruleSets.cidr)
    {addr : IpAddr} {r : IpRule} (hr : (p.holding addr).head? = some r) :
    MostSpecific (p.holding addr) r := by
  have hsorted : p.ruleSets.cidr.bucket uidUniversal =
      rankSort IpRule.specificity (p.ruleSets.cidr.bucket uidUniversal) := by
    rw [← bucket_finalize, hfin]
  refine mostSpecific_of_foremost addr ?_ (foremost_of_find?_rankSort (SameForemost.refl _) ?_)
  · intro y hy
    exact (Bool.and_eq_true_iff.mp (mem_filter.mp hy).2).2
  · rw [← hsorted, ← head?_filter]
    exact hr

/-- **When an answer and a connection agree on an address**: when no bypass wins over a
block there. -/
theorem address_verdicts_agree_iff {p : Posture}
    (hfin : p.ruleSets.cidr.finalize = p.ruleSets.cidr) (hany : p.Unscoped) {name : Str}
    (hname : ¬ p.DeniesName name) (addr : IpAddr) :
    (p.dnsOutcome name [addr] = .deny .address ↔
      ∀ dport proto, p.ruleSets.cidr.lookupUniversal addr dport proto = some .block) ↔
    ¬ p.Excepted addr := by
  rw [dnsOutcome_eq_address_iff hname, deniesAddr_singleton_iff hany]
  simp only [lookupUniversal_eq_block_iff hany, forall_const]
  cases hhead : (p.holding addr).head? with
  | none =>
    have hnil : p.holding addr = [] := head?_eq_none_iff.mp hhead
    simp [Excepted, hnil]
  | some r =>
    have hmost := mostSpecific_of_head? hfin hhead
    have hmem : r ∈ p.holding addr := hmost.mem
    have hexcepted : p.Excepted addr ↔
        r.status = .bypass ∧ ∃ b ∈ p.holding addr, b.status = .block := by
      constructor
      · rintro ⟨r', hmost', hrest⟩
        rwa [hmost'.unique hmost] at hrest
      · exact fun hrest => ⟨r, hmost, hrest⟩
    rw [hexcepted]
    cases hstatus : r.status with
    | block =>
      have hblock : ∃ b ∈ p.holding addr, b.status = .block := ⟨r, hmem, hstatus⟩
      simp [hblock, hstatus]
    | bypass => simp [hstatus]
    | none =>
      -- an inert rule holds nothing
      have hinert := (Bool.and_eq_true_iff.mp (mem_filter.mp hmem).2).1
      rw [hstatus] at hinert
      cases hinert

theorem unscoped_exceptionPosture : exceptionPosture.Unscoped := by
  rw [Unscoped]
  decide +kernel

theorem not_deniesName_exceptionPosture (name : Str) : ¬ exceptionPosture.DeniesName name := by
  rintro ⟨-, hdomain | ⟨g, hg, -⟩⟩
  · cases hdomain
  · cases hg

/-- The exception is for `10.0.0.1` alone: the two verdicts agree on the address beside it. -/
theorem address_verdicts_agree_beside :
    exceptionPosture.dnsOutcome "intranet.example".toList [.v4 ⟨10, 0, 0, 2⟩] = .deny .address ↔
      ∀ dport proto, exceptionPosture.ruleSets.cidr.lookupUniversal (.v4 ⟨10, 0, 0, 2⟩) dport
        proto = some .block := by
  refine (address_verdicts_agree_iff (finalize_finalize _) unscoped_exceptionPosture
    (not_deniesName_exceptionPosture _) _).mpr ?_
  have hno : ∀ r ∈ exceptionPosture.holding (.v4 ⟨10, 0, 0, 2⟩), r.status ≠ .bypass := by
    decide +kernel
  rintro ⟨r, hmost, hbypass, -⟩
  exact hno r hmost.mem hbypass

/-- The answer with the excepted address is denied, and a connection to it is not. -/
theorem excepted_address_denied_in_answer :
    exceptionPosture.ruleSets.cidr.finalize = exceptionPosture.ruleSets.cidr ∧
      exceptionPosture.Unscoped ∧ ¬ exceptionPosture.DeniesName "intranet.example".toList ∧
      exceptionPosture.dnsOutcome "intranet.example".toList [.v4 ⟨10, 0, 0, 1⟩] =
        .deny .address ∧
      exceptionPosture.ruleSets.cidr.lookupUniversal (.v4 ⟨10, 0, 0, 1⟩) 443 6 = some .bypass := by
  refine ⟨finalize_finalize _, unscoped_exceptionPosture, not_deniesName_exceptionPosture _, ?_⟩
  decide +kernel

end Posture

/-! ### Installing domain rules -/

/-- The text of a refusal. -/
def MalformedPattern.text : MalformedPattern → Str
  | .empty => "the rule is empty".toList
  | .tooLong => "the rule is too long (max 253 chars)".toList
  | .tooFewLabels =>
    "the rule has too few labels (a bare TLD blocks everything under it)".toList
  | .emptyLabel => "the rule has an empty label (a `..`)".toList
  | .labelTooLong => "the rule has a label longer than 63 chars".toList
  | .badChar c => "the rule has an illegal character: '".toList ++ c :: "'".toList
  | .leadingOrTrailingHyphen => "a label begins or ends with a hyphen".toList
  | .tooManyWildcards => "a label has too many wildcards".toList
  | .overBroad => "the rule is over-broad (e.g. `*.com` would block a whole TLD)".toList
  | .numericTld => "the final label is all-numeric (not a real domain)".toList

structure RejectedRule where
  rule : Str
  reason : Str
  deriving DecidableEq

/-- The number of refusals that are reported one by one. -/
def maxRejectedReported : ℕ := 64

structure InstallReport where
  accepted : ℕ
  rejected : List RejectedRule
  rejectedTotal : ℕ
  deriving DecidableEq

/-- The accumulators of the install loop. -/
structure Install where
  set : DomainRuleSet := {}
  globs : List DomainPattern := []
  rejected : List RejectedRule := []
  rejectedTotal : ℕ := 0

/-- One turn: the rule is refused, or becomes a glob, or goes to the trie of its app. -/
def Install.add (i : Install) (r : DomainRule) : Install :=
  match validatePattern r.domain with
  | .error e =>
    { i with
      rejected :=
        if i.rejected.length < maxRejectedReported then i.rejected ++ [⟨r.domain, e.text⟩]
        else i.rejected
      rejectedTotal := i.rejectedTotal + 1 }
  | .ok pattern =>
    if pattern.hasAnyWildcard then { i with globs := i.globs ++ [pattern] }
    else { i with set := i.set.insert r }

/-- `install_domain_rules`. -/
def Warden.installDomainRules {hash : CacheKey → ℕ} (w : Warden hash) (rules : List DomainRule) :
    InstallReport × Warden hash :=
  let i := rules.foldl Install.add {}
  let set := i.set.finalize
  (⟨set.count + i.globs.length, i.rejected, i.rejectedTotal⟩,
    (w.setDomainRules set).setDomainGlobs i.globs)

/-- The glob a rule becomes, if it is accepted and has a star. -/
def DomainRule.glob? (r : DomainRule) : Option DomainPattern :=
  match validatePattern r.domain with
  | .error _ => none
  | .ok pattern => if pattern.hasAnyWildcard then some pattern else none

/-- The rule is accepted and has no star. -/
def DomainRule.isPlain (r : DomainRule) : Bool :=
  match validatePattern r.domain with
  | .error _ => false
  | .ok pattern => !pattern.hasAnyWildcard

namespace Install

theorem foldl_add (rules : List DomainRule) (i : Install) :
    (rules.foldl add i).set = (rules.filter DomainRule.isPlain).foldl DomainRuleSet.insert i.set ∧
    (rules.foldl add i).globs = i.globs ++ rules.filterMap DomainRule.glob? := by
  induction rules generalizing i with
  | nil => simp
  | cons r rules ih =>
    rw [foldl_cons]
    obtain ⟨hset, hglobs⟩ := ih (i.add r)
    rw [hset, hglobs]
    cases hv : validatePattern r.domain with
    | error e => simp [add, DomainRule.isPlain, DomainRule.glob?, hv]
    | ok pattern =>
      by_cases hstar : pattern.hasAnyWildcard = true
      · simp [add, DomainRule.isPlain, DomainRule.glob?, hv, hstar]
      · simp [add, DomainRule.isPlain, DomainRule.glob?, hv, hstar]

end Install

/-! ### A rule of one app

Two installs that differ in one rule of one app. -/

section OneRule

variable (pre post : List DomainRule) (r : DomainRule)

/-- The trie of another app does not depend on the rule. -/
theorem matchesApp_of_uid_ne {uid : UInt32} (huid : uid ≠ r.uid) (qname : Str) :
    (DomainRuleSet.ofRules ((pre ++ r :: post).filter DomainRule.isPlain)).matchesApp uid qname =
      (DomainRuleSet.ofRules ((pre ++ post).filter DomainRule.isPlain)).matchesApp uid qname := by
  rw [Bool.eq_iff_iff, DomainRuleSet.matchesApp_ofRules, DomainRuleSet.matchesApp_ofRules]
  constructor
  · rintro ⟨x, hx, hown, hrest⟩
    refine ⟨x, ?_, hown, hrest⟩
    have hne : x ≠ r := fun h => huid (h ▸ hown).symm
    simpa [mem_filter, hne] using hx
  · rintro ⟨x, hx, hrest⟩
    refine ⟨x, ?_, hrest⟩
    simp only [mem_filter, mem_append, mem_cons] at hx ⊢
    exact ⟨hx.1.imp_right .inr, hx.2⟩

/-- The globs of an install with the rule are those without it and the rule's own. -/
theorem mem_filterMap_glob? (g : DomainPattern) :
    g ∈ (pre ++ r :: post).filterMap DomainRule.glob? ↔
      g ∈ (pre ++ post).filterMap DomainRule.glob? ∨ r.glob? = some g := by
  simp only [mem_filterMap, mem_append, mem_cons]
  constructor
  · rintro ⟨x, hx | rfl | hx, hg⟩
    · exact .inl ⟨x, .inl hx, hg⟩
    · exact .inr hg
    · exact .inl ⟨x, .inr hx, hg⟩
  · rintro (⟨x, hx | hx, hg⟩ | hg)
    · exact ⟨x, .inl hx, hg⟩
    · exact ⟨x, .inr (.inr hx), hg⟩
    · exact ⟨r, .inr (.inl rfl), hg⟩

end OneRule

namespace Warden

variable {hash : CacheKey → ℕ} (country : IpAddr → Option (UInt8 × UInt8))

/-- The posture after an install. -/
def installed (w : Warden hash) (rules : List DomainRule) : Posture :=
  (w.installDomainRules rules).2.toPosture

theorem installed_eq (w : Warden hash) (rules : List DomainRule) :
    w.installed rules =
      { w.toPosture with
        ruleSets.domain := (DomainRuleSet.ofRules (rules.filter DomainRule.isPlain)).finalize
        ruleSets.globDomains := rules.filterMap DomainRule.glob? } := by
  obtain ⟨hset, hglobs⟩ := Install.foldl_add rules {}
  rw [nil_append] at hglobs
  rw [installed, installDomainRules, hset, hglobs]
  rfl

theorem verdictAt_installDomainRules (w : Warden hash) (rules : List DomainRule)
    (conn : ConnFacts) (epoch : ℕ) :
    ((w.installDomainRules rules).2.verdictAt country conn epoch).1 =
      uncachedVerdict country (w.installed rules) conn := by
  rw [verdictAt_fst]
  rfl

theorem readsAlike_installed (w : Warden hash) (pre post : List DomainRule) {r : DomainRule}
    (happ : r.uid ≠ uidUniversal) {uid : UInt32} (huid : uid ≠ r.uid) :
    ReadsAlike (w.installed (pre ++ r :: post)) (w.installed (pre ++ post)) uid := by
  rw [installed_eq, installed_eq]
  exact
    { row := rfl
      toggles := rfl
      universalRules := rfl
      domainApp := funext (matchesApp_of_uid_ne pre post r huid)
      domainUniversal := funext (matchesApp_of_uid_ne pre post r happ.symm)
      cidrApp := rfl
      cidrUniversal := rfl
      geo := fun _ => Iff.rfl }

theorem deniesName_installed (w : Warden hash) (pre post : List DomainRule) {r : DomainRule}
    (happ : r.uid ≠ uidUniversal) (name : Str) :
    (w.installed (pre ++ r :: post)).DeniesName name ↔
      (w.installed (pre ++ post)).DeniesName name ∨
        ∃ g, r.glob? = some g ∧ g.matchesName (stem name) = true := by
  have huni := (w.readsAlike_installed pre post happ happ.symm).domainUniversal
  rw [Posture.DeniesName, Posture.DeniesName, huni, installed_eq, installed_eq]
  simp only [mem_filterMap_glob? pre post r]
  constructor
  · rintro ⟨hstem, huniv | ⟨g, hg | hg, hmatch⟩⟩
    · exact .inl ⟨hstem, .inl huniv⟩
    · exact .inl ⟨hstem, .inr ⟨g, hg, hmatch⟩⟩
    · exact .inr ⟨g, hg, hmatch⟩
  · rintro (⟨hstem, huniv | ⟨g, hg, hmatch⟩⟩ | ⟨g, hg, hmatch⟩)
    · exact ⟨hstem, .inl huniv⟩
    · exact ⟨hstem, .inr ⟨g, .inl hg, hmatch⟩⟩
    · refine ⟨?_, .inr ⟨g, .inr hg, hmatch⟩⟩
      -- a pattern matches no empty name
      intro hstem
      have hnil : stem [] = [] := rfl
      rw [hstem, DomainPattern.matchesName, hnil] at hmatch
      cases hmatch

/-- **When a rule of one app is felt by that app alone**: when it is refused or has no star,
or when every name of its pattern is denied without it. -/
theorem app_rule_confined_iff (w : Warden hash) (pre post : List DomainRule) (r : DomainRule)
    (happ : r.uid ≠ uidUniversal) :
    ((∀ name addrs, (w.installed (pre ++ r :: post)).dnsVerdict name addrs =
        (w.installed (pre ++ post)).dnsVerdict name addrs) ∧
      ∀ conn epoch, conn.uid ≠ r.uid →
        ((w.installDomainRules (pre ++ r :: post)).2.verdictAt country conn epoch).1 =
          ((w.installDomainRules (pre ++ post)).2.verdictAt country conn epoch).1) ↔
    ∀ g, r.glob? = some g → ∀ name, g.matchesName (stem name) = true →
      (w.installed (pre ++ post)).DeniesName name := by
  have hconn : ∀ conn epoch, conn.uid ≠ r.uid →
      ((w.installDomainRules (pre ++ r :: post)).2.verdictAt country conn epoch).1 =
        ((w.installDomainRules (pre ++ post)).2.verdictAt country conn epoch).1 := by
    intro conn epoch huid
    rw [verdictAt_installDomainRules, verdictAt_installDomainRules]
    exact (w.readsAlike_installed pre post happ huid).uncachedVerdict_eq country
  have haddr : ∀ addrs, (w.installed (pre ++ r :: post)).DeniesAddr addrs ↔
      (w.installed (pre ++ post)).DeniesAddr addrs := fun _ => by
    rw [installed_eq, installed_eq]
    rfl
  rw [and_iff_left hconn]
  constructor
  · intro h g hg name hmatch
    -- an answer without addresses is judged by its name
    have hdeny : (w.installed (pre ++ r :: post)).dnsVerdict name [] = .deny :=
      (Posture.dnsVerdict_eq_deny_iff _ _ _).mpr
        (.inl ((w.deniesName_installed pre post happ name).mpr (.inr ⟨g, hg, hmatch⟩)))
    rw [h name [], Posture.dnsVerdict_eq_deny_iff] at hdeny
    rcases hdeny with hname | ⟨addr, hmem, -⟩
    · exact hname
    · cases hmem
  · intro h name addrs
    have hiff : (w.installed (pre ++ r :: post)).dnsVerdict name addrs = .deny ↔
        (w.installed (pre ++ post)).dnsVerdict name addrs = .deny := by
      rw [Posture.dnsVerdict_eq_deny_iff, Posture.dnsVerdict_eq_deny_iff, haddr,
        w.deniesName_installed pre post happ]
      constructor
      · rintro ((hname | ⟨g, hg, hmatch⟩) | haddrs)
        · exact .inl hname
        · exact .inl (h g hg name hmatch)
        · exact .inr haddrs
      · exact Or.imp_left .inl
    exact Verdict.eq_of_deny_iff hiff

/-- A rule that is for every app. -/
def trackerRule : DomainRule := ⟨"tracker.example".toList, uidUniversal, true⟩

/-- A plain rule of one app. -/
def adsRule : DomainRule := ⟨"ads.example".toList, 10123, true⟩

/-- No answer feels the plain rule of app 10123. -/
theorem app_rule_confined_plain :
    let w := withCacheCap (fun _ => 0) 16
    adsRule.uid ≠ uidUniversal ∧
      (w.installed [adsRule, trackerRule]).dnsVerdict "ads.example".toList [] =
        (w.installed [trackerRule]).dnsVerdict "ads.example".toList [] := by
  intro w
  refine ⟨by decide, ?_⟩
  refine ((app_rule_confined_iff (fun _ => none) w [] [trackerRule] adsRule (by decide)).mpr
    ?_).1 _ _
  intro g hg
  have hnone : adsRule.glob? = none := by decide +kernel
  rw [hnone] at hg
  cases hg

/-- A rule with a star for app 10123 denies an answer, whichever app asked. -/
theorem app_glob_denies_all :
    let w := withCacheCap (fun _ => 0) 16
    (10123 : UInt32) ≠ uidUniversal ∧
      (w.installed [⟨"ad*.tracker.net".toList, 10123, true⟩]).dnsVerdict
        "ads1.tracker.net".toList [] = .deny ∧
      (w.installed []).dnsVerdict "ads1.tracker.net".toList [] = .allow := by
  refine ⟨by decide, ?_, ?_⟩
  · decide +kernel
  · decide +kernel

end Warden

end Firewall
end TortaCore
