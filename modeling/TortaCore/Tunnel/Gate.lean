import TortaCore.Firewall.Domain
import TortaCore.Tunnel.Synth

/-!
# The gate in front of the resolver

What the tunnel loop does with one packet (`handle_packet` in `tunnel/mod.rs`).  A standard
DNS query is judged by the armed domain rules before it goes to the resolver.  The name that
is judged comes from the tunnel's own walker; when that gives up there is no name, and the
query goes on unjudged.

The resolver is a parameter, and so are the rules of the armed warden.  What is recorded
about packets (the tracker and the attribution of addresses) is left out.
-/

namespace TortaCore
namespace Tunnel

open Text Wire Dns Blocklist Firewall Option

structure TunnelConfig where
  blockedRcode : UInt8 := rcodeServfail
  fwd53 : Bool := true
  bypassLan : Bool := true

structure TunnelStats where
  dnsIntercepted : ℕ := 0
  dnsAnswered : ℕ := 0
  dnsServfail : ℕ := 0
  dnsWardenDenied : ℕ := 0
  dropped : ℕ := 0
  deriving DecidableEq

/-- The frame that is written back, the payload that went to the resolver, and the counters. -/
structure Handled where
  reply : Option Bytes
  asked : Option Bytes
  stats : TunnelStats
  deriving DecidableEq

def TunnelStats.drop (stats : TunnelStats) : Handled :=
  ⟨none, none, { stats with dropped := stats.dropped + 1 }⟩

/-- Whether the armed rules match the name of the query; without a name they do not. -/
def gateDenies (warden : Option DomainRuleSet) (payload : Bytes) : Bool :=
  match extractQname payload with
  | none => false
  | some (qname, _) =>
    !qname.isEmpty &&
      match warden with
      | some rules => rules.matchesFor uidUniversal qname
      | none => false

/-- The queries that are left to the system resolver. -/
def bypassed (cfg : TunnelConfig) (payload : Bytes) : Bool :=
  cfg.bypassLan && (extractQname payload).any fun r => matchesLanSuffix r.1

/-- The part of `handle_packet` behind the LAN names. -/
def answerQuery (cfg : TunnelConfig) (warden : Option DomainRuleSet)
    (resolveDatapath : Bytes → Option Bytes) (parsed : ParsedPacket) (payload : Bytes)
    (stats : TunnelStats) : Handled :=
  if gateDenies warden payload then
    ⟨(synthesizeServfail payload cfg.blockedRcode).map (synthIpUdpReply parsed), none,
      { stats with dnsWardenDenied := stats.dnsWardenDenied + 1 }⟩
  else
    match resolveDatapath payload with
    | some reply =>
      ⟨some (synthIpUdpReply parsed reply), some payload,
        { stats with dnsAnswered := stats.dnsAnswered + 1 }⟩
    | none =>
      ⟨(synthesizeServfail payload rcodeServfail).map (synthIpUdpReply parsed), some payload,
        { stats with dnsServfail := stats.dnsServfail + 1 }⟩

/-- `handle_packet`. -/
def handlePacket (cfg : TunnelConfig) (warden : Option DomainRuleSet)
    (resolveDatapath : Bytes → Option Bytes) (pkt : Bytes) (stats : TunnelStats) : Handled :=
  match parseIpUdp pkt with
  | none => stats.drop
  | some parsed =>
    if !(parsed.isDnsQuery && cfg.fwd53) then stats.drop
    else
      match parsed.udp with
      | none => stats.drop
      | some udp =>
        let stats := { stats with dnsIntercepted := stats.dnsIntercepted + 1 }
        if udp.payload.length < dnsHeaderLen || !isStandardQuery udp.payload then stats.drop
        else if bypassed cfg udp.payload then stats.drop
        else answerQuery cfg warden resolveDatapath parsed udp.payload stats

/-! ### What the gate answers -/

/-- A packet with a standard query that the loop takes. -/
structure Intercepted (cfg : TunnelConfig) (pkt : Bytes) (p : ParsedPacket) (u : UdpLayer) :
    Prop where
  parsed : parseIpUdp pkt = some p
  udp : p.udp = some u
  port : u.dport = 53
  fwd53 : cfg.fwd53 = true
  standard : isStandardQuery u.payload = true
  notLan : bypassed cfg u.payload = false

theorem le_length_of_isStandardQuery {payload : Bytes} (h : isStandardQuery payload = true) :
    dnsHeaderLen ≤ payload.length := by
  unfold isStandardQuery at h
  split at h
  · cases h
  · omega

theorem Intercepted.handlePacket_eq {cfg : TunnelConfig} {pkt : Bytes} {p : ParsedPacket}
    {u : UdpLayer} (h : Intercepted cfg pkt p u) (warden : Option DomainRuleSet)
    (resolveDatapath : Bytes → Option Bytes) (stats : TunnelStats) :
    handlePacket cfg warden resolveDatapath pkt stats =
      answerQuery cfg warden resolveDatapath p u.payload
        { stats with dnsIntercepted := stats.dnsIntercepted + 1 } := by
  have hdns : p.isDnsQuery = true := by simp [ParsedPacket.isDnsQuery, h.udp, h.port]
  have hlen := Nat.not_lt.mpr (le_length_of_isStandardQuery h.standard)
  simp [handlePacket, h.parsed, hdns, h.fwd53, h.udp, hlen, h.standard, h.notLan]

/-- The query is refused with the blocked code, and the resolver is not asked. -/
def AnsweredBlocked (cfg : TunnelConfig) (p : ParsedPacket) (out : Handled) : Prop :=
  out.asked = none ∧ ∃ dns, dns[3]? = some (cfg.blockedRcode &&& 0x0F) ∧
    out.reply = some (synthIpUdpReply p dns)

theorem answeredBlocked_iff_gateDenies {cfg : TunnelConfig} {pkt : Bytes} {p : ParsedPacket}
    {u : UdpLayer} (h : Intercepted cfg pkt p u) (warden : Option DomainRuleSet)
    (resolveDatapath : Bytes → Option Bytes) (stats : TunnelStats) :
    AnsweredBlocked cfg p (handlePacket cfg warden resolveDatapath pkt stats) ↔
      gateDenies warden u.payload = true := by
  rw [h.handlePacket_eq, answerQuery]
  cases hgate : gateDenies warden u.payload with
  | true =>
    obtain ⟨dns, hdns, hcode⟩ :=
      synthesizeServfail_of_le (le_length_of_isStandardQuery h.standard) cfg.blockedRcode
    simp only [if_true, iff_true]
    exact ⟨rfl, dns, hcode, by rw [hdns, map_some]⟩
  | false =>
    refine iff_of_false (fun hblocked => ?_) Bool.false_ne_true
    have hasked := hblocked.1
    cases hres : resolveDatapath u.payload with
    | some reply => simp [hres] at hasked
    | none => simp [hres] at hasked

/-! ### The name that is judged -/

/-- A rule for the domain, if it can be armed, matches the name. -/
def RuleMatches (domain name : Str) : Prop :=
  Insertable domain ∧ zonePath domain <+: walkLabels name

/-- The tunnel's walker gets the name: it has no more than twenty-five labels and pointers,
its bytes are UTF-8, and every rule that matches it in lower case matches it as it is.  The
last is about letters whose lower case depends on the labels around them. -/
def GateReads (payload : Bytes) : Prop :=
  ∃ n ls name, HopsAt payload dnsHeaderLen n ∧ n ≤ qnamePtrCap ∧
    LabelsAt payload dnsHeaderLen ls ∧ fromUtf8 ([dot].intercalate ls) = some name ∧
    ∀ domain, RuleMatches domain (toLowercase name) → RuleMatches domain name

theorem matchesFor_of_ruleMatches {domain name : Str} :
    (DomainRuleSet.ofRules [⟨domain, uidUniversal, true⟩]).matchesFor uidUniversal name = true ↔
      RuleMatches domain name := by
  rw [DomainRuleSet.matchesFor_universal, DomainRuleSet.matchesApp_ofRules]
  simp [RuleMatches]

theorem ruleMatches_of_built {s : DomainRuleSet} (h : s.Built) :
    ∃ domains : List Str, ∀ name, s.matchesFor uidUniversal name = true ↔
      ∃ d ∈ domains, RuleMatches d name := by
  obtain ⟨rules, hrules⟩ := h.matchesApp_iff
  refine ⟨(rules.filter fun r => r.uid = uidUniversal).map DomainRule.domain, fun name => ?_⟩
  rw [DomainRuleSet.matchesFor_universal, hrules]
  simp [RuleMatches, and_assoc]

theorem RuleMatches.ne_nil {domain name : Str} (h : RuleMatches domain name) : name ≠ [] := by
  rintro rfl
  have hwalk : walkLabels [] = [] := by decide +kernel
  have hpre := h.2
  rw [hwalk, List.prefix_nil, zonePath, List.reverse_eq_nil_iff, canonicalLabels_eq_nil] at hpre
  exact h.1.1 hpre

theorem gateDenies_eq_true {rules : DomainRuleSet} {payload : Bytes} :
    gateDenies (some rules) payload = true ↔
      ∃ name, (∃ off, extractQname payload = some (name, off)) ∧ name ≠ [] ∧
        rules.matchesFor uidUniversal name = true := by
  unfold gateDenies
  cases extractQname payload with
  | none => simp
  | some r => simp [Prod.ext_iff]

/-- **When the gate judges the resolver's name**: every rule set that matches it has the query
refused exactly when no rule can match it or the tunnel's walker gets it. -/
theorem answeredBlocked_iff {cfg : TunnelConfig} {pkt : Bytes} {p : ParsedPacket} {u : UdpLayer}
    {q : DnsQuestion} {qend : ℕ} (h : Intercepted cfg pkt p u)
    (hq : parseQuestionFull u.payload = some (q, qend))
    (resolveDatapath : Bytes → Option Bytes) (stats : TunnelStats) :
    (∀ rules : DomainRuleSet, rules.Built → rules.matchesFor uidUniversal q.qname = true →
      AnsweredBlocked cfg p (handlePacket cfg (some rules) resolveDatapath pkt stats)) ↔
    (∀ domain, ¬ RuleMatches domain q.qname) ∨ GateReads u.payload := by
  obtain ⟨n, ls, hhops, hlabels, hqname, hextract⟩ := extractQname_eq_some_iff hq
  simp only [answeredBlocked_iff_gateDenies h, gateDenies_eq_true, hextract]
  constructor
  · intro hall
    -- one rule is enough to see what the walker reads
    have hone : ∀ domain, RuleMatches domain q.qname → ∃ name,
        (n ≤ qnamePtrCap ∧ ls ≠ [] ∧ fromUtf8 ([dot].intercalate ls) = some name) ∧
        RuleMatches domain name := by
      intro domain hmatch
      obtain ⟨name, hread, -, hname⟩ := hall (.ofRules [⟨domain, uidUniversal, true⟩])
        (.insert .empty _) (matchesFor_of_ruleMatches.mpr hmatch)
      exact ⟨name, hread, matchesFor_of_ruleMatches.mp hname⟩
    by_cases hsome : ∃ domain, RuleMatches domain q.qname
    · obtain ⟨domain, hmatch⟩ := hsome
      obtain ⟨name, ⟨hn, -, hname⟩, -⟩ := hone domain hmatch
      refine .inr ⟨n, ls, name, hhops, hn, hlabels, hname, fun domain' hmatch' => ?_⟩
      rw [← fromUtf8Lossy_of_fromUtf8 hname, ← hqname] at hmatch'
      obtain ⟨name', ⟨-, -, hname'⟩, hmatch''⟩ := hone domain' hmatch'
      rw [hname] at hname'
      cases hname'
      exact hmatch''
    · exact .inl fun domain hmatch => hsome ⟨domain, hmatch⟩
  · rintro hcond rules hbuilt hmatches
    obtain ⟨domains, hdomains⟩ := ruleMatches_of_built hbuilt
    obtain ⟨domain, hdomain, hmatch⟩ := (hdomains _).mp hmatches
    obtain hnone | ⟨n', ls', name, hhops', hn, hlabels', hname, hlower⟩ := hcond
    · exact absurd hmatch (hnone domain)
    obtain rfl := hhops.unique hhops'
    obtain rfl := hlabels.unique hlabels'
    rw [hqname, fromUtf8Lossy_of_fromUtf8 hname] at hmatch
    have hmatch' := hlower domain hmatch
    refine ⟨name, ⟨hn, ?_, hname⟩, hmatch'.ne_nil, (hdomains name).mpr ⟨domain, hdomain, hmatch'⟩⟩
    rintro rfl
    -- the root has no name to match
    exact hmatch'.ne_nil (some.inj (hname.symm.trans rfl))

/-! ### Queries on the wire -/

/-- A standard query for the type A and the labels. -/
def queryPayload (labels : List Bytes) : Bytes :=
  [0x12, 0x34, 1, 0, 0, 1, 0, 0, 0, 0, 0, 0] ++
    (labels.flatMap fun l => UInt8.ofNat l.length :: l) ++ [0, 0, 1, 0, 1]

/-- The query in a packet from 10.0.0.2 to port 53 of 10.0.0.1. -/
def queryPacket (labels : List Bytes) : Bytes :=
  let payload := queryPayload labels
  [0x45, 0] ++ beBytes 2 (28 + payload.length) ++
    [0, 0, 0, 0, 64, 17, 0, 0, 10, 0, 0, 2, 10, 0, 0, 1] ++
    beBytes 2 40000 ++ beBytes 2 53 ++ beBytes 2 (8 + payload.length) ++ [0, 0] ++ payload

/-- A query for `ads.example` is refused under a rule for `example`. -/
theorem answeredBlocked_ads_example :
    ∃ p, AnsweredBlocked {} p (handlePacket {}
      (some (.ofRules [⟨"example".toList, uidUniversal, true⟩])) (fun _ => none)
      (queryPacket [utf8 "ads".toList, utf8 "example".toList]) {}) := by
  let labels := [utf8 "ads".toList, utf8 "example".toList]
  let payload := queryPayload labels
  let u : UdpLayer := ⟨40000, 53, payload⟩
  let p : ParsedPacket := ⟨4, .v4 ⟨10, 0, 0, 2⟩, .v4 ⟨10, 0, 0, 1⟩, 17, some u, none⟩
  have hint : Intercepted {} (queryPacket labels) p u :=
    ⟨by decide +kernel, rfl, rfl, rfl, by decide +kernel, by decide +kernel⟩
  have hq : parseQuestionFull payload = some (⟨0x1234, "ads.example".toList, 1, 1⟩, 29) := by
    decide +kernel
  have hads : payload[12]? = some 3 := by decide +kernel
  have hexample : payload[16]? = some 7 := by decide +kernel
  have hroot : payload[24]? = some 0 := by decide +kernel
  have hreads : GateReads payload := by
    refine ⟨2, labels, "ads.example".toList, ?_, by decide, ?_, by decide +kernel,
      fun domain hmatch => ?_⟩
    · exact .label hads (by decide) (by decide)
        (.label hexample (by decide) (by decide) (.root hroot))
    · exact .label hads (by decide) (by decide) (by decide +kernel)
        (.label hexample (by decide) (by decide) (by decide +kernel) (.root hroot))
    · have hlower : toLowercase "ads.example".toList = "ads.example".toList := by decide +kernel
      rwa [hlower] at hmatch
  exact ⟨p, (answeredBlocked_iff hint hq (fun _ => none) {}).mpr (.inr hreads) _
    (.insert .empty _) (by decide +kernel)⟩

/-- A rule for the domain matches the resolver's name of the query, and the query goes to the
resolver all the same. -/
def Unjudged (labels : List Bytes) (domain : Str) : Prop :=
  let rules := DomainRuleSet.ofRules [⟨domain, uidUniversal, true⟩]
  ((parseQuestionFull (queryPayload labels)).any fun q =>
    rules.matchesFor uidUniversal q.1.qname) = true ∧
  (handlePacket {} (some rules) (fun _ => none) (queryPacket labels) {}).asked =
    some (queryPayload labels)

/-- A name of twenty-six labels, a label that is not UTF-8, and a capital sigma at the end of a
label. -/
theorem unjudged_queries :
    Unjudged (List.replicate 26 [0x61]) "a.a".toList ∧
      Unjudged [[0xFF], [0x61], [0x62]] "a.b".toList ∧
      Unjudged [[0x61, 0xCE, 0xA3], [0x62]] "aσ.b".toList := by
  unfold Unjudged
  decide +kernel

end Tunnel
end TortaCore
