import TortaCore.Store.Memo
import TortaCore.Firewall.Durable

/-!
# The warden

The warden (`warden/mod.rs`): a posture, a cache of verdicts in front of the cascade, and
the counters.  A verdict is cached under the identity of the connection and the epoch of
the blocklist.  Whoever changes the posture empties the cache, each mutator by itself.

The hash of the identities is a parameter, as is the table of countries.  The durable copy
of the posture, the log directory and the fail-closed bit are left out: no verdict reads
them.

## Main definitions

* `CacheKey`, `Warden`, `Warden.verdictAt`.
* `Action`, `Warden.step`: every mutator, and a verdict, as a step.
-/

namespace TortaCore
namespace Firewall

open Text Store Net

/-! ### The cache -/

/-- The identity of a connection: everything but the resolver's flag. -/
structure CacheKey where
  uid : UInt32
  daddr : IpAddr
  dport : UInt16
  proto : UInt8
  net : NetworkType
  qname : Option Str
  deriving DecidableEq

def CacheKey.fromConn (conn : ConnFacts) : CacheKey :=
  ⟨conn.uid, conn.daddr, conn.dport, conn.proto, conn.net, conn.qname⟩

/-- The verdicts by identity, in the slot of its hash and under the epoch. -/
abbrev DecisionCache (hash : CacheKey → ℕ) := MemoTable CacheKey Verdict hash

structure WardenStats where
  allow : ℕ := 0
  deny : ℕ := 0
  denyByUniversalToggle : ℕ := 0
  denyByApp : ℕ := 0
  denyByUniversalRule : ℕ := 0
  denyByBlocklist : ℕ := 0
  deriving DecidableEq

def WardenStats.recordDeny (s : WardenStats) (tier : DenyTier) : WardenStats :=
  let s := { s with deny := s.deny + 1 }
  match tier with
  | .universalToggle => { s with denyByUniversalToggle := s.denyByUniversalToggle + 1 }
  | .app => { s with denyByApp := s.denyByApp + 1 }
  | .universalRule => { s with denyByUniversalRule := s.denyByUniversalRule + 1 }
  | .blocklist => { s with denyByBlocklist := s.denyByBlocklist + 1 }

/-! ### The warden -/

structure Warden (hash : CacheKey → ℕ) extends Posture where
  cache : DecisionCache hash
  stats : WardenStats := {}

namespace Warden

variable {hash : CacheKey → ℕ}

/-- A warden that allows everything. -/
def withCacheCap (hash : CacheKey → ℕ) (cap : ℕ) : Warden hash where
  cache := MemoTable.new hash cap

section Verdict

variable (country : IpAddr → Option (UInt8 × UInt8))

/-- The verdict of a connection at an epoch. -/
def verdictAt (w : Warden hash) (conn : ConnFacts) (epoch : ℕ) : Verdict × Warden hash :=
  match w.cache.get (CacheKey.fromConn conn) epoch with
  | (some v, cache) => (v, { w with cache := cache })
  | (none, cache) =>
    match cascade country w.toPosture conn with
    | some tier =>
      (.deny, { w with
        cache := cache.insert (CacheKey.fromConn conn) .deny epoch
        stats := w.stats.recordDeny tier })
    | none =>
      (.allow, { w with
        cache := cache.insert (CacheKey.fromConn conn) .allow epoch
        stats := { w.stats with allow := w.stats.allow + 1 } })

/-- A verdict asks the cache in front of the cascade, and leaves the posture alone. -/
theorem verdictAt_eq_ask (w : Warden hash) (conn : ConnFacts) (epoch : ℕ) :
    (w.verdictAt country conn epoch).2.toPosture = w.toPosture ∧
    ((w.verdictAt country conn epoch).1, (w.verdictAt country conn epoch).2.cache) =
      w.cache.ask (uncachedVerdict country w.toPosture) CacheKey.fromConn conn epoch := by
  cases hget : w.cache.get (CacheKey.fromConn conn) epoch with
  | mk hit cache =>
    cases hit with
    | some v => simp [verdictAt, MemoTable.ask, hget]
    | none =>
      cases htier : cascade country w.toPosture conn with
      | some tier => simp [verdictAt, MemoTable.ask, hget, uncachedVerdict, htier]
      | none => simp [verdictAt, MemoTable.ask, hget, uncachedVerdict, htier]

end Verdict

/-! ### The mutators -/

/-- Install a posture and forget every verdict. -/
def rearm (w : Warden hash) (p : Posture) : Warden hash :=
  { w with toPosture := p, cache := w.cache.clear }

def setAppRow (w : Warden hash) (row : AppMatrixRow) : Warden hash :=
  w.rearm { w.toPosture with matrix := w.matrix.set row }

def removeAppRow (w : Warden hash) (uid : UInt32) : Warden hash :=
  w.rearm { w.toPosture with matrix := w.matrix.remove uid }

def setUniversalToggles (w : Warden hash) (toggles : UniversalToggles) : Warden hash :=
  w.rearm { w.toPosture with toggles := toggles }

def setUniversalRules (w : Warden hash) (rules : List UniversalRule) : Warden hash :=
  w.rearm { w.toPosture with universalRules := rules }

def installRuleSets (w : Warden hash) (ruleSets : WardenRuleSets) : Warden hash :=
  w.rearm { w.toPosture with ruleSets := ruleSets }

def setDomainRules (w : Warden hash) (domain : DomainRuleSet) : Warden hash :=
  w.rearm { w.toPosture with ruleSets.domain := domain }

def setDomainGlobs (w : Warden hash) (globs : List DomainPattern) : Warden hash :=
  w.rearm { w.toPosture with ruleSets.globDomains := globs }

def setCidrRules (w : Warden hash) (cidr : CidrRuleSet) : Warden hash :=
  w.rearm { w.toPosture with ruleSets.cidr := cidr }

def addCidrRule (w : Warden hash) (rule : IpRule) : Warden hash :=
  w.rearm { w.toPosture with ruleSets.cidr := (w.ruleSets.cidr.insert rule).finalize }

/-- The cache is emptied only when there was a rule to remove. -/
def removeCidrRuleAt (w : Warden hash) (index : ℕ) : Bool × Warden hash :=
  let (removed, cidr) := w.ruleSets.cidr.removeAt index
  let p := { w.toPosture with ruleSets.cidr := cidr }
  (removed, if removed then w.rearm p else { w with toPosture := p })

/-- The codes that are two ASCII letters. -/
def setGeoBlocks (w : Warden hash) (codes : List Str) : Warden hash :=
  let code (c : Str) : Option (UInt8 × UInt8) :=
    match utf8 c with
    | [a, b] => geoCode a b
    | _ => none
  w.rearm { w.toPosture with geoBlocks := (codes.filterMap code).dedup }

/-- The one mutator that keeps the cache. -/
def setTempAllow (w : Warden hash) (uid : UInt32) (expiresAtMs : ℕ) : Warden hash :=
  { w with matrix := w.matrix.grantTempAllow uid expiresAtMs }

/-- The cache is emptied only when a pause was over. -/
def expireTempAllows (w : Warden hash) (nowMs : ℕ) : ℕ × Warden hash :=
  let (expired, matrix) := w.matrix.expireTempAllows nowMs
  let p := { w.toPosture with matrix := matrix }
  (expired, if expired > 0 then w.rearm p else { w with toPosture := p })

/-- Bind the durable copy; `blob` is what it holds, if anything. -/
def bindDurable (w : Warden hash) (blob : Option Bytes) (nowMs : ℕ) : ℕ × Warden hash :=
  match blob with
  | some payload =>
    let (restored, p) := w.toPosture.restoreState payload nowMs
    (restored, w.rearm p)
  | none => (0, w.rearm w.toPosture)

end Warden

/-! ### Steps -/

/-- What can happen to a warden. -/
inductive Action where
  | setAppRow (row : AppMatrixRow)
  | removeAppRow (uid : UInt32)
  | setTempAllow (uid : UInt32) (expiresAtMs : ℕ)
  | expireTempAllows (nowMs : ℕ)
  | setUniversalToggles (toggles : UniversalToggles)
  | setUniversalRules (rules : List UniversalRule)
  | installRuleSets (ruleSets : WardenRuleSets)
  | setDomainRules (domain : DomainRuleSet)
  | setDomainGlobs (globs : List DomainPattern)
  | setCidrRules (cidr : CidrRuleSet)
  | addCidrRule (rule : IpRule)
  | removeCidrRuleAt (index : ℕ)
  | setGeoBlocks (codes : List Str)
  | bindDurable (blob : Option Bytes) (nowMs : ℕ)
  | verdict (conn : ConnFacts) (epoch : ℕ)

namespace Warden

variable {hash : CacheKey → ℕ} (country : IpAddr → Option (UInt8 × UInt8))

def step (w : Warden hash) : Action → Warden hash
  | .setAppRow row => w.setAppRow row
  | .removeAppRow uid => w.removeAppRow uid
  | .setTempAllow uid expiresAtMs => w.setTempAllow uid expiresAtMs
  | .expireTempAllows nowMs => (w.expireTempAllows nowMs).2
  | .setUniversalToggles toggles => w.setUniversalToggles toggles
  | .setUniversalRules rules => w.setUniversalRules rules
  | .installRuleSets ruleSets => w.installRuleSets ruleSets
  | .setDomainRules domain => w.setDomainRules domain
  | .setDomainGlobs globs => w.setDomainGlobs globs
  | .setCidrRules cidr => w.setCidrRules cidr
  | .addCidrRule rule => w.addCidrRule rule
  | .removeCidrRuleAt index => (w.removeCidrRuleAt index).2
  | .setGeoBlocks codes => w.setGeoBlocks codes
  | .bindDurable blob nowMs => (w.bindDurable blob nowMs).2
  | .verdict conn epoch => (w.verdictAt country conn epoch).2

/-- The steps one after the other. -/
def run (w : Warden hash) (actions : List Action) : Warden hash :=
  actions.foldl (fun w a => w.step country a) w

end Warden

end Firewall
end TortaCore
