import TortaCore.Firewall.Cidr
import TortaCore.Firewall.Pattern

/-!
# The cascade

The verdict of the warden (`warden/mod.rs`) without its cache: five tiers, the first that
denies decides, and a connection that none denies is allowed.  The tiers read the posture
of the warden (the switches, the rows of the apps, the rule sets and the blocked countries)
and the facts of the connection.  The table of countries is a parameter.

## Main definitions

* `ConnFacts`, `Posture`: what the tiers read.
-/

namespace TortaCore
namespace Firewall

open Text Store Net

/-! ### The connection -/

inductive NetworkType where
  | lan
  | wifi
  | gsm
  | roaming
  | vpn
  deriving DecidableEq

inductive Verdict where
  | allow
  | deny
  deriving DecidableEq

structure ConnFacts where
  uid : UInt32
  daddr : IpAddr
  dport : UInt16
  proto : UInt8
  qname : Option Str
  net : NetworkType
  /-- The resolver's blocklist denied the name or the address. -/
  dnsBlocked : Bool
  deriving DecidableEq

/-! ### The posture -/

structure UniversalToggles where
  blockNewApps : Bool := false
  blockUnknownConns : Bool := false
  blockMetered : Bool := false
  lockdown : Bool := false
  deviceLock : Bool := false
  blockBackground : Bool := false
  blockUdpNtp : Bool := false
  blockHttp : Bool := false
  blockDnsBypass : Bool := false
  deriving DecidableEq

inductive UniversalRule where
  | blockNewApps
  | blockMetered
  | lockdown
  | deviceLock
  | blockBackground
  | blockUdpNtp
  | blockHttp
  | blockDnsBypass
  | blockUniversalCidr
  | blockUniversalDomain
  deriving DecidableEq

inductive AppFirewallMode where
  | bypassUniversal
  | exclude
  | isolate
  | none
  | untracked
  | bypassDnsFirewall
  deriving DecidableEq

inductive NetClass where
  | both
  | unmetered
  | metered
  | allow
  deriving DecidableEq

structure AppMatrixRow where
  uid : UInt32
  mode : AppFirewallMode
  meteredness : NetClass
  /-- When the pause of the app's denies ends, in milliseconds; zero for no pause. -/
  tempAllowUntil : ℕ
  deriving DecidableEq

namespace AppMatrixRow

/-- The row that denies nothing. -/
def new (uid : UInt32) : AppMatrixRow := ⟨uid, .none, .allow, 0⟩

def tempAllowActive (row : AppMatrixRow) (nowMs : ℕ) : Bool :=
  row.tempAllowUntil != 0 && nowMs < row.tempAllowUntil

end AppMatrixRow

structure AppMatrix where
  rows : Dict UInt32 AppMatrixRow := Dict.empty

namespace AppMatrix

def set (m : AppMatrix) (row : AppMatrixRow) : AppMatrix := ⟨m.rows.set row.uid row⟩

def remove (m : AppMatrix) (uid : UInt32) : AppMatrix := ⟨m.rows.erase uid⟩

def get (m : AppMatrix) (uid : UInt32) : Option AppMatrixRow := m.rows.get? uid

/-- The pause is there but over. -/
def lapsed (nowMs : ℕ) (row : AppMatrixRow) : Bool :=
  row.tempAllowUntil != 0 && !row.tempAllowActive nowMs

/-- End the pauses that are over, and count them. -/
def expireTempAllows (m : AppMatrix) (nowMs : ℕ) : ℕ × AppMatrix :=
  (m.rows.rows.countP fun r => lapsed nowMs r.2,
    ⟨m.rows.mapVals fun row => if lapsed nowMs row then { row with tempAllowUntil := 0 } else row⟩)

/-- Set the pause of an app, which gets a row if it has none. -/
def grantTempAllow (m : AppMatrix) (uid : UInt32) (expiresAtMs : ℕ) : AppMatrix :=
  let row := (m.get uid).getD (AppMatrixRow.new uid)
  ⟨m.rows.set uid { row with tempAllowUntil := expiresAtMs }⟩

end AppMatrix

structure WardenRuleSets where
  domain : DomainRuleSet := {}
  cidr : CidrRuleSet := {}
  /-- Read by the verdict on DNS answers only. -/
  globDomains : List DomainPattern := []

/-- The configuration of a warden. -/
structure Posture where
  matrix : AppMatrix := {}
  toggles : UniversalToggles := {}
  ruleSets : WardenRuleSets := {}
  universalRules : List UniversalRule := []
  geoBlocks : List (UInt8 × UInt8) := []

/-! ### The tiers -/

inductive DenyTier where
  | universalToggle
  | app
  | universalRule
  | blocklist
  deriving DecidableEq

def meterednessBlocks : NetClass → NetworkType → Bool
  | .allow, _ => false
  | .both, _ => true
  | .unmetered, net => net == .wifi || net == .vpn
  | .metered, net => net == .gsm || net == .roaming

/-- Tier 2.  A switch counts only together with its rule, apart from the one for unknown
connections, which has none. -/
def checkUniversalToggles (p : Posture) (conn : ConnFacts) (appMode : AppFirewallMode) :
    Option DenyTier :=
  let armed rule := p.universalRules.contains rule
  let t := p.toggles
  if t.lockdown && armed .lockdown then some .universalToggle
  else if t.blockNewApps && armed .blockNewApps && appMode == .untracked then
    some .universalToggle
  else if t.blockUnknownConns && appMode == .untracked then some .universalToggle
  else if t.blockMetered && armed .blockMetered && (conn.net == .gsm || conn.net == .roaming) then
    some .universalToggle
  else if t.deviceLock && armed .deviceLock then some .universalToggle
  else if t.blockBackground && armed .blockBackground then some .universalToggle
  else if t.blockHttp && armed .blockHttp && conn.dport == 80 then some .universalToggle
  else if t.blockUdpNtp && armed .blockUdpNtp && conn.proto == 17 && conn.dport == 123 then
    some .universalToggle
  else if t.blockDnsBypass && armed .blockDnsBypass && conn.qname.isNone then
    some .universalToggle
  else none

/-- The rules of the app itself, whether it has a row or not. -/
def checkAppRules (p : Posture) (conn : ConnFacts) : Option DenyTier :=
  if conn.qname.any fun qname => p.ruleSets.domain.matchesApp conn.uid qname then some .app
  else if p.ruleSets.cidr.lookupApp conn.uid conn.daddr conn.dport conn.proto = some .block then
    some .app
  else none

/-- Tier 3.  There is no clock here: any pause that is set counts. -/
def checkPerApp (p : Posture) (conn : ConnFacts) (appRow : Option AppMatrixRow) :
    Option DenyTier :=
  match appRow with
  | some row =>
    if row.tempAllowUntil ≠ 0 then none
    else if row.mode = .isolate ∧ conn.net ≠ .lan then some .app
    else if row.meteredness ≠ .allow ∧ meterednessBlocks row.meteredness conn.net then some .app
    else checkAppRules p conn
  | none => checkAppRules p conn

section Country

-- the country of an address, from the embedded tables
variable (country : IpAddr → Option (UInt8 × UInt8))

/-- Tier 4. -/
def checkUniversalRules (p : Posture) (conn : ConnFacts) : Option DenyTier :=
  if conn.qname.any p.ruleSets.domain.matchesUniversal then some .universalRule
  else if p.ruleSets.cidr.lookupUniversal conn.daddr conn.dport conn.proto = some .block then
    some .universalRule
  else if !p.geoBlocks.isEmpty && (country conn.daddr).any fun cc => p.geoBlocks.contains cc then
    some .universalRule
  else none

/-- The mode of an app; an app without a row has none. -/
def appMode (p : Posture) (uid : UInt32) : AppFirewallMode :=
  ((p.matrix.get uid).map AppMatrixRow.mode).getD .none

/-- Tiers 2 to 4: those that do not read the resolver's flag. -/
def firewallTier (p : Posture) (conn : ConnFacts) : Option DenyTier :=
  match checkUniversalToggles p conn (appMode p conn.uid) with
  | some tier => some tier
  | none =>
    match checkPerApp p conn (p.matrix.get conn.uid) with
    | some tier => some tier
    | none =>
      if appMode p conn.uid ≠ .bypassUniversal then checkUniversalRules country p conn else none

/-- Tiers 2 to 6: the tier that denies, if one does. -/
def cascade (p : Posture) (conn : ConnFacts) : Option DenyTier :=
  match firewallTier country p conn with
  | some tier => some tier
  | none =>
    if appMode p conn.uid ≠ .bypassDnsFirewall ∧ conn.dnsBlocked then some .blocklist else none

/-- The verdict of the cascade. -/
def uncachedVerdict (p : Posture) (conn : ConnFacts) : Verdict :=
  if (cascade country p conn).isSome then .deny else .allow

/-- The connection gets as far as the resolver's flag. -/
def ReachesBlocklist (p : Posture) (conn : ConnFacts) : Prop :=
  firewallTier country p conn = none ∧ appMode p conn.uid ≠ .bypassDnsFirewall

instance (p : Posture) (conn : ConnFacts) : Decidable (ReachesBlocklist country p conn) :=
  inferInstanceAs (Decidable (_ ∧ _))

/-- The resolver's flag is all that counts for a connection that gets there, and nothing
for the others. -/
theorem uncachedVerdict_eq (p : Posture) (conn : ConnFacts) :
    uncachedVerdict country p conn =
      if ReachesBlocklist country p conn then (if conn.dnsBlocked then .deny else .allow)
      else if (firewallTier country p conn).isSome then .deny else .allow := by
  cases htier : firewallTier country p conn with
  | some tier => simp [uncachedVerdict, cascade, ReachesBlocklist, htier]
  | none =>
    by_cases hmode : appMode p conn.uid = .bypassDnsFirewall
    · simp [uncachedVerdict, cascade, ReachesBlocklist, htier, hmode]
    · by_cases hflag : conn.dnsBlocked = true
      · simp [uncachedVerdict, cascade, ReachesBlocklist, htier, hmode, hflag]
      · simp [uncachedVerdict, cascade, ReachesBlocklist, htier, hmode, hflag]

end Country

end Firewall
end TortaCore
