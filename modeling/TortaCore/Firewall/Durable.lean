import TortaCore.Firewall.Cascade
import Mathlib.Data.List.ReduceOption

/-!
# Restoring the posture

The state blob of the warden (`warden/mod.rs`) read back: the switches and the rows of the
apps, and from version 2 on five sections of rules.  A blob may be cut off anywhere.  The
rows and the sections that were read completely stay, and what follows is read from where
the last read failed.

## Main definitions

* `Posture.restoreState`: the whole blob.
-/

namespace TortaCore
namespace Firewall

open Text Store Wire

/-! ### Codes -/

def UniversalToggles.fromBits (bits : ℕ) : UniversalToggles where
  blockNewApps := bits.testBit 0
  blockUnknownConns := bits.testBit 1
  blockMetered := bits.testBit 2
  lockdown := bits.testBit 3
  deviceLock := bits.testBit 4
  blockBackground := bits.testBit 5
  blockUdpNtp := bits.testBit 6
  blockHttp := bits.testBit 7
  blockDnsBypass := bits.testBit 8

def appModeFromU8 : ℕ → AppFirewallMode
  | 1 => .isolate
  | 2 => .untracked
  | 3 => .bypassUniversal
  | 4 => .exclude
  | 5 => .bypassDnsFirewall
  | _ => .none

def netClassFromU8 : ℕ → NetClass
  | 1 => .both
  | 2 => .unmetered
  | 3 => .metered
  | _ => .allow

def ipStatusFromU8 : ℕ → IpStatus
  | 1 => .bypass
  | 2 => .none
  | _ => .block

def universalRuleFromU8 : ℕ → Option UniversalRule
  | 0 => some .blockNewApps
  | 1 => some .blockMetered
  | 2 => some .lockdown
  | 3 => some .deviceLock
  | 4 => some .blockBackground
  | 5 => some .blockUdpNtp
  | 6 => some .blockHttp
  | 7 => some .blockDnsBypass
  | 8 => some .blockUniversalCidr
  | 9 => some .blockUniversalDomain
  | _ => none

/-- Two ASCII letters, in lower case. -/
def geoCode (a b : UInt8) : Option (UInt8 × UInt8) :=
  let isLetter (b : UInt8) : Bool :=
    (0x41 ≤ b.toNat && b.toNat ≤ 0x5A) || (0x61 ≤ b.toNat && b.toNat ≤ 0x7A)
  if isLetter a && isLetter b then some (asciiLowerByte a, asciiLowerByte b) else none

/-! ### Readers -/

/-- A reader over the bytes that are left.  The fields it has read stay read when a later
one is cut off. -/
abbrev Cursor (α : Type) := OptionT (StateM Bytes) α

theorem Cursor.bind_eq_some {α β : Type} {x : Cursor α} {f : α → Cursor β} {cur rest : Bytes}
    {b : β} (h : (x >>= f) cur = (some b, rest)) :
    ∃ a mid, x cur = (some a, mid) ∧ f a mid = (some b, rest) := by
  have hbind : (x >>= f) cur =
      (match (x cur).1 with | some a => f a | none => pure none : StateM Bytes (Option β))
        (x cur).2 := rfl
  rw [hbind] at h
  cases hx : (x cur).1 with
  | none =>
    rw [hx] at h
    cases h
  | some a =>
    rw [hx] at h
    exact ⟨a, (x cur).2, Prod.ext hx rfl, h⟩

/-- A big-endian integer of width `w`. -/
def readField (w : ℕ) : Cursor ℕ := fun cur =>
  match readBe w cur with
  | some (n, rest) => (some n, rest)
  | none => (none, cur)

def readBytes (n : ℕ) : Cursor Bytes := fun cur =>
  match takeBytes n cur with
  | some (bs, rest) => (some bs, rest)
  | none => (none, cur)

def readMany {α : Type} (item : Cursor α) : ℕ → Cursor (List α)
  | 0 => pure []
  | n + 1 => do
    let a ← item
    let as ← readMany item n
    return a :: as

/-- A count and that many items. -/
def readSection {α : Type} (item : Cursor α) : Cursor (List α) := do
  let n ← readField 4
  readMany item n

/-- A row of the matrix; a pause that is over is dropped. -/
def readRow (nowMs : ℕ) : Cursor AppMatrixRow := do
  let uid ← readField 4
  let mode ← readField 1
  let net ← readField 1
  let expiry ← readField 8
  return ⟨UInt32.ofNat uid, appModeFromU8 mode, netClassFromU8 net,
    if expiry ≠ 0 ∧ nowMs ≥ expiry then 0 else expiry⟩

/-- A CIDR rule; nothing for a family that is not known. -/
def readIpRule : Cursor (Option IpRule) := do
  let uid ← readField 4
  let family ← readField 1
  let net ← readField 16
  let bits ← readField 1
  let portKind ← readField 1
  let portVal ← readField 2
  let protoKind ← readField 1
  let protoVal ← readField 1
  let status ← readField 1
  let cidr : Option CidrMatch :=
    match family with
    | 4 => some (.v4 (BitVec.ofNat 32 net) (UInt8.ofNat bits))
    | 6 => some (.v6 (BitVec.ofNat 128 net) (UInt8.ofNat bits))
    | _ => none
  let port := if portKind = 1 then PortSpec.exact (UInt16.ofNat portVal) else .any
  let proto : ProtoSpec :=
    match protoKind with
    | 1 => .tcp
    | 2 => .udp
    | 3 => .other (UInt8.ofNat protoVal)
    | _ => .any
  return cidr.map fun cidr => ⟨UInt32.ofNat uid, cidr, port, proto, ipStatusFromU8 status⟩

/-- A domain rule; nothing for a name that is not UTF-8. -/
def readDomainRule : Cursor (Option DomainRule) := do
  let uid ← readField 4
  let wildcard ← readField 1
  let nameLen ← readField 2
  let nameBytes ← readBytes nameLen
  return (fromUtf8 nameBytes).map fun name => ⟨name, UInt32.ofNat uid, wildcard ≠ 0⟩

/-- A pattern, validated again. -/
def readGlob : Cursor (Option DomainPattern) := do
  let srcLen ← readField 2
  let srcBytes ← readBytes srcLen
  return (fromUtf8 srcBytes).bind fun src => (validatePattern src).toOption

def readUniversalRule : Cursor (Option UniversalRule) := do
  let b ← readField 1
  return universalRuleFromU8 b

def readGeo : Cursor (Option (UInt8 × UInt8)) := do
  let a ← readField 1
  let b ← readField 1
  return geoCode (UInt8.ofNat a) (UInt8.ofNat b)

/-! ### The blob -/

namespace Posture

/-- Read a section and arm what is in it.  The bytes are `none` once a section was cut off. -/
def armSection {α : Type} (item : Cursor (Option α)) (arm : Posture → List α → Posture)
    (s : Posture × Option Bytes) : Posture × Option Bytes :=
  match s.2 with
  | none => s
  | some cur =>
    match readSection item cur with
    | (none, _) => (s.1, none)
    | (some items, rest) => (arm s.1 items.reduceOption, some rest)

def armCidr (p : Posture) (rules : List IpRule) : Posture :=
  { p with ruleSets.cidr := (rules.foldl CidrRuleSet.insert {}).finalize }

/-- The domain rules; unlike the others they are not finalized. -/
def armDomain (p : Posture) (rules : List DomainRule) : Posture :=
  { p with ruleSets.domain := DomainRuleSet.ofRules rules }

def armGlobs (p : Posture) (globs : List DomainPattern) : Posture :=
  { p with ruleSets.globDomains := globs }

def armUniversal (p : Posture) (rules : List UniversalRule) : Posture :=
  { p with universalRules := rules }

def armGeo (p : Posture) (codes : List (UInt8 × UInt8)) : Posture :=
  { p with geoBlocks := codes.dedup }

/-- The sections of version 2. -/
def restoreRules (p : Posture) (cur : Bytes) : Posture :=
  ((p, some cur) |> armSection readIpRule armCidr
    |> armSection readDomainRule armDomain
    |> armSection readGlob armGlobs
    |> armSection readUniversalRule armUniversal
    |> armSection readGeo armGeo).1

/-- The rows of the matrix, up to one that is cut off. -/
def restoreRows (nowMs : ℕ) : ℕ → AppMatrix → ℕ → Bytes → AppMatrix × ℕ × Bytes
  | 0, m, restored, cur => (m, restored, cur)
  | n + 1, m, restored, cur =>
    match readRow nowMs cur with
    | (some row, rest) => restoreRows nowMs n (m.set row) (restored + 1) rest
    | (none, rest) => (m, restored, rest)

/-- `restore_state`: the number of rows, and the posture. -/
def restoreState (p : Posture) (payload : Bytes) (nowMs : ℕ) : ℕ × Posture :=
  match payload with
  | [] => (0, p)
  | ver :: cur =>
    if ver ≠ 1 ∧ ver ≠ 2 then (0, p)
    else
      match readBe 2 cur with
      | none => (0, p)
      | some (bits, cur) =>
        let p := { p with toggles := UniversalToggles.fromBits bits }
        match readBe 4 cur with
        | none => (0, p)
        | some (count, cur) =>
          let (matrix, restored, cur) := restoreRows nowMs count p.matrix 0 cur
          let p := { p with matrix := matrix }
          (restored, if ver.toNat ≥ 2 then p.restoreRules cur else p)

/-! ### Pauses -/

/-- No row has a pause that is over. -/
def NoneLapsed (nowMs : ℕ) (m : AppMatrix) : Prop :=
  ∀ uid row, m.get uid = some row → AppMatrix.lapsed nowMs row = false

theorem NoneLapsed.set {nowMs : ℕ} {m : AppMatrix} (h : NoneLapsed nowMs m) {row : AppMatrixRow}
    (hrow : AppMatrix.lapsed nowMs row = false) : NoneLapsed nowMs (m.set row) := by
  intro uid row' hget
  simp only [AppMatrix.get, AppMatrix.set, Dict.get?_set] at hget
  split at hget
  · cases hget
    exact hrow
  · exact h uid row' hget

theorem lapsed_readRow {nowMs : ℕ} {cur rest : Bytes} {row : AppMatrixRow}
    (h : readRow nowMs cur = (some row, rest)) : AppMatrix.lapsed nowMs row = false := by
  obtain ⟨uid, _, -, h⟩ := Cursor.bind_eq_some h
  obtain ⟨mode, _, -, h⟩ := Cursor.bind_eq_some h
  obtain ⟨net, _, -, h⟩ := Cursor.bind_eq_some h
  obtain ⟨expiry, _, -, h⟩ := Cursor.bind_eq_some h
  cases h
  by_cases hlapsed : expiry ≠ 0 ∧ nowMs ≥ expiry
  · simp [AppMatrix.lapsed, hlapsed]
  · simp [AppMatrix.lapsed, AppMatrixRow.tempAllowActive, hlapsed]
    omega

theorem noneLapsed_restoreRows {nowMs : ℕ} (n restored : ℕ) {m : AppMatrix} {cur : Bytes}
    (h : NoneLapsed nowMs m) : NoneLapsed nowMs (restoreRows nowMs n m restored cur).1 := by
  induction n generalizing restored m cur with
  | zero => exact h
  | succ n ih =>
    rw [restoreRows]
    cases hrow : readRow nowMs cur with
    | mk row rest =>
      cases row with
      | none => exact h
      | some row => exact ih _ (h.set (lapsed_readRow hrow))

/-- What arming does not touch, reading a section does not. -/
theorem frame_armSection {α β : Type} {item : Cursor (Option α)}
    {arm : Posture → List α → Posture} {field : Posture → β}
    (harm : ∀ p items, field (arm p items) = field p) (s : Posture × Option Bytes) :
    field (armSection item arm s).1 = field s.1 := by
  obtain ⟨p, cur⟩ := s
  cases cur with
  | none => rfl
  | some cur =>
    cases hread : readSection item cur with
    | mk items rest =>
      cases items with
      | none => simp only [armSection, hread]
      | some items => simp only [armSection, hread, harm]

theorem matrix_restoreRules (p : Posture) (cur : Bytes) :
    (p.restoreRules cur).matrix = p.matrix := by
  simp only [restoreRules]
  iterate 5 rw [@frame_armSection _ _ _ _ matrix]
  all_goals
    intros
    rfl

/-- No pause that is over comes back with the blob. -/
theorem restoreState_not_lapsed {p : Posture} {nowMs : ℕ} (h : NoneLapsed nowMs p.matrix)
    (payload : Bytes) : NoneLapsed nowMs (p.restoreState payload nowMs).2.matrix := by
  fun_cases restoreState with
  | case5 _ _ _ _ _ _ _ count cur _ _ _ _ hread =>
    have hrows := hread ▸ @noneLapsed_restoreRows nowMs count 0 _ cur h
    dsimp only
    split
    · rw [matrix_restoreRules]
      exact hrows
    · exact hrows
  | _ => exact h

/-- The pause of one app runs on; the blob brings a row of another whose pause is over. -/
theorem restoreState_not_lapsed_row :
    let p : Posture := { matrix := ({} : AppMatrix).set ⟨10001, .none, .allow, 200⟩ }
    let back := p.restoreState
      [1, 0, 0, 0, 0, 0, 1, 0, 0, 0x27, 0x12, 1, 0, 0, 0, 0, 0, 0, 0, 0, 50] 100
    back.1 = 1 ∧ back.2.matrix.get 10002 = some ⟨10002, .isolate, .allow, 0⟩ ∧
      NoneLapsed 100 back.2.matrix := by
  have hrow : NoneLapsed 100 (({} : AppMatrix).set ⟨10001, .none, .allow, 200⟩) :=
    NoneLapsed.set (fun _ _ h => by cases h) rfl
  exact ⟨by decide +kernel, by decide +kernel, restoreState_not_lapsed hrow _⟩

end Posture

end Firewall
end TortaCore
