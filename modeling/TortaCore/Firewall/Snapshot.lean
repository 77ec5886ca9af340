import Mathlib.Data.Fintype.Prod
import Mathlib.Data.UInt
import TortaCore.Firewall.Answer

/-!
# Writing the posture

The state blob of the warden (`warden/mod.rs`) as it is written, and what is read back from
it.  Everything comes back but the statistics of the domain rules: the set that is read is
not finalized, so its fingerprint is zero.

The counts in front of the sections are 32 bits wide.

## Main definitions

* `Posture.snapshotState`: the blob.
* `Posture.WellFormed`: what holds of the posture of a warden whose rules passed the gate.
* `Posture.RoundTrips`: the posture read back agrees with the one written.
-/

namespace TortaCore
namespace Firewall

open Text Store Net Wire Blocklist List Option DomainRuleSet CidrRuleSet AppMatrixRow

/-! ### Codes -/

def UniversalToggles.toBits (t : UniversalToggles) : ℕ :=
  t.blockNewApps.toNat ||| t.blockUnknownConns.toNat <<< 1 ||| t.blockMetered.toNat <<< 2 |||
    t.lockdown.toNat <<< 3 ||| t.deviceLock.toNat <<< 4 ||| t.blockBackground.toNat <<< 5 |||
    t.blockUdpNtp.toNat <<< 6 ||| t.blockHttp.toNat <<< 7 ||| t.blockDnsBypass.toNat <<< 8

def appModeToU8 : AppFirewallMode → ℕ
  | .none => 0
  | .isolate => 1
  | .untracked => 2
  | .bypassUniversal => 3
  | .exclude => 4
  | .bypassDnsFirewall => 5

def netClassToU8 : NetClass → ℕ
  | .allow => 0
  | .both => 1
  | .unmetered => 2
  | .metered => 3

def ipStatusToU8 : IpStatus → ℕ
  | .block => 0
  | .bypass => 1
  | .none => 2

def universalRuleToU8 : UniversalRule → ℕ
  | .blockNewApps => 0
  | .blockMetered => 1
  | .lockdown => 2
  | .deviceLock => 3
  | .blockBackground => 4
  | .blockUdpNtp => 5
  | .blockHttp => 6
  | .blockDnsBypass => 7
  | .blockUniversalCidr => 8
  | .blockUniversalDomain => 9

theorem appMode_code (m : AppFirewallMode) :
    appModeToU8 m < 256 ^ 1 ∧ appModeFromU8 (appModeToU8 m) = m := by
  cases m <;> decide

theorem netClass_code (n : NetClass) :
    netClassToU8 n < 256 ^ 1 ∧ netClassFromU8 (netClassToU8 n) = n := by
  cases n <;> decide

theorem ipStatus_code (s : IpStatus) :
    ipStatusToU8 s < 256 ^ 1 ∧ ipStatusFromU8 (ipStatusToU8 s) = s := by
  cases s <;> decide

theorem universalRule_code (r : UniversalRule) :
    universalRuleToU8 r < 256 ^ 1 ∧ universalRuleFromU8 (universalRuleToU8 r) = some r := by
  cases r <;> decide

theorem toggles_code (t : UniversalToggles) :
    t.toBits < 256 ^ 2 ∧ UniversalToggles.fromBits t.toBits = t := by
  obtain ⟨a, b, c, d, e, f, g, h, i⟩ := t
  revert a b c d e f g h i
  decide +kernel

/-! ### Records -/

def encodeRow (row : AppMatrixRow) : Bytes :=
  beBytes 4 row.uid.toNat ++ beBytes 1 (appModeToU8 row.mode) ++
    beBytes 1 (netClassToU8 row.meteredness) ++ beBytes 8 row.tempAllowUntil

/-- The kind of a port filter and its value. -/
def portFields : PortSpec → ℕ × ℕ
  | .any => (0, 0)
  | .exact p => (1, p.toNat)

def protoFields : ProtoSpec → ℕ × ℕ
  | .any => (0, 0)
  | .tcp => (1, 0)
  | .udp => (2, 0)
  | .other p => (3, p.toNat)

def encodeIpRule (r : IpRule) : Bytes :=
  let (family, net, bits) := r.network
  beBytes 4 r.uid.toNat ++ beBytes 1 family.toNat ++ beBytes 16 net ++ beBytes 1 bits.toNat ++
    beBytes 1 (portFields r.port).1 ++ beBytes 2 (portFields r.port).2 ++
    beBytes 1 (protoFields r.proto).1 ++ beBytes 1 (protoFields r.proto).2 ++
    beBytes 1 (ipStatusToU8 r.status)

def encodeDomainRule (r : DomainRule) : Bytes :=
  beBytes 4 r.uid.toNat ++ beBytes 1 r.wildcard.toNat ++ beBytes 2 (utf8 r.domain).length ++
    utf8 r.domain

def encodeGlob (g : DomainPattern) : Bytes :=
  beBytes 2 (utf8 g.source).length ++ utf8 g.source

def encodeUniversalRule (r : UniversalRule) : Bytes := beBytes 1 (universalRuleToU8 r)

def encodeGeo (cc : UInt8 × UInt8) : Bytes := beBytes 1 cc.1.toNat ++ beBytes 1 cc.2.toNat

/-- A count and the records. -/
def encodeSection {α : Type} (encode : α → Bytes) (items : List α) : Bytes :=
  beBytes 4 items.length ++ items.flatMap encode

namespace Posture

/-- The country codes in order. -/
def sortedGeo (p : Posture) : List (UInt8 × UInt8) :=
  p.geoBlocks.insertionSort fun a b => a.1 < b.1 ∨ a.1 = b.1 ∧ a.2 ≤ b.2

/-- `snapshot_state`. -/
def snapshotState (p : Posture) : Bytes :=
  2 :: (beBytes 2 p.toggles.toBits ++
    (beBytes 4 p.matrix.rows.rows.length ++ p.matrix.rows.rows.flatMap fun r => encodeRow r.2) ++
    encodeSection encodeIpRule p.ruleSets.cidr.rules ++
    encodeSection encodeDomainRule p.ruleSets.domain.rules ++
    encodeSection encodeGlob p.ruleSets.globDomains ++
    encodeSection encodeUniversalRule p.universalRules ++
    encodeSection encodeGeo p.sortedGeo)

end Posture

/-! ### Readers and what they take -/

/-- The reader takes exactly these bytes off whatever is left, for this value. -/
def Reads {α : Type} (c : Cursor α) (bs : Bytes) (a : α) : Prop :=
  ∀ rest, c (bs ++ rest) = (some a, rest)

namespace Reads

variable {α β : Type}

theorem bind {x : Cursor α} {f : α → Cursor β} {bs cs : Bytes} {a : α} {b : β}
    (hx : Reads x bs a) (hf : Reads (f a) cs b) : Reads (x >>= f) (bs ++ cs) b := by
  intro rest
  have hbind : (x >>= f) (bs ++ (cs ++ rest)) =
      (match (x (bs ++ (cs ++ rest))).1 with | some a => f a | none => pure none :
        StateM Bytes (Option β)) (x (bs ++ (cs ++ rest))).2 := rfl
  rw [append_assoc, hbind, hx]
  exact hf rest

/-- The last field of a record, and the value made of it. -/
theorem last {x : Cursor α} {f : α → β} {bs : Bytes} {a : α} {b : β} (hx : Reads x bs a)
    (hb : f a = b) : Reads (x >>= fun a => pure (f a)) bs b := by
  subst hb
  have h := @bind α β x (fun a => pure (f a)) bs [] a (f a) hx fun _ => rfl
  rwa [append_nil] at h

theorem field {w n : ℕ} (h : n < 256 ^ w) : Reads (readField w) (beBytes w n) n := by
  intro rest
  rw [readField, readBe_append, Nat.mod_eq_of_lt h]

theorem bytes (bs : Bytes) : Reads (readBytes bs.length) bs bs := by
  intro rest
  rw [readBytes, takeBytes_append]

theorem many {item : Cursor β} {encode : α → Bytes} {decode : α → β} {items : List α}
    (h : ∀ x ∈ items, Reads item (encode x) (decode x)) :
    Reads (readMany item items.length) (items.flatMap encode) (items.map decode) := by
  induction items with
  | nil => intro rest; rfl
  | cons x items ih =>
    refine (h x mem_cons_self).bind ?_
    exact (ih fun y hy => h y (mem_cons_of_mem _ hy)).last rfl

theorem records {item : Cursor β} {encode : α → Bytes} {decode : α → β} {items : List α}
    (hlen : items.length < 256 ^ 4) (h : ∀ x ∈ items, Reads item (encode x) (decode x)) :
    Reads (readSection item) (encodeSection encode items) (items.map decode) :=
  (field hlen).bind (many h)

end Reads

/-! ### Records that are read back -/

/-- The row with its pause dropped if it is over. -/
def AppMatrixRow.resumed (nowMs : ℕ) (row : AppMatrixRow) : AppMatrixRow :=
  if AppMatrix.lapsed nowMs row then { row with tempAllowUntil := 0 } else row

theorem reads_row (nowMs : ℕ) {row : AppMatrixRow} (h : row.tempAllowUntil < 256 ^ 8) :
    Reads (readRow nowMs) (encodeRow row) (row.resumed nowMs) := by
  obtain ⟨hmode, hmode'⟩ := appMode_code row.mode
  obtain ⟨hnet, hnet'⟩ := netClass_code row.meteredness
  refine (Reads.field row.uid.toNat_lt).bind ((Reads.field hmode).bind ((Reads.field hnet).bind
    ((Reads.field h).last ?_)))
  rw [hmode', hnet', UInt32.ofNat_toNat, resumed]
  by_cases hover : row.tempAllowUntil ≠ 0 ∧ nowMs ≥ row.tempAllowUntil
  · have hlapsed : AppMatrix.lapsed nowMs row = true := by
      simp [AppMatrix.lapsed, tempAllowActive, hover.1, hover.2]
    rw [if_pos hover, if_pos hlapsed]
  · have hlapsed : ¬ AppMatrix.lapsed nowMs row = true := by
      simp [AppMatrix.lapsed, tempAllowActive]
      omega
    rw [if_neg hover, if_neg hlapsed]

theorem reads_ipRule (r : IpRule) : Reads readIpRule (encodeIpRule r) (some r) := by
  obtain ⟨uid, cidr, port, proto, status⟩ := r
  obtain ⟨hstatus, hstatus'⟩ := ipStatus_code status
  have hport : (portFields port).1 < 256 ^ 1 ∧ (portFields port).2 < 256 ^ 2 := by
    cases port with
    | any => decide
    | exact p => exact ⟨by simp [portFields], p.toNat_lt⟩
  have hproto : (protoFields proto).1 < 256 ^ 1 ∧ (protoFields proto).2 < 256 ^ 1 := by
    cases proto with
    | other p => exact ⟨by simp [protoFields], p.toNat_lt⟩
    | _ => decide
  have hportBack : (if (portFields port).1 = 1 then
      PortSpec.exact (UInt16.ofNat (portFields port).2) else .any) = port := by
    cases port with
    | any => rfl
    | exact p => simp [portFields]
  have hnet : (IpRule.network ⟨uid, cidr, port, proto, status⟩).2.1 < 256 ^ 16 := by
    cases cidr with
    | v4 net bits => exact net.isLt.trans (by decide)
    | v6 net bits => exact net.isLt
  refine (Reads.field uid.toNat_lt).bind ((Reads.field (UInt8.toNat_lt _)).bind
    ((Reads.field hnet).bind ((Reads.field (UInt8.toNat_lt _)).bind ((Reads.field hport.1).bind
    ((Reads.field hport.2).bind ((Reads.field hproto.1).bind ((Reads.field hproto.2).bind
    ((Reads.field hstatus).last ?_))))))))
  rw [hstatus', hportBack]
  cases cidr <;> cases proto <;> simp [protoFields, IpRule.network]

theorem reads_domainRule {r : DomainRule} (h : (utf8 r.domain).length < 256 ^ 2) :
    Reads readDomainRule (encodeDomainRule r) (some r) := by
  have hflag : r.wildcard.toNat < 256 ^ 1 := r.wildcard.toNat_lt.trans (by decide)
  refine (Reads.field r.uid.toNat_lt).bind ((Reads.field hflag).bind ((Reads.field h).bind
    ((Reads.bytes _).last ?_)))
  rw [fromUtf8_utf8, map_some, UInt32.ofNat_toNat]
  cases hw : r.wildcard <;> simp [← hw]

theorem reads_glob {g : DomainPattern} {src : Str} (h : validatePattern src = .ok g) :
    Reads readGlob (encodeGlob g) (some g) := by
  have hpassed := validatePattern_spec h
  have hlen : (utf8 g.source).length < 256 ^ 2 := by
    rw [hpassed.source_eq]
    exact hpassed.length.trans_lt (by decide)
  refine (Reads.field hlen).bind ((Reads.bytes _).last ?_)
  rw [fromUtf8_utf8, bind_some, validatePattern_source h]
  rfl

theorem reads_universalRule (r : UniversalRule) :
    Reads readUniversalRule (encodeUniversalRule r) (some r) := by
  obtain ⟨hcode, hcode'⟩ := universalRule_code r
  exact (Reads.field hcode).last hcode'

theorem reads_geo {cc : UInt8 × UInt8} (h : geoCode cc.1 cc.2 = some cc) :
    Reads readGeo (encodeGeo cc) (some cc) := by
  refine (Reads.field cc.1.toNat_lt).bind ((Reads.field cc.2.toNat_lt).last ?_)
  rw [UInt8.ofNat_toNat, UInt8.ofNat_toNat, h]

/-! ### Sections and rows that are read back -/

theorem length_readMany {α : Type} {item : Cursor α} {n : ℕ} {cur rest : Bytes} {items : List α}
    (h : readMany item n cur = (some items, rest)) : items.length = n := by
  induction n generalizing cur items with
  | zero =>
    cases h
    rfl
  | succ n ih =>
    obtain ⟨a, mid, -, h⟩ := Cursor.bind_eq_some h
    obtain ⟨as, mid', has, h⟩ := Cursor.bind_eq_some h
    cases h
    rw [length_cons, ih has]

namespace Posture

/-- A section whose count fits is armed with what was written. -/
theorem armSection_append {α : Type} {item : Cursor (Option α)} {arm : Posture → List α → Posture}
    {encode : α → Bytes} {items : List α} (hlen : items.length < 256 ^ 4)
    (h : ∀ x ∈ items, Reads item (encode x) (some x)) (p : Posture) (rest : Bytes) :
    armSection item arm (p, some (encodeSection encode items ++ rest)) =
      (arm p items, some rest) := by
  have hread := Reads.records hlen h rest
  have hsome : (items.map some).reduceOption = items := by
    induction items with
    | nil => rfl
    | cons x items _ => simp [reduceOption]
  rw [armSection]
  simp only [hread, hsome]

/-- Of a section only as many records are read as its count says, and the count is what is
left of the length in 32 bits. -/
theorem armSection_le {α : Type} (item : Cursor (Option α)) (arm : Posture → List α → Posture)
    (encode : α → Bytes) (items : List α) (p : Posture) (rest : Bytes) :
    (armSection item arm (p, some (encodeSection encode items ++ rest))).1 = p ∨
      ∃ items' : List α, items'.length ≤ items.length % 256 ^ 4 ∧
        (armSection item arm (p, some (encodeSection encode items ++ rest))).1 = arm p items' := by
  cases hread : readSection item (encodeSection encode items ++ rest) with
  | mk read rest' =>
    cases read with
    | none =>
      left
      simp only [armSection, hread]
    | some read =>
      right
      refine ⟨read.reduceOption, ?_, by simp only [armSection, hread]⟩
      obtain ⟨n, mid, hn, hmany⟩ := Cursor.bind_eq_some hread
      rw [encodeSection, append_assoc, readField, readBe_append, Prod.mk.injEq, some.injEq] at hn
      rw [hn.1, ← length_readMany hmany]
      exact reduceOption_length_le read

theorem restoreRows_append (nowMs : ℕ) {rows : List (UInt32 × AppMatrixRow)}
    (h : ∀ r ∈ rows, r.2.tempAllowUntil < 256 ^ 8) (rest : Bytes) (m : AppMatrix) (k : ℕ) :
    restoreRows nowMs rows.length m k ((rows.flatMap fun r => encodeRow r.2) ++ rest) =
      (rows.foldl (fun m r => m.set (r.2.resumed nowMs)) m, k + rows.length, rest) := by
  induction rows generalizing m k with
  | nil => rfl
  | cons r rows ih =>
    have hread := reads_row nowMs (h r mem_cons_self)
      ((rows.flatMap fun r => encodeRow r.2) ++ rest)
    rw [flatMap_cons, append_assoc, length_cons, restoreRows]
    simp only [hread]
    rw [ih (fun x hx => h x (mem_cons_of_mem _ hx)), foldl_cons]
    refine Prod.ext rfl (Prod.ext ?_ rfl)
    dsimp only
    omega

theorem get_foldl_set (nowMs : ℕ) {rows : List (UInt32 × AppMatrixRow)}
    (hnd : (rows.map Prod.fst).Nodup) (hkey : ∀ r ∈ rows, r.2.uid = r.1) (uid : UInt32)
    (m : AppMatrix) :
    (rows.foldl (fun m r => m.set (r.2.resumed nowMs)) m).get uid =
      ((assocGet uid rows).map (AppMatrixRow.resumed nowMs)).or (m.get uid) := by
  induction rows generalizing m with
  | nil => rfl
  | cons r rows ih =>
    obtain ⟨hr, hnd⟩ := nodup_cons.mp hnd
    have huid : (r.2.resumed nowMs).uid = r.1 := by
      rw [← hkey r mem_cons_self, resumed]
      split
      · rfl
      · rfl
    have hset : (m.set (r.2.resumed nowMs)).get uid =
        if r.1 = uid then some (r.2.resumed nowMs) else m.get uid := by
      rw [← huid]
      exact Dict.get?_set m.rows _ uid _
    rw [foldl_cons, ih hnd fun x hx => hkey x (mem_cons_of_mem _ hx), hset]
    by_cases hk : r.1 = uid
    · have hnone : assocGet uid rows = none := by
        cases hget : assocGet uid rows with
        | none => rfl
        | some row => exact absurd (mem_map_of_mem (mem_of_assocGet hget)) (hk ▸ hr)
      rw [hnone, if_pos hk, assocGet, if_pos hk]
      rfl
    · rw [if_neg hk, assocGet, if_neg hk]

theorem length_restoreRows_le (nowMs : ℕ) (n : ℕ) (m : AppMatrix) (k : ℕ) (cur : Bytes) :
    (restoreRows nowMs n m k cur).1.rows.rows.length ≤ m.rows.rows.length + n := by
  induction n generalizing m k cur with
  | zero => exact le_rfl
  | succ n ih =>
    rw [restoreRows]
    cases hrow : readRow nowMs cur with
    | mk row rest =>
      cases row with
      | none => exact Nat.le_add_right _ _
      | some row =>
        have hset : (m.set row).rows.rows.length ≤ m.rows.rows.length + 1 :=
          length_assocSet_le row.uid row m.rows.rows
        have hrest := ih (m.set row) (k + 1) rest
        dsimp only
        omega

/-! ### The whole blob -/

/-- The sections of rules. -/
def rulesBlob (p : Posture) : Bytes :=
  encodeSection encodeIpRule p.ruleSets.cidr.rules ++
    (encodeSection encodeDomainRule p.ruleSets.domain.rules ++
    (encodeSection encodeGlob p.ruleSets.globDomains ++
    (encodeSection encodeUniversalRule p.universalRules ++
    (encodeSection encodeGeo p.sortedGeo ++ []))))

theorem restoreState_eq (p : Posture) (nowMs : ℕ) :
    (({} : Posture).restoreState p.snapshotState nowMs).2 =
      let r := restoreRows nowMs (p.matrix.rows.rows.length % 256 ^ 4) {} 0
        ((p.matrix.rows.rows.flatMap fun r => encodeRow r.2) ++ p.rulesBlob)
      ({ matrix := r.1, toggles := p.toggles } : Posture).restoreRules r.2.2 := by
  obtain ⟨hbits, hback⟩ := toggles_code p.toggles
  have hver : ¬ ((2 : UInt8) ≠ 1 ∧ (2 : UInt8) ≠ 2) := by decide
  have htwo : (2 : UInt8).toNat ≥ 2 := by decide
  rw [snapshotState, restoreState]
  simp only [if_neg hver, append_assoc, readBe_append, Nat.mod_eq_of_lt hbits, hback,
    if_pos htwo, rulesBlob, append_nil]

/-! ### The round trip -/

/-- What holds of the posture of a warden whose rules passed the gate and whose address rules
are finalized.  The first fields are what the maps, sets and widths of the code provide. -/
structure WellFormed (p : Posture) : Prop where
  rowKeys : ∀ r ∈ p.matrix.rows.rows, r.2.uid = r.1
  rowWidths : ∀ r ∈ p.matrix.rows.rows, r.2.tempAllowUntil < 256 ^ 8
  geoNodup : p.geoBlocks.Nodup
  geoLetters : ∀ cc ∈ p.geoBlocks, geoCode cc.1 cc.2 = some cc
  cidrTidy : p.ruleSets.cidr.Tidy
  cidrFinal : p.ruleSets.cidr.finalize = p.ruleSets.cidr
  domainChecked : p.ruleSets.domain.Checked
  globsChecked : ∀ g ∈ p.ruleSets.globDomains, ∃ src, validatePattern src = .ok g

theorem wellFormed_empty : ({} : Posture).WellFormed where
  rowKeys := forall_mem_nil _
  rowWidths := forall_mem_nil _
  geoNodup := nodup_nil
  geoLetters := forall_mem_nil _
  cidrTidy := tidy_empty
  cidrFinal := rfl
  domainChecked := ⟨[], rfl, forall_mem_nil _⟩
  globsChecked := forall_mem_nil _

/-- The counts fit their 32 bits. -/
structure Fits (p : Posture) : Prop where
  rows : p.matrix.rows.rows.length < 256 ^ 4
  cidr : p.ruleSets.cidr.rules.length < 256 ^ 4
  domain : p.ruleSets.domain.rules.length < 256 ^ 4
  globs : p.ruleSets.globDomains.length < 256 ^ 4
  universal : p.universalRules.length < 256 ^ 4

/-- The posture `q` that is read back agrees with `p`, with the pauses that are over ended. -/
structure RoundTrips (p q : Posture) (nowMs : ℕ) : Prop where
  matrix : ∀ uid, q.matrix.get uid = (p.matrix.expireTempAllows nowMs).2.get uid
  toggles : q.toggles = p.toggles
  universalRules : q.universalRules = p.universalRules
  geo : ∀ cc, cc ∈ q.geoBlocks ↔ cc ∈ p.geoBlocks
  cidrRules : q.ruleSets.cidr.rules = p.ruleSets.cidr.rules
  domainRules : q.ruleSets.domain.rules = p.ruleSets.domain.rules
  globs : q.ruleSets.globDomains = p.ruleSets.globDomains
  cidrCount : q.ruleSets.cidr.count = p.ruleSets.cidr.count
  domainCount : q.ruleSets.domain.count = p.ruleSets.domain.count
  cidrFingerprint : q.ruleSets.cidr.fingerprint = p.ruleSets.cidr.fingerprint
  domainFingerprint : q.ruleSets.domain.fingerprint = p.ruleSets.domain.fingerprint
  verdict : ∀ country conn, uncachedVerdict country q conn =
    uncachedVerdict country { p with matrix := (p.matrix.expireTempAllows nowMs).2 } conn
  dnsVerdict : ∀ name addrs, q.dnsVerdict name addrs = p.dnsVerdict name addrs

/-- What is read back when every count fits. -/
def restored (p : Posture) (nowMs : ℕ) : Posture where
  matrix := p.matrix.rows.rows.foldl (fun m r => m.set (r.2.resumed nowMs)) {}
  toggles := p.toggles
  ruleSets :=
    { domain := DomainRuleSet.ofRules p.ruleSets.domain.rules
      cidr := (p.ruleSets.cidr.rules.foldl CidrRuleSet.insert {}).finalize
      globDomains := p.ruleSets.globDomains }
  universalRules := p.universalRules
  geoBlocks := p.sortedGeo.dedup

theorem length_geo_lt {codes : List (UInt8 × UInt8)} (h : codes.Nodup) :
    codes.length < 256 ^ 4 := by
  have hlen := (h.map (UInt8.toFin_injective.prodMap UInt8.toFin_injective)).length_le_card
  rw [length_map, Fintype.card_prod, Fintype.card_fin] at hlen
  exact hlen.trans_lt (by decide)

theorem mem_geo_restored (p : Posture) (nowMs : ℕ) (cc : UInt8 × UInt8) :
    cc ∈ (p.restored nowMs).geoBlocks ↔ cc ∈ p.geoBlocks := by
  rw [restored]
  rw [mem_dedup, sortedGeo, mem_insertionSort]

section

variable {p : Posture} (h : p.WellFormed) {nowMs : ℕ}
include h

/-- The rules behind the domain set. -/
theorem WellFormed.exists_rules :
    ∃ rules, p.ruleSets.domain.byUid = (DomainRuleSet.ofRules rules).byUid ∧
      p.ruleSets.domain.rules = (DomainRuleSet.ofRules rules).rules ∧
      ∀ r ∈ rules, ∃ pat, validatePattern r.domain = .ok pat := by
  obtain ⟨rules, hrules, hgate⟩ := h.domainChecked
  refine ⟨rules, hrules, ?_, hgate⟩
  simp only [DomainRuleSet.rules, DomainRuleSet.uidTerminals, hrules]

theorem WellFormed.reads_domainRules :
    ∀ r ∈ p.ruleSets.domain.rules, Reads readDomainRule (encodeDomainRule r) (some r) := by
  obtain ⟨rules, -, hlist, hgate⟩ := h.exists_rules
  intro r hr
  rw [hlist] at hr
  obtain ⟨⟨uid, name⟩, hmem, rfl⟩ := mem_map.mp hr
  obtain ⟨path, hends, rfl⟩ := mem_uidTerminals.mp hmem
  refine reads_domainRule ((zonePath_of_endsAt hgate hends).2.2.trans_lt ?_)
  decide

theorem WellFormed.reads_globs :
    ∀ g ∈ p.ruleSets.globDomains, Reads readGlob (encodeGlob g) (some g) := by
  intro g hg
  obtain ⟨src, hsrc⟩ := h.globsChecked g hg
  exact reads_glob hsrc

theorem WellFormed.nodup_sortedGeo : p.sortedGeo.Nodup :=
  (perm_insertionSort _ _).nodup_iff.mpr h.geoNodup

theorem WellFormed.reads_geo :
    ∀ cc ∈ p.sortedGeo, Reads readGeo (encodeGeo cc) (some cc) := by
  intro cc hcc
  exact Firewall.reads_geo (h.geoLetters cc ((mem_insertionSort _).mp hcc))

/-- The rows come first and are all read when their number fits. -/
theorem restoreState_rows (hrows : p.matrix.rows.rows.length < 256 ^ 4) :
    (({} : Posture).restoreState p.snapshotState nowMs).2 =
      ({ matrix := (p.restored nowMs).matrix, toggles := p.toggles } : Posture).restoreRules
        p.rulesBlob := by
  rw [restoreState_eq, Nat.mod_eq_of_lt hrows, restoreRows_append nowMs h.rowWidths]
  rfl

/-- **What is read back**, when every count fits. -/
theorem restoreState_snapshotState (hfit : p.Fits) :
    (({} : Posture).restoreState p.snapshotState nowMs).2 = p.restored nowMs := by
  rw [restoreState_rows h hfit.rows, restoreRules, rulesBlob]
  rw [armSection_append hfit.cidr fun r _ => reads_ipRule r,
    armSection_append hfit.domain h.reads_domainRules, armSection_append hfit.globs h.reads_globs,
    armSection_append hfit.universal fun r _ => reads_universalRule r,
    armSection_append (length_geo_lt h.nodup_sortedGeo) h.reads_geo]
  rfl

/-! ### What is read back agrees -/

theorem WellFormed.get_restored (uid : UInt32) :
    (p.restored nowMs).matrix.get uid = (p.matrix.expireTempAllows nowMs).2.get uid := by
  have hget : (p.matrix.expireTempAllows nowMs).2.get uid =
      (p.matrix.get uid).map (resumed nowMs) :=
    Dict.get?_mapVals (resumed nowMs) p.matrix.rows uid
  rw [hget, restored]
  rw [get_foldl_set nowMs p.matrix.rows.nodup h.rowKeys]
  exact or_none

/-- The domain rules of the posture and those read back, by the rules behind both. -/
theorem WellFormed.domain_restored :
    (p.restored nowMs).ruleSets.domain.rules = p.ruleSets.domain.rules ∧
    (∀ uid, (p.restored nowMs).ruleSets.domain.matchesApp uid =
      p.ruleSets.domain.matchesApp uid) ∧
    (p.restored nowMs).ruleSets.domain.count = p.ruleSets.domain.rules.length := by
  obtain ⟨rules, hrules, hlist, hgate⟩ := h.exists_rules
  have hends := rebuild_eq hgate
  rw [restored]
  rw [hlist]
  refine ⟨?_, fun uid => funext fun qname => ?_, count_ofRules_rules hgate⟩
  · exact congrArg (map _) (uidTerminals_eq hends)
  · rw [matchesApp_eq_of_endsAt hends, matchesApp, matchesApp, hrules]

theorem WellFormed.readsAlike_restored (uid : UInt32) :
    ReadsAlike (p.restored nowMs)
      { p with matrix := (p.matrix.expireTempAllows nowMs).2 } uid := by
  obtain ⟨hget, -, -, -⟩ := rebuild_eq h.cidrTidy h.cidrFinal
  have hscan : (p.restored nowMs).ruleSets.cidr.scanBucket = p.ruleSets.cidr.scanBucket := by
    funext uid addr dport proto
    rw [scanBucket, scanBucket, restored]
    rw [hget]
  exact
    { row := h.get_restored uid
      toggles := rfl
      universalRules := rfl
      domainApp := h.domain_restored.2.1 uid
      domainUniversal := h.domain_restored.2.1 uidUniversal
      cidrApp := congrFun hscan uid
      cidrUniversal := congrFun hscan uidUniversal
      geo := p.mem_geo_restored nowMs }

theorem WellFormed.dnsVerdict_restored (name : Str) (addrs : List IpAddr) :
    (p.restored nowMs).dnsVerdict name addrs = p.dnsVerdict name addrs := by
  obtain ⟨hget, -, -, -⟩ := rebuild_eq h.cidrTidy h.cidrFinal
  have hblocks : (p.restored nowMs).ruleSets.cidr.universalBlocks =
      p.ruleSets.cidr.universalBlocks := by
    rw [universalBlocks, universalBlocks, bucket, bucket, restored]
    rw [hget]
  have huni : (p.restored nowMs).ruleSets.domain.matchesUniversal =
      p.ruleSets.domain.matchesUniversal := h.domain_restored.2.1 uidUniversal
  rw [dnsVerdict, dnsVerdict, dnsOutcome, dnsOutcome, applyDnsVerdict, applyDnsVerdict, hblocks,
    huni]
  rfl

/-- **The posture that is read back agrees** with the one written, but for the statistics of
the domain rules. -/
theorem WellFormed.roundTrips_restored
    (hcount : p.ruleSets.domain.count = p.ruleSets.domain.rules.length)
    (hfp : p.ruleSets.domain.fingerprint = 0) : RoundTrips p (p.restored nowMs) nowMs := by
  obtain ⟨-, hrules, hcidrCount, hcidrFp⟩ := rebuild_eq h.cidrTidy h.cidrFinal
  obtain ⟨hdomain, -, hdomainCount⟩ := @domain_restored p h nowMs
  exact
    { matrix := h.get_restored
      toggles := rfl
      universalRules := rfl
      geo := p.mem_geo_restored nowMs
      cidrRules := hrules
      domainRules := hdomain
      globs := rfl
      cidrCount := hcidrCount
      domainCount := hdomainCount.trans hcount.symm
      cidrFingerprint := hcidrFp
      domainFingerprint := (fingerprint_ofRules _).trans hfp.symm
      verdict := fun country conn => (h.readsAlike_restored conn.uid).uncachedVerdict_eq country
      dnsVerdict := h.dnsVerdict_restored }

end

/-! ### Counts that do not fit -/

theorem rows_fit {p : Posture} {nowMs : ℕ} (hmatrix : ∀ uid,
      (({} : Posture).restoreState p.snapshotState nowMs).2.matrix.get uid =
        (p.matrix.expireTempAllows nowMs).2.get uid) :
    p.matrix.rows.rows.length < 256 ^ 4 := by
  have hperm := (Dict.rows_perm hmatrix).length_eq
  have hsame : (p.matrix.expireTempAllows nowMs).2.rows.rows.length =
      p.matrix.rows.rows.length := length_map _
  have hle := length_restoreRows_le nowMs (p.matrix.rows.rows.length % 256 ^ 4) {} 0
    ((p.matrix.rows.rows.flatMap fun r => encodeRow r.2) ++ p.rulesBlob)
  rw [restoreState_eq] at hperm
  rw [matrix_restoreRules, hsame] at hperm
  rw [hperm] at hle
  simp only [Dict.empty, length_nil, Nat.zero_add] at hle
  omega

/-- A section that brings back as many records as were written has a count that fits. -/
theorem section_fits {α : Type} {item : Cursor (Option α)} {arm : Posture → List α → Posture}
    {encode : α → Bytes} {items : List α} {p : Posture} {rest : Bytes} (size : Posture → ℕ)
    (harm : ∀ items, size (arm p items) ≤ items.length) (hp : size p = 0)
    (hsize : size (armSection item arm (p, some (encodeSection encode items ++ rest))).1 =
      items.length) : items.length < 256 ^ 4 := by
  rcases armSection_le item arm encode items p rest with hnone | ⟨items', hlen, hsome⟩
  · rw [hnone, hp] at hsize
    rw [← hsize]
    decide
  · rw [hsome] at hsize
    have hle := harm items'
    omega

section

variable (p : Posture) (cur : Bytes)

/-! Each part of the rules is what its section left, whatever the later ones did. -/

theorem cidr_restoreRules : (p.restoreRules cur).ruleSets.cidr =
    ((p, some cur) |> armSection readIpRule armCidr).1.ruleSets.cidr := by
  simp only [restoreRules]
  iterate 4 rw [@frame_armSection _ _ _ _ fun q => q.ruleSets.cidr]
  all_goals
    intros
    rfl

theorem domain_restoreRules : (p.restoreRules cur).ruleSets.domain =
    ((p, some cur) |> armSection readIpRule armCidr
      |> armSection readDomainRule armDomain).1.ruleSets.domain := by
  simp only [restoreRules]
  iterate 3 rw [@frame_armSection _ _ _ _ fun q => q.ruleSets.domain]
  all_goals
    intros
    rfl

theorem globs_restoreRules : (p.restoreRules cur).ruleSets.globDomains =
    ((p, some cur) |> armSection readIpRule armCidr
      |> armSection readDomainRule armDomain
      |> armSection readGlob armGlobs).1.ruleSets.globDomains := by
  simp only [restoreRules]
  iterate 2 rw [@frame_armSection _ _ _ _ fun q => q.ruleSets.globDomains]
  all_goals
    intros
    rfl

theorem universalRules_restoreRules : (p.restoreRules cur).universalRules =
    ((p, some cur) |> armSection readIpRule armCidr
      |> armSection readDomainRule armDomain
      |> armSection readGlob armGlobs
      |> armSection readUniversalRule armUniversal).1.universalRules := by
  simp only [restoreRules]
  rw [@frame_armSection _ _ _ _ universalRules]
  intros
  rfl

end

/-- The sections are read in turn: each has to come back in full before the next is reached. -/
theorem WellFormed.fits {p : Posture} (h : p.WellFormed) {nowMs : ℕ}
    (hround : RoundTrips p (({} : Posture).restoreState p.snapshotState nowMs).2 nowMs) :
    p.Fits := by
  have hrows := rows_fit hround.matrix
  rw [restoreState_rows h hrows] at hround
  have hcidr : p.ruleSets.cidr.rules.length < 256 ^ 4 := by
    have hlen := congrArg length hround.cidrRules
    rw [cidr_restoreRules, rulesBlob] at hlen
    exact section_fits (fun q => q.ruleSets.cidr.rules.length) length_rules_le rfl hlen
  have hdomain : p.ruleSets.domain.rules.length < 256 ^ 4 := by
    have hlen := congrArg length hround.domainRules
    rw [domain_restoreRules, rulesBlob, armSection_append hcidr fun r _ => reads_ipRule r] at hlen
    exact section_fits (fun q => q.ruleSets.domain.rules.length) length_rules_ofRules_le rfl hlen
  have hglobs : p.ruleSets.globDomains.length < 256 ^ 4 := by
    have hlen := congrArg length hround.globs
    rw [globs_restoreRules, rulesBlob, armSection_append hcidr fun r _ => reads_ipRule r,
      armSection_append hdomain h.reads_domainRules] at hlen
    exact section_fits (fun q => q.ruleSets.globDomains.length) (fun _ => le_rfl) rfl hlen
  have huniversal : p.universalRules.length < 256 ^ 4 := by
    have hlen := congrArg length hround.universalRules
    rw [universalRules_restoreRules, rulesBlob, armSection_append hcidr fun r _ => reads_ipRule r,
      armSection_append hdomain h.reads_domainRules, armSection_append hglobs h.reads_globs] at hlen
    exact section_fits (fun q => q.universalRules.length) (fun _ => le_rfl) rfl hlen
  exact ⟨hrows, hcidr, hdomain, hglobs, huniversal⟩

theorem checked_ads {s : DomainRuleSet} (uid : UInt32)
    (h : s.byUid = (DomainRuleSet.ofRules [⟨"ads.example".toList, uid, true⟩]).byUid) :
    s.Checked :=
  ⟨_, h, forall_mem_singleton.mpr
    ⟨⟨[⟨utf8 "ads".toList, false⟩, ⟨utf8 "example".toList, false⟩]⟩,
      show validatePattern "ads.example".toList = _ by decide +kernel⟩⟩

/-- **The posture comes back as it was exactly when the counts fit and the domain rules carry
no statistics beyond their number**: what is read is not finalized, so its fingerprint is
zero. -/
theorem posture_roundTrips_iff (p : Posture) (h : p.WellFormed) (nowMs : ℕ) :
    RoundTrips p (({} : Posture).restoreState p.snapshotState nowMs).2 nowMs ↔
      p.Fits ∧ p.ruleSets.domain.count = p.ruleSets.domain.rules.length ∧
        p.ruleSets.domain.fingerprint = 0 := by
  constructor
  · intro hround
    have hfit := h.fits hround
    rw [restoreState_snapshotState h hfit] at hround
    refine ⟨hfit, ?_, ?_⟩
    · rw [← hround.domainCount, (@WellFormed.domain_restored p h nowMs).2.2]
    · rw [← hround.domainFingerprint]
      exact fingerprint_ofRules _
  · rintro ⟨hfit, hcount, hfp⟩
    rw [restoreState_snapshotState h hfit]
    exact h.roundTrips_restored hcount hfp

theorem posture_roundTrips_unfinalized :
    let p : Posture :=
      { matrix := AppMatrix.set {} ⟨10042, .isolate, .both, 500⟩
        toggles := { blockHttp := true }
        ruleSets :=
          { domain := DomainRuleSet.ofRules [⟨"ads.example".toList, 10042, true⟩]
            cidr := (CidrRuleSet.insert {} ⟨0, .v4 0x0a000000 8, .any, .any, .block⟩).finalize }
        universalRules := [.blockUniversalCidr]
        geoBlocks := [(110, 108)] }
    p.WellFormed ∧ RoundTrips p (({} : Posture).restoreState p.snapshotState 1000).2 1000 := by
  intro p
  have hwf : p.WellFormed :=
    { wellFormed_empty with
      rowKeys := by decide +kernel
      rowWidths := by decide +kernel
      geoNodup := by decide
      geoLetters := forall_mem_singleton.mpr (by decide)
      cidrTidy := (tidy_empty.insert _).finalize
      cidrFinal := finalize_finalize _
      domainChecked := checked_ads 10042 rfl }
  refine ⟨hwf, (posture_roundTrips_iff p hwf 1000).mpr ⟨?_, ?_, ?_⟩⟩
  · constructor <;> decide +kernel
  · decide +kernel
  · decide +kernel

/-- The rule that an install finalizes loses its fingerprint over a restart. -/
theorem domain_fingerprint_lost :
    let p : Posture :=
      { ruleSets.domain := (DomainRuleSet.ofRules [⟨"ads.example".toList, 0, true⟩]).finalize }
    let q := (({} : Posture).restoreState p.snapshotState 0).2
    p.WellFormed ∧ p.Fits ∧ p.ruleSets.domain.fingerprint = 16848593725935222277 ∧
      q.ruleSets.domain.rules = p.ruleSets.domain.rules ∧
      q.ruleSets.domain.fingerprint = 0 ∧ ¬ RoundTrips p q 0 := by
  intro p q
  have hwf : p.WellFormed :=
    { wellFormed_empty with
      domainChecked := checked_ads 0 rfl }
  have hfit : p.Fits := by constructor <;> decide +kernel
  have hq : q = p.restored 0 := restoreState_snapshotState hwf hfit
  have hprint : p.ruleSets.domain.fingerprint = 16848593725935222277 := by decide +kernel
  have hlost : q.ruleSets.domain.fingerprint = 0 := by
    rw [hq]
    exact fingerprint_ofRules _
  refine ⟨hwf, hfit, hprint, ?_, hlost, fun hround => ?_⟩
  · rw [hq]
    exact hwf.domain_restored.1
  · have hsame := hround.domainFingerprint
    rw [hlost, hprint] at hsame
    exact absurd hsame (by decide)

end Posture

end Firewall
end TortaCore
