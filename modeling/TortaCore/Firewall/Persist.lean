import TortaCore.Firewall.Coherence
import TortaCore.Firewall.Snapshot
import TortaCore.Runtime.Tier

/-!
# The posture on disk

The warden bound to its record (`warden/mod.rs`).  Each mutator writes the posture through
by a call of its own, and two of them do not: the one that pauses the denies of an app, and
the one that replaces all rules at once.  What they change is undone by a restart.

## Main definitions

* `DurableWarden.Tracks`: the record holds the posture.
* `DurableWarden.restart`: a new warden bound to the same record.
-/

namespace TortaCore
namespace Firewall

open Text Store Net Wire List Option
open TortaCore.Runtime

def matrixRecordName : Str := "warden-matrix".toList

/-- A warden, the record it is bound to, and the files. -/
structure DurableWarden (hash : CacheKey → ℕ) extends Warden hash where
  durable : Option DurableTier := none
  disk : Disk

/-- What is called on a bound warden. -/
inductive Call where
  | setAppRow (row : AppMatrixRow)
  | removeAppRow (uid : UInt32)
  | setTempAllow (uid : UInt32) (expiresAtMs : ℕ)
  | expireTempAllows (nowMs : ℕ)
  | setUniversalToggles (toggles : UniversalToggles)
  | setUniversalRules (rules : List UniversalRule)
  | installRuleSets (ruleSets : WardenRuleSets)
  | setDomainRules (domain : DomainRuleSet)
  | setDomainGlobs (globs : List DomainPattern)
  | setCidrRules (cidr : CidrRuleSet)
  | addCidrRule (rule : IpRule)
  | removeCidrRuleAt (index : ℕ)
  | setGeoBlocks (codes : List Str)
  | verdict (conn : ConnFacts) (epoch : ℕ)

namespace Call

/-- The step of the warden itself. -/
def toAction : Call → Action
  | setAppRow row => .setAppRow row
  | removeAppRow uid => .removeAppRow uid
  | setTempAllow uid expiresAtMs => .setTempAllow uid expiresAtMs
  | expireTempAllows nowMs => .expireTempAllows nowMs
  | setUniversalToggles toggles => .setUniversalToggles toggles
  | setUniversalRules rules => .setUniversalRules rules
  | installRuleSets ruleSets => .installRuleSets ruleSets
  | setDomainRules domain => .setDomainRules domain
  | setDomainGlobs globs => .setDomainGlobs globs
  | setCidrRules cidr => .setCidrRules cidr
  | addCidrRule rule => .addCidrRule rule
  | removeCidrRuleAt index => .removeCidrRuleAt index
  | setGeoBlocks codes => .setGeoBlocks codes
  | verdict conn epoch => .verdict conn epoch

/-- The mutators that never write. -/
def skipsRecord : Call → Bool
  | setTempAllow _ _ | installRuleSets _ => true
  | _ => false

end Call

namespace DurableWarden

section Model

variable {hash : CacheKey → ℕ} (spine : SpineDigest)
  (country : IpAddr → Option (UInt8 × UInt8)) (fault : Option IoFault)

/-- Write the posture to the record, if there is one; a refusal is ignored. -/
def writeThroughState (s : DurableWarden hash) : DurableWarden hash :=
  match s.durable with
  | some tier =>
    { s with disk := (tier.writeThrough spine fault s.disk s.toPosture.snapshotState).2 }
  | none => s

/-- The end of a mutator that does not write. -/
def keeping (s : DurableWarden hash) (w : Warden hash) : DurableWarden hash :=
  { s with toWarden := w }

/-- The end of a mutator that writes. -/
def saving (s : DurableWarden hash) (w : Warden hash) : DurableWarden hash :=
  (s.keeping w).writeThroughState spine fault

/-- Bind the record in a directory, and read it. -/
def bindDurable (s : DurableWarden hash) (dir : Str) (nowMs : ℕ) : ℕ × DurableWarden hash :=
  let tier := DurableTier.withDir dir matrixRecordName
  let (restored, w) := s.toWarden.bindDurable (tier.rehydrate spine s.disk) nowMs
  (restored, { s with toWarden := w, durable := some tier })

/-- A call, and the fault that its write meets if it writes. -/
def step (s : DurableWarden hash) : Call → DurableWarden hash
  | .setAppRow row => s.saving spine fault (s.toWarden.setAppRow row)
  | .removeAppRow uid => s.saving spine fault (s.toWarden.removeAppRow uid)
  | .setTempAllow uid expiresAtMs => s.keeping (s.toWarden.setTempAllow uid expiresAtMs)
  | .expireTempAllows nowMs =>
    let (expired, w) := s.toWarden.expireTempAllows nowMs
    if expired > 0 then s.saving spine fault w else s.keeping w
  | .setUniversalToggles toggles => s.saving spine fault (s.toWarden.setUniversalToggles toggles)
  | .setUniversalRules rules => s.saving spine fault (s.toWarden.setUniversalRules rules)
  | .installRuleSets ruleSets => s.keeping (s.toWarden.installRuleSets ruleSets)
  | .setDomainRules domain => s.saving spine fault (s.toWarden.setDomainRules domain)
  | .setDomainGlobs globs => s.saving spine fault (s.toWarden.setDomainGlobs globs)
  | .setCidrRules cidr => s.saving spine fault (s.toWarden.setCidrRules cidr)
  | .addCidrRule rule => s.saving spine fault (s.toWarden.addCidrRule rule)
  | .removeCidrRuleAt index =>
    let (removed, w) := s.toWarden.removeCidrRuleAt index
    if removed then s.saving spine fault w else s.keeping w
  | .setGeoBlocks codes => s.saving spine fault (s.toWarden.setGeoBlocks codes)
  | .verdict conn epoch => s.keeping (s.toWarden.verdictAt country conn epoch).2

/-- Calls one after the other, whose writes succeed. -/
def run (s : DurableWarden hash) (calls : List Call) : DurableWarden hash :=
  calls.foldl (fun s c => s.step spine country none c) s

/-- A new warden, bound to the record in the same directory. -/
def restart (s : DurableWarden hash) (dir : Str) (cap nowMs : ℕ) : DurableWarden hash :=
  (({ toWarden := Warden.withCacheCap hash cap, disk := s.disk } : DurableWarden hash).bindDurable
    spine dir nowMs).2

/-- Bound with `bindDurable` to the record in this directory. -/
def BoundTo (s : DurableWarden hash) (dir : Str) : Prop :=
  s.durable = some (DurableTier.withDir dir matrixRecordName)

/-- The blob in the record. -/
def stored (s : DurableWarden hash) : Option Bytes :=
  s.durable.bind fun tier => tier.rehydrate spine s.disk

/-- The record holds the posture. -/
def Tracks (s : DurableWarden hash) : Prop := s.stored spine = some s.toPosture.snapshotState

/-- The call changes the posture. -/
def Changes (s : DurableWarden hash) (c : Call) : Prop :=
  (s.step spine country none c).toPosture ≠ s.toPosture

end Model

section Steps

variable {hash : CacheKey → ℕ} {spine : SpineDigest}
  {country : IpAddr → Option (UInt8 × UInt8)} {fault : Option IoFault}

/-! ### What a call does -/

/-- The call reaches its write. -/
def persists (s : DurableWarden hash) : Call → Bool
  | .setTempAllow _ _ | .installRuleSets _ | .verdict _ _ => false
  | .expireTempAllows nowMs => decide (0 < (s.matrix.expireTempAllows nowMs).1)
  | .removeCidrRuleAt index => (s.ruleSets.cidr.removeAt index).1
  | _ => true

theorem step_eq (s : DurableWarden hash) (c : Call) :
    s.step spine country fault c =
      if s.persists c then s.saving spine fault (s.toWarden.step country c.toAction)
      else s.keeping (s.toWarden.step country c.toAction) := by
  cases c with
  | expireTempAllows nowMs =>
    by_cases hpos : 0 < (s.matrix.expireTempAllows nowMs).1
    · simp only [persists, decide_eq_true hpos, if_true]
      exact if_pos hpos
    · simp only [persists, decide_eq_false hpos, Bool.false_eq_true, if_false]
      exact if_neg hpos
  | removeCidrRuleAt index => rfl
  | _ => rfl

theorem writeThroughState_frame (s : DurableWarden hash) :
    (s.writeThroughState spine fault).toWarden = s.toWarden ∧
    (s.writeThroughState spine fault).durable = s.durable := by
  unfold writeThroughState
  split
  · exact ⟨rfl, rfl⟩
  · exact ⟨rfl, rfl⟩

/-- The warden goes on as if nothing were written, and stays bound. -/
theorem step_frame (s : DurableWarden hash) (c : Call) :
    (s.step spine country fault c).toWarden = s.toWarden.step country c.toAction ∧
    (s.step spine country fault c).durable = s.durable := by
  rw [step_eq]
  split
  · exact writeThroughState_frame _
  · exact ⟨rfl, rfl⟩

variable {s : DurableWarden hash} {dir : Str}

/-- **What a call does to the record**: it writes the new posture, or leaves the record. -/
theorem stored_step {tier : DurableTier} (hbound : s.durable = some tier) (c : Call) :
    (s.step spine country fault c).stored spine =
      if s.persists c ∧ fault.isNone ∧
        (s.step spine country fault c).toPosture.snapshotState.length ≤ maxBlobBytes
      then some (s.step spine country fault c).toPosture.snapshotState else s.stored spine := by
  have hposture := congrArg Warden.toPosture (@step_frame hash spine country fault s c).1
  rw [hposture, step_eq]
  cases hpersists : s.persists c with
  | false => rfl
  | true =>
    simp only [saving, writeThroughState, keeping, hbound, stored, bind_some, if_true,
      DurableTier.rehydrate_writeThrough, true_and]
    simp only [and_comm]

/-- A call that changes the posture without a write is one of the two. -/
theorem skipsRecord_of_changes {c : Call}
    (hchange : s.Changes spine country c) (hpersists : s.persists c = false) :
    c.skipsRecord = true := by
  have hposture := congrArg Warden.toPosture (@step_frame hash spine country none s c).1
  rw [Changes, hposture] at hchange
  cases c with
  | setTempAllow uid expiresAtMs => rfl
  | installRuleSets ruleSets => rfl
  | verdict conn epoch => exact absurd (s.toWarden.verdictAt_eq_ask country conn epoch).1 hchange
  | expireTempAllows nowMs =>
    have hzero : (s.matrix.expireTempAllows nowMs).1 = 0 :=
      Nat.eq_zero_of_not_pos (of_decide_eq_false hpersists)
    refine absurd ?_ hchange
    simp [Call.toAction, Warden.step, Warden.expireTempAllows, hzero,
      expireTempAllows_of_eq_zero hzero]
  | removeCidrRuleAt index =>
    have hfalse : (s.ruleSets.cidr.removeAt index).1 = false := hpersists
    refine absurd ?_ hchange
    simp [Call.toAction, Warden.step, Warden.removeCidrRuleAt, hfalse,
      CidrRuleSet.removeAt_of_false hfalse]
  | _ => cases hpersists

theorem persists_eq_false_of_skipsRecord {c : Call}
    (hskip : c.skipsRecord = true) : s.persists c = false := by
  cases c with
  | setTempAllow uid expiresAtMs => rfl
  | installRuleSets ruleSets => rfl
  | _ => cases hskip

/-- One step: when the record holds the posture after a change. -/
theorem tracks_step_iff (hbound : s.BoundTo dir) {c : Call}
    (hfit : (s.step spine country none c).toPosture.snapshotState.length ≤ maxBlobBytes)
    (hchange : s.Changes spine country c) :
    (s.step spine country none c).Tracks spine ↔ c.skipsRecord = false ∨
      s.stored spine = some (s.step spine country none c).toPosture.snapshotState := by
  rw [Tracks, stored_step hbound]
  cases hpersists : s.persists c with
  | true =>
    have hskip : c.skipsRecord = false := by
      cases hskip : c.skipsRecord with
      | false => rfl
      | true =>
        rw [persists_eq_false_of_skipsRecord hskip] at hpersists
        cases hpersists
    rw [if_pos ⟨rfl, rfl, hfit⟩]
    exact iff_of_true rfl (.inl hskip)
  | false =>
    rw [if_neg (fun h => by cases h.1), skipsRecord_of_changes hchange hpersists]
    simp

/-! ### Restarts -/

theorem toPosture_bindDurable (w : Warden hash) (blob : Bytes) (nowMs : ℕ) :
    (w.bindDurable (some blob) nowMs).2.toPosture = (w.toPosture.restoreState blob nowMs).2 := rfl

theorem toPosture_restart (hbound : s.BoundTo dir) (htracks : s.Tracks spine) (cap nowMs : ℕ) :
    (s.restart spine dir cap nowMs).toPosture =
      (({} : Posture).restoreState s.toPosture.snapshotState nowMs).2 := by
  rw [Tracks, stored, hbound, bind_some] at htracks
  have hrestart : (s.restart spine dir cap nowMs).toWarden =
      ((Warden.withCacheCap hash cap).bindDurable
        ((DurableTier.withDir dir matrixRecordName).rehydrate spine s.disk) nowMs).2 := rfl
  have hempty : (Warden.withCacheCap hash cap).toPosture = {} := rfl
  rw [hrestart, htracks, toPosture_bindDurable, hempty]

/-- The record holds the posture, and so a restart finds it. -/
structure Kept (spine : SpineDigest) (s : DurableWarden hash) (dir : Str) : Prop where
  tracks : s.Tracks spine
  restart : ∀ cap nowMs, (s.restart spine dir cap nowMs).toPosture =
    (({} : Posture).restoreState s.toPosture.snapshotState nowMs).2

theorem kept_iff_tracks (hbound : s.BoundTo dir) :
    Kept spine s dir ↔ s.Tracks spine :=
  ⟨Kept.tracks, fun h => ⟨h, toPosture_restart hbound h⟩⟩

/-! ### Runs -/

theorem boundTo_step (hbound : s.BoundTo dir) (c : Call) :
    (s.step spine country fault c).BoundTo dir :=
  (step_frame s c).2.trans hbound

theorem boundTo_run (calls : List Call) {s : DurableWarden hash} (hbound : s.BoundTo dir) :
    (s.run spine country calls).BoundTo dir := by
  induction calls generalizing s with
  | nil => exact hbound
  | cons c calls ih => exact ih (boundTo_step hbound c)

theorem run_append (s : DurableWarden hash) (pre post : List Call) :
    s.run spine country (pre ++ post) = (s.run spine country pre).run spine country post :=
  foldl_append

/-- **The record follows the posture along a run exactly when no change is made by one of the
two mutators that never write**, except where the record held the outcome already. -/
theorem record_kept_iff (s : DurableWarden hash) {dir : Str} (hbound : s.BoundTo dir)
    (calls : List Call)
    (hfit : ∀ pre, pre <+: calls →
      (s.run spine country pre).toPosture.snapshotState.length ≤ maxBlobBytes) :
    (∀ pre c, pre ++ [c] <+: calls → (s.run spine country pre).Changes spine country c →
      Kept spine (s.run spine country (pre ++ [c])) dir) ↔
    ∀ pre c, pre ++ [c] <+: calls → (s.run spine country pre).Changes spine country c →
      c.skipsRecord = false ∨ (s.run spine country pre).stored spine =
        some (s.run spine country (pre ++ [c])).toPosture.snapshotState := by
  refine forall_congr' fun pre => forall_congr' fun c => imp_congr_right fun hpre =>
    imp_congr_right fun hchange => ?_
  have hstep : s.run spine country (pre ++ [c]) =
      (s.run spine country pre).step spine country none c := run_append s pre [c]
  rw [kept_iff_tracks (boundTo_run _ hbound)]
  have hlen := hfit _ hpre
  rw [hstep] at hlen ⊢
  exact tracks_step_iff (boundTo_run pre hbound) hlen hchange

end Steps

/-- A digest for one bound warden. -/
def plainDigest : SpineDigest := ⟨fun _ => List.replicate 32 0, fun _ => rfl⟩

/-- A new warden, bound in a directory without a record. -/
def plainBound : DurableWarden fun k => k.uid.toNat :=
  (({ toWarden := Warden.withCacheCap _ 16, disk := fun _ _ => none } :
    DurableWarden fun k => k.uid.toNat).bindDurable plainDigest "files".toList 0).2

theorem record_kept_pause :
    let calls := [.setAppRow ⟨1000, .isolate, .both, 36000000⟩, .expireTempAllows 40000000]
    let s := plainBound.run plainDigest (fun _ => none) calls
    Kept plainDigest s "files".toList ∧
      (s.matrix.get 1000).map AppMatrixRow.tempAllowUntil = some 0 := by
  intro calls s
  refine ⟨?_, by decide +kernel⟩
  refine (record_kept_iff plainBound rfl calls ?_).mpr ?_ [calls[0]] calls[1] (prefix_refl _) ?_
  · intro pre hpre
    rw [← mem_inits] at hpre
    revert pre
    decide +kernel
  · intro pre c hpre _
    have hmem : c ∈ calls := hpre.subset (mem_append_right _ mem_cons_self)
    have hall : ∀ c ∈ calls, c.skipsRecord = false := by decide
    exact .inl (hall c hmem)
  · intro hsame
    have hrow := congrArg
      (fun p : Posture => (p.matrix.get 1000).map AppMatrixRow.tempAllowUntil) hsame
    revert hrow
    decide +kernel

/-- A pause that was revoked and rules that were cleared are back after a restart. -/
theorem revoked_pause_returns :
    let row : AppMatrixRow := ⟨1000, .isolate, .both, 36000000⟩
    let rule : IpRule := ⟨0, .v4 0x0a000000 8, .any, .any, .block⟩
    let s := plainBound.run plainDigest (fun _ => none)
      [.setAppRow row, .addCidrRule rule, .setTempAllow 1000 0, .installRuleSets {}]
    let q := s.restart plainDigest "files".toList 16 1
    s.BoundTo "files".toList ∧ s.toPosture.snapshotState.length ≤ maxBlobBytes ∧
      s.stored plainDigest ≠ some s.toPosture.snapshotState ∧
      (s.matrix.get 1000).map AppMatrixRow.tempAllowUntil = some 0 ∧
      (q.matrix.get 1000).map AppMatrixRow.tempAllowUntil = some 36000000 ∧
      s.ruleSets.cidr.rules = [] ∧ q.ruleSets.cidr.rules = [rule] := by
  refine ⟨rfl, ?_⟩
  decide +kernel

end DurableWarden

/-! ### Calls with rules that passed the gate -/

theorem geoCode_geoCode {a b : UInt8} {cc : UInt8 × UInt8} (h : geoCode a b = some cc) :
    geoCode cc.1 cc.2 = some cc := by
  have hlower : ∀ b : UInt8,
      ((0x41 ≤ b.toNat && b.toNat ≤ 0x5A) || (0x61 ≤ b.toNat && b.toNat ≤ 0x7A)) = true →
      0x61 ≤ (asciiLowerByte b).toNat ∧ (asciiLowerByte b).toNat ≤ 0x7A ∧
        asciiLowerByte (asciiLowerByte b) = asciiLowerByte b :=
    forall_byte (by decide +kernel)
  rw [geoCode] at h
  split at h
  · next hletters =>
    cases h
    rw [Bool.and_eq_true] at hletters
    obtain ⟨hloa, hhia, ha⟩ := hlower a hletters.1
    obtain ⟨hlob, hhib, hb⟩ := hlower b hletters.2
    simp [geoCode, hloa, hhia, ha, hlob, hhib, hb]
  · cases h

/-- The call brings rules that passed the gate, finalized address rules, and times of 64 bits. -/
def Call.Legal : Call → Prop
  | .setAppRow row => row.tempAllowUntil < 256 ^ 8
  | .setTempAllow _ expiresAtMs => expiresAtMs < 256 ^ 8
  | .installRuleSets ruleSets =>
    ruleSets.cidr.Tidy ∧ ruleSets.cidr.finalize = ruleSets.cidr ∧ ruleSets.domain.Checked ∧
      ∀ g ∈ ruleSets.globDomains, ∃ src, validatePattern src = .ok g
  | .setDomainRules domain => domain.Checked
  | .setDomainGlobs globs => ∀ g ∈ globs, ∃ src, validatePattern src = .ok g
  | .setCidrRules cidr => cidr.Tidy ∧ cidr.finalize = cidr
  | _ => True

namespace Posture

theorem WellFormed.setMatrix {p : Posture} (h : p.WellFormed) {m : AppMatrix}
    (hrows : ∀ r ∈ m.rows.rows, r.2.uid = r.1 ∧ r.2.tempAllowUntil < 256 ^ 8) :
    ({ p with matrix := m } : Posture).WellFormed :=
  { h with
    rowKeys := fun r hr => (hrows r hr).1
    rowWidths := fun r hr => (hrows r hr).2 }

theorem WellFormed.row {p : Posture} (h : p.WellFormed) {r : UInt32 × AppMatrixRow}
    (hr : r ∈ p.matrix.rows.rows) : r.2.uid = r.1 ∧ r.2.tempAllowUntil < 256 ^ 8 :=
  ⟨h.rowKeys r hr, h.rowWidths r hr⟩

theorem WellFormed.setRow {p : Posture} (h : p.WellFormed) {uid : UInt32} {row : AppMatrixRow}
    (hrow : row.uid = uid ∧ row.tempAllowUntil < 256 ^ 8) :
    ({ p with matrix := ⟨p.matrix.rows.set uid row⟩ } : Posture).WellFormed := by
  refine h.setMatrix fun r hr => ?_
  rcases Dict.mem_rows_set hr with rfl | hold
  · exact hrow
  · exact h.row hold

/-- **What a warden is set up with stays in order.** -/
theorem WellFormed.step {hash : CacheKey → ℕ} {w : Warden hash} (h : w.toPosture.WellFormed)
    (country : IpAddr → Option (UInt8 × UInt8)) {c : Call} (hc : c.Legal) :
    (w.step country c.toAction).toPosture.WellFormed := by
  cases c with
  | setAppRow row => exact h.setRow ⟨rfl, hc⟩
  | removeAppRow uid =>
    have hsub : (w.matrix.rows.erase uid).rows ⊆ w.matrix.rows.rows := filter_subset_self _
    exact h.setMatrix fun r hr => h.row (hsub hr)
  | setTempAllow uid expiresAtMs =>
    have huid : ((w.matrix.get uid).getD (AppMatrixRow.new uid)).uid = uid := by
      cases hget : w.matrix.get uid with
      | none => rfl
      | some row => exact (h.row (Dict.mem_rows_iff.mpr hget)).1
    exact h.setRow ⟨huid, hc⟩
  | expireTempAllows nowMs =>
    have hswept : ({ w.toPosture with matrix := (w.matrix.expireTempAllows nowMs).2 } :
        Posture).WellFormed := h.setMatrix fun r hr => by
      obtain ⟨old, hold, rfl⟩ := mem_map.mp hr
      dsimp only
      split
      · exact ⟨h.rowKeys old hold, Nat.pos_of_ne_zero (by decide)⟩
      · exact h.row hold
    simp only [Call.toAction, Warden.step, Warden.expireTempAllows]
    split
    · exact hswept
    · exact hswept
  | setUniversalToggles toggles => exact { h with }
  | setUniversalRules rules => exact { h with }
  | installRuleSets ruleSets =>
    obtain ⟨htidy, hfinal, hchecked, hglobs⟩ := hc
    exact
      { h with
        cidrTidy := htidy
        cidrFinal := hfinal
        domainChecked := hchecked
        globsChecked := hglobs }
  | setDomainRules domain => exact { h with domainChecked := hc }
  | setDomainGlobs globs => exact { h with globsChecked := hc }
  | setCidrRules cidr => exact { h with cidrTidy := hc.1, cidrFinal := hc.2 }
  | addCidrRule rule =>
    exact
      { h with
        cidrTidy := (h.cidrTidy.insert rule).finalize
        cidrFinal := CidrRuleSet.finalize_finalize _ }
  | removeCidrRuleAt index =>
    obtain ⟨htidy, hfinal⟩ := h.cidrTidy.removeAt h.cidrFinal index
    simp only [Call.toAction, Warden.step, Warden.removeCidrRuleAt]
    split
    · exact { h with cidrTidy := htidy, cidrFinal := hfinal }
    · exact { h with cidrTidy := htidy, cidrFinal := hfinal }
  | setGeoBlocks codes =>
    exact
      { h with
        geoNodup := nodup_dedup _
        geoLetters := fun cc hcc => by
          obtain ⟨code, -, hcode⟩ := mem_filterMap.mp (mem_dedup.mp hcc)
          split at hcode
          · exact geoCode_geoCode hcode
          · cases hcode }
  | verdict conn epoch =>
    have hsame := (w.verdictAt_eq_ask country conn epoch).1
    exact hsame ▸ h

/-! ### Postures within the bound -/

theorem length_le_flatMap {α : Type} (encode : α → Bytes) (h : ∀ x, 0 < (encode x).length)
    (items : List α) : items.length ≤ (items.flatMap encode).length := by
  have hle := length_le_sum_of_one_le (items.map fun x => (encode x).length)
    (forall_mem_map.mpr fun x _ => h x)
  rwa [length_map, ← length_flatMap] at hle

/-- A posture that the tier accepts has counts that fit. -/
theorem fits_of_length_le {p : Posture} (h : p.snapshotState.length ≤ maxBlobBytes) : p.Fits := by
  have hrows := length_le_flatMap (fun r : UInt32 × AppMatrixRow => encodeRow r.2)
    (fun r => by simp [encodeRow]) p.matrix.rows.rows
  have hcidr := length_le_flatMap encodeIpRule (fun r => by simp [encodeIpRule])
    p.ruleSets.cidr.rules
  have hdomain := length_le_flatMap encodeDomainRule (fun r => by
    simp only [encodeDomainRule, length_append, length_beBytes]
    omega) p.ruleSets.domain.rules
  have hglobs := length_le_flatMap encodeGlob (fun g => by
    simp only [encodeGlob, length_append, length_beBytes]
    omega) p.ruleSets.globDomains
  have huniversal := length_le_flatMap encodeUniversalRule
    (fun r => by simp [encodeUniversalRule]) p.universalRules
  simp only [snapshotState, encodeSection, length_cons, length_append, length_beBytes,
    maxBlobBytes] at h
  constructor <;> omega

end Posture

namespace DurableWarden

variable {hash : CacheKey → ℕ} {spine : SpineDigest} {country : IpAddr → Option (UInt8 × UInt8)}

variable {calls : List Call}

theorem wellFormed_run (hlegal : ∀ c ∈ calls, c.Legal) {s : DurableWarden hash}
    (h : s.toPosture.WellFormed) : (s.run spine country calls).toPosture.WellFormed := by
  induction calls generalizing s with
  | nil => exact h
  | cons c calls ih =>
    refine ih (fun c' hc' => hlegal c' (mem_cons_of_mem _ hc')) ?_
    rw [(step_frame s c).1]
    exact h.step country (hlegal c mem_cons_self)

/-- Calls of the other mutators and verdicts keep a record that holds the posture. -/
theorem tracks_run {dir : Str} (hskip : ∀ c ∈ calls, c.skipsRecord = false) {s : DurableWarden hash}
    (hbound : s.BoundTo dir) (h : s.Tracks spine)
    (hfit : ∀ pre, pre <+: calls → (s.run spine country pre).toPosture.snapshotState.length ≤
      maxBlobBytes) : (s.run spine country calls).Tracks spine := by
  induction calls generalizing s with
  | nil => exact h
  | cons c calls ih =>
    refine ih (fun c' hc' => hskip c' (mem_cons_of_mem _ hc')) (boundTo_step hbound c) ?_
      fun pre hpre => hfit (c :: pre) (cons_prefix_cons.mpr ⟨rfl, hpre⟩)
    have hlen := hfit [c] (cons_prefix_cons.mpr ⟨rfl, nil_prefix⟩)
    by_cases hchange : s.Changes spine country c
    · exact (tracks_step_iff hbound hlen hchange).mpr (.inl (hskip c mem_cons_self))
    -- nothing changed, so that a write makes no difference
    rw [Changes, not_not] at hchange
    rw [Tracks, stored_step hbound, hchange]
    split
    · rfl
    · exact h

/-- **A restart changes no verdict**.  From a well-formed posture that is bound to a directory whose
record holds it, over every run of legal calls that write, the warden that is bound to the record
again has the posture back, up to the count and the fingerprint of its domain set and with the
pauses that are over ended; so it judges each connection, and each answer as before. -/
theorem restart_keeps_verdicts {s : DurableWarden hash} {dir : Str} (hbound : s.BoundTo dir)
    (htracks : s.Tracks spine) (hwf : s.toPosture.WellFormed)
    (hlegal : ∀ c ∈ calls, c.Legal) (hskip : ∀ c ∈ calls, c.skipsRecord = false)
    (hfit : ∀ pre, pre <+: calls →
      (s.run spine country pre).toPosture.snapshotState.length ≤ maxBlobBytes) (cap nowMs : ℕ) :
    let live := (s.run spine country calls).toPosture
    let back := ((s.run spine country calls).restart spine dir cap nowMs).toPosture
    back = live.restored nowMs ∧
    (∀ geo conn, uncachedVerdict geo back conn =
      uncachedVerdict geo { live with matrix := (live.matrix.expireTempAllows nowMs).2 } conn) ∧
    ∀ name addrs, back.dnsVerdict name addrs = live.dnsVerdict name addrs := by
  intro live back
  have hlive : live.WellFormed := wellFormed_run hlegal hwf
  have hback : back = live.restored nowMs := by
    have hafter := tracks_run hskip hbound htracks hfit
    rw [show back = _ from toPosture_restart (boundTo_run calls hbound) hafter cap nowMs]
    exact Posture.restoreState_snapshotState hlive
      (Posture.fits_of_length_le (hfit calls (prefix_refl _)))
  rw [hback]
  exact ⟨rfl, fun geo conn => (hlive.readsAlike_restored conn.uid).uncachedVerdict_eq geo,
    hlive.dnsVerdict_restored⟩

theorem restart_keeps_block :
    let s := plainBound.run plainDigest (fun _ => none) [.setGeoBlocks []]
    let calls := [.addCidrRule ⟨0, .v4 0x0a000000 8, .any, .any, .block⟩]
    let live := s.run plainDigest (fun _ => none) calls
    (live.restart plainDigest "files".toList 16 1).toPosture = live.toPosture.restored 1 := by
  intro s calls
  have hlegal : ∀ c ∈ calls, c.Legal := forall_mem_singleton.mpr trivial
  have htracks : s.stored plainDigest = some s.toPosture.snapshotState := by decide +kernel
  refine (restart_keeps_verdicts (s := s) rfl htracks Posture.wellFormed_empty hlegal (by decide)
    (fun pre hpre => ?_) 16 1).1
  rw [← mem_inits] at hpre
  revert pre
  decide +kernel

end DurableWarden

end Firewall
end TortaCore
