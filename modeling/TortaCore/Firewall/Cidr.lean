import Mathlib.Data.List.Lex
import TortaCore.Net.IpAddr
import TortaCore.Store.Ranking
import TortaCore.Firewall.Domain

/-!
# Address rules

The warden's CIDR rules (`warden/cidr_match.rs`, `warden/mod.rs`): blocks of addresses with
a port and a protocol filter, one list for each app and one for all apps.  `finalize` sorts
each list with the longest blocks of digits first, so that the first rule that accepts a
connection is the most specific one.

## Main definitions

* `CidrMatch`, `PortSpec`, `ProtoSpec`, `IpStatus`, `IpRule`.
* `CidrRuleSet`, with `insert`, `finalize`, `removeAt`, `lookupApp`, `lookupUniversal`.
* `CidrRuleSet.build`: the sets that inserts build; `candidates`: the rules that compete for
  a connection; `MostSpecific`, `AnswersFor`: the one that should win, and that it does.
-/

namespace TortaCore
namespace Firewall

open Text Store Net Wire List

/-! ### Blocks of addresses -/

/-- `u32::from(v4)`. -/
def v4Bits (a : Ipv4Addr) : BitVec 32 := BitVec.ofNat 32 (beNat a.octets)

/-- `u128::from(v6)`. -/
def v6Bits (a : Ipv6Addr) : BitVec 128 := BitVec.ofNat 128 (beNat a.octets)

/-- A network of one family and the number of its leading bits that count. -/
inductive CidrMatch where
  | v4 (net : BitVec 32) (bits : UInt8)
  | v6 (net : BitVec 128) (bits : UInt8)
  deriving DecidableEq

/-- The masked comparison of both families. -/
def maskedContains {w : ℕ} (net : BitVec w) (bits : UInt8) (ip : BitVec w) : Bool :=
  if bits.toNat = 0 then true
  else if bits.toNat ≥ w then ip == net
  else
    let mask := BitVec.allOnes w <<< (w - bits.toNat)
    ip &&& mask == net &&& mask

def v4Contains (net : BitVec 32) (bits : UInt8) (ip : BitVec 32) : Bool :=
  maskedContains net bits ip

def v6Contains (net : BitVec 128) (bits : UInt8) (ip : BitVec 128) : Bool :=
  maskedContains net bits ip

/-- Whether the address is in the block; never across families. -/
def CidrMatch.matchesAddr : CidrMatch → IpAddr → Bool
  | .v4 net bits, .v4 a => v4Contains net bits (v4Bits a)
  | .v6 net bits, .v6 a => v6Contains net bits (v6Bits a)
  | _, _ => false

/-- The rank of a block in its list: an IPv4 length counts four times. -/
def cidrSpecificity : CidrMatch → ℕ
  | .v4 _ bits => bits.toNat * 4
  | .v6 _ bits => bits.toNat

/-! ### Rules -/

inductive PortSpec where
  | any
  | exact (p : UInt16)
  deriving DecidableEq

inductive ProtoSpec where
  | any
  | tcp
  | udp
  | other (p : UInt8)
  deriving DecidableEq

inductive IpStatus where
  | block
  | bypass
  | none
  deriving DecidableEq

def PortSpec.accepts : PortSpec → UInt16 → Bool
  | .any, _ => true
  | .exact p, port => p == port

def ProtoSpec.accepts : ProtoSpec → UInt8 → Bool
  | .any, _ => true
  | .tcp, proto => proto == 6
  | .udp, proto => proto == 17
  | .other p, proto => p == proto

structure IpRule where
  uid : UInt32
  cidr : CidrMatch
  port : PortSpec
  proto : ProtoSpec
  status : IpStatus
  deriving DecidableEq

def IpRule.accepts (r : IpRule) (addr : IpAddr) (dport : UInt16) (proto : UInt8) : Bool :=
  r.cidr.matchesAddr addr && r.port.accepts dport && r.proto.accepts proto

/-- Equality of two rules of one app. -/
def rulesKeyEqual (a b : IpRule) : Bool :=
  a.cidr == b.cidr && a.port == b.port && a.proto == b.proto && a.status == b.status

/-! ### The digest of a rule -/

namespace IpRule

/-- The family, and the network widened to 128 bits. -/
def network (r : IpRule) : UInt8 × ℕ × UInt8 :=
  match r.cidr with
  | .v4 net bits => (4, net.toNat, bits)
  | .v6 net bits => (6, net.toNat, bits)

def portCode (r : IpRule) : UInt16 :=
  match r.port with
  | .any => 0xFFFF
  | .exact p => p

/-- Protocol numbers other than TCP and UDP are moved by 32, modulo 256. -/
def protoCode (r : IpRule) : UInt8 :=
  match r.proto with
  | .any => 0
  | .tcp => 6
  | .udp => 17
  | .other p => p + 32

def statusCode (r : IpRule) : UInt8 :=
  match r.status with
  | .block => 0
  | .bypass => 1
  | .none => 2

/-- What the digests are sorted by. -/
def sortKey (uid : UInt32) (r : IpRule) : List ℕ :=
  let (family, net, bits) := r.network
  [uid.toNat, family.toNat, net, bits.toNat, r.portCode.toNat, r.protoCode.toNat,
    r.statusCode.toNat]

def digest (uid : UInt32) (r : IpRule) : UInt64 :=
  let (family, net, bits) := r.network
  let fields := [bits.toNat, r.portCode.toNat, r.protoCode.toNat, r.statusCode.toNat]
  ruleFnv1aBytes (leBytes 4 uid.toNat ++ family :: leBytes 16 net) ^^^
    ruleFnv1a (fields.flatMap fun n => '|' :: Nat.toDigits 10 n)

end IpRule

/-! ### All apps -/

inductive CidrHit where
  | block
  | bypass
  deriving DecidableEq

structure CidrRuleSet where
  byUid : Dict UInt32 (List IpRule) := Dict.empty
  count : ℕ := 0
  fingerprint : UInt64 := 0

namespace CidrRuleSet

/-- Append a rule to its app's list unless it is there. -/
def insert (s : CidrRuleSet) (rule : IpRule) : CidrRuleSet :=
  let bucket := (s.byUid.get? rule.uid).getD []
  if bucket.any fun r => rulesKeyEqual r rule then { s with byUid := s.byUid.set rule.uid bucket }
  else { s with byUid := s.byUid.set rule.uid (bucket ++ [rule]), count := s.count + 1 }

/-- The stable sort by falling specificity. -/
def sortBucket (bucket : List IpRule) : List IpRule :=
  bucket.insertionSort fun a b => cidrSpecificity b.cidr ≤ cidrSpecificity a.cidr

/-- Sort every list, and recompute the statistics. -/
def finalize (s : CidrRuleSet) : CidrRuleSet :=
  let byUid := s.byUid.mapVals sortBucket
  let keyed := (byUid.rows.flatMap fun row => row.2.map fun r => (row.1, r)).insertionSort
    fun a b => a.2.sortKey a.1 ≤ b.2.sortKey b.1
  let stats := keyed.foldl (fun (acc : ℕ × UInt64) k =>
    (acc.1 + 1, acc.2 ^^^ k.2.digest k.1)) (0, 0)
  ⟨byUid, stats.1, stats.2⟩

/-- The apps that have rules, in ascending order. -/
def uids (s : CidrRuleSet) : List UInt32 := s.byUid.keys.insertionSort (· ≤ ·)

/-- All rules, app by app. -/
def rules (s : CidrRuleSet) : List IpRule := s.uids.flatMap fun uid => (s.byUid.get? uid).getD []

/-- The loop of `removeAt` over the apps; `seen` rules belong to the apps before. -/
def removeFrom (s : CidrRuleSet) (index : ℕ) : List UInt32 → ℕ → Bool × CidrRuleSet
  | [], _ => (false, s)
  | uid :: uids, seen =>
    let bucket := (s.byUid.get? uid).getD []
    if index < seen + bucket.length then
      let left := bucket.eraseIdx (index - seen)
      -- the last rule of an app takes its list with it
      let byUid := if left.isEmpty then s.byUid.erase uid else s.byUid.set uid left
      (true, finalize { s with byUid := byUid })
    else removeFrom s index uids (seen + bucket.length)

/-- Remove the rule at a place of `rules`, and say whether there was one. -/
def removeAt (s : CidrRuleSet) (index : ℕ) : Bool × CidrRuleSet := s.removeFrom index s.uids 0

/-- The first rule of one list that is not inert and accepts. -/
def scanBucket (s : CidrRuleSet) (uid : UInt32) (addr : IpAddr) (dport : UInt16) (proto : UInt8) :
    Option CidrHit :=
  ((s.byUid.get? uid).getD []).findSome? fun r =>
    match r.status with
    | .none => none
    | .block => if r.accepts addr dport proto then some .block else none
    | .bypass => if r.accepts addr dport proto then some .bypass else none

def lookupApp (s : CidrRuleSet) (uid : UInt32) (addr : IpAddr) (dport : UInt16) (proto : UInt8) :
    Option CidrHit := s.scanBucket uid addr dport proto

def lookupUniversal (s : CidrRuleSet) (addr : IpAddr) (dport : UInt16) (proto : UInt8) :
    Option CidrHit := s.scanBucket uidUniversal addr dport proto

theorem removeFrom_of_false {s : CidrRuleSet} {index : ℕ} (uids : List UInt32) (seen : ℕ)
    (h : (s.removeFrom index uids seen).1 = false) : (s.removeFrom index uids seen).2 = s := by
  induction uids generalizing seen with
  | nil => rfl
  | cons uid uids ih =>
    rw [removeFrom] at h ⊢
    by_cases hlt : index < seen + ((s.byUid.get? uid).getD []).length
    · simp [hlt] at h
    · simp only [hlt, if_false] at h ⊢
      exact ih _ h

theorem removeAt_of_false {s : CidrRuleSet} {index : ℕ} (h : (s.removeAt index).1 = false) :
    (s.removeAt index).2 = s :=
  removeFrom_of_false _ _ h

end CidrRuleSet

/-! ### The most specific rule

A set is built by inserts, with a `finalize` between them at will and one at the end.  The
scan of an app's list then finds the rule with the longest block of digits, and among those
of one length the one that was inserted first. -/

/-- The number of leading bits that count. -/
def CidrMatch.bits : CidrMatch → ℕ
  | .v4 _ bits => bits.toNat
  | .v6 _ bits => bits.toNat

def CidrHit.status : CidrHit → IpStatus
  | .block => .block
  | .bypass => .bypass

/-- The longest block, and the first of that length. -/
def MostSpecific (rules : List IpRule) (r : IpRule) : Prop :=
  Foremost (fun r => r.cidr.bits) rules r

/-- A lookup answers for the most specific of the rules, and for none only if there is
none. -/
def AnswersFor (rules : List IpRule) (hit : Option CidrHit) : Prop :=
  (hit = none ↔ rules = []) ∧
    ∀ h, hit = some h → ∃ r, MostSpecific rules r ∧ r.status = h.status

inductive CidrEdit where
  | insert (rule : IpRule)
  | finalize

def CidrEdit.rule? : CidrEdit → Option IpRule
  | .insert rule => some rule
  | .finalize => none

/-- The rank `sortBucket` sorts by. -/
def IpRule.specificity (r : IpRule) : ℕ := cidrSpecificity r.cidr

/-- The rule takes part in the decision on a connection. -/
def IpRule.competes (addr : IpAddr) (dport : UInt16) (proto : UInt8) (r : IpRule) : Bool :=
  r.status != .none && r.accepts addr dport proto

/-- The inserted rules of an app that compete, in the order of their inserts. -/
def candidates (edits : List CidrEdit) (uid : UInt32) (addr : IpAddr) (dport : UInt16)
    (proto : UInt8) : List IpRule :=
  ((edits.filterMap CidrEdit.rule?).filter fun r => r.uid == uid).filter
    (IpRule.competes addr dport proto)

namespace CidrRuleSet

def edit (s : CidrRuleSet) : CidrEdit → CidrRuleSet
  | .insert rule => s.insert rule
  | .finalize => s.finalize

/-- The set after the edits and a last `finalize`. -/
def build (edits : List CidrEdit) : CidrRuleSet := (edits.foldl edit {}).finalize

/-- The list of an app. -/
def bucket (s : CidrRuleSet) (uid : UInt32) : List IpRule := (s.byUid.get? uid).getD []

/-- The lists hold what was inserted, in the order of the inserts at each rank. -/
def Holds (s : CidrRuleSet) (log : List IpRule) : Prop :=
  ∀ uid, SameForemost IpRule.specificity (s.bucket uid) (log.filter fun r => r.uid == uid)

theorem bucket_finalize (s : CidrRuleSet) (uid : UInt32) :
    s.finalize.bucket uid = rankSort IpRule.specificity (s.bucket uid) := by
  rw [bucket, bucket, finalize]
  rw [Dict.get?_mapVals]
  cases s.byUid.get? uid with
  | none => rfl
  | some rules => rfl

theorem bucket_insert (s : CidrRuleSet) (rule : IpRule) (uid : UInt32) :
    (s.insert rule).bucket uid =
      if rule.uid = uid ∧ ¬ (s.bucket uid).any fun r => rulesKeyEqual r rule then
        s.bucket uid ++ [rule]
      else s.bucket uid := by
  by_cases huid : rule.uid = uid
  · subst huid
    by_cases hany : (s.bucket rule.uid).any fun r => rulesKeyEqual r rule
    · have hany' := hany
      rw [bucket] at hany'
      simp [insert, bucket, Dict.get?_set, hany']
    · have hany' := hany
      rw [bucket] at hany'
      simp [insert, bucket, Dict.get?_set, hany']
  · rw [if_neg fun h => huid h.1, insert, bucket, bucket]
    split
    · rw [Dict.get?_set, if_neg huid]
    · rw [Dict.get?_set, if_neg huid]

/-- Two rules of one app are equal when their keys are. -/
theorem rulesKeyEqual_iff {a b : IpRule} (huid : a.uid = b.uid) :
    rulesKeyEqual a b = true ↔ a = b := by
  cases a
  cases b
  simp_all [rulesKeyEqual, and_assoc]

/-- Among the rules of its app a rule is found by its key. -/
theorem any_rulesKeyEqual_iff {rules : List IpRule} {rule : IpRule}
    (hown : ∀ r ∈ rules, r.uid = rule.uid) :
    (rules.any fun r => rulesKeyEqual r rule) = true ↔ rule ∈ rules := by
  rw [any_eq_true]
  constructor
  · rintro ⟨r, hr, hkey⟩
    exact (rulesKeyEqual_iff (hown r hr)).mp hkey ▸ hr
  · exact fun hr => ⟨rule, hr, (rulesKeyEqual_iff rfl).mpr rfl⟩

theorem Holds.empty : Holds {} [] := fun _ => SameForemost.refl []

variable {log : List IpRule} {s : CidrRuleSet}

theorem Holds.finalize (h : s.Holds log) : s.finalize.Holds log := by
  intro uid
  rw [bucket_finalize]
  exact (h uid).sort

theorem Holds.insert (h : s.Holds log) (rule : IpRule) : (s.insert rule).Holds (log ++ [rule]) := by
  intro uid
  rw [bucket_insert, filter_append]
  by_cases huid : rule.uid = uid
  · subst huid
    have hlast : [rule].filter (fun r => r.uid == rule.uid) = [rule] := by simp
    have hown : ∀ r ∈ s.bucket rule.uid, r.uid = rule.uid := by
      intro r hr
      simpa using (mem_filter.mp (((h rule.uid).1 r).mp hr)).2
    have hmem := any_rulesKeyEqual_iff hown
    rw [hlast]
    by_cases hthere : rule ∈ s.bucket rule.uid
    · rw [if_neg fun hc => hc.2 (hmem.mpr hthere)]
      exact (h rule.uid).append_of_mem hthere
    · rw [if_pos ⟨rfl, fun hc => hthere (hmem.mp hc)⟩]
      exact (h rule.uid).append rule
  · have hlast : [rule].filter (fun r => r.uid == uid) = [] := by simp [huid]
    rw [if_neg fun hc => huid hc.1, hlast, append_nil]
    exact h uid

theorem Holds.foldl (h : s.Holds log) (edits : List CidrEdit) :
    (edits.foldl edit s).Holds (log ++ edits.filterMap CidrEdit.rule?) := by
  induction edits generalizing s log with
  | nil => simpa using h
  | cons e edits ih =>
    cases e with
    | insert rule => simpa [CidrEdit.rule?, edit] using ih (h.insert rule)
    | finalize => exact ih h.finalize

/-- What a rule answers when the scan comes to it. -/
def answer (addr : IpAddr) (dport : UInt16) (proto : UInt8) (r : IpRule) : Option CidrHit :=
  match r.status with
  | .none => none
  | .block => if r.accepts addr dport proto then some .block else none
  | .bypass => if r.accepts addr dport proto then some .bypass else none

theorem answer_isSome (addr : IpAddr) (dport : UInt16) (proto : UInt8) (r : IpRule) :
    (answer addr dport proto r).isSome = r.competes addr dport proto := by
  cases hs : r.status with
  | block => cases ha : r.accepts addr dport proto <;> simp [answer, IpRule.competes, hs, ha]
  | bypass => cases ha : r.accepts addr dport proto <;> simp [answer, IpRule.competes, hs, ha]
  | none => simp [answer, IpRule.competes, hs]

theorem status_of_answer {addr : IpAddr} {dport : UInt16} {proto : UInt8} {r : IpRule}
    {hit : CidrHit} (h : answer addr dport proto r = some hit) : r.status = hit.status := by
  revert h
  fun_cases answer with
  | case2 hs | case4 hs =>
    rintro ⟨⟩
    exact hs
  | _ => exact fun h => by cases h

theorem scanBucket_eq (s : CidrRuleSet) (uid : UInt32) (addr : IpAddr) (dport : UInt16)
    (proto : UInt8) :
    s.scanBucket uid addr dport proto =
      ((s.bucket uid).find? (IpRule.competes addr dport proto)).bind
        (answer addr dport proto) := by
  have hcompetes : (fun r => (answer addr dport proto r).isSome) =
      IpRule.competes addr dport proto := funext (answer_isSome addr dport proto)
  rw [← hcompetes]
  exact findSome?_eq_bind_find? (answer addr dport proto) (s.bucket uid)

/-- The scan answers with a block when the first rule that competes is one. -/
theorem scanBucket_eq_block_iff (s : CidrRuleSet) (uid : UInt32) (addr : IpAddr)
    (dport : UInt16) (proto : UInt8) :
    s.scanBucket uid addr dport proto = some .block ↔
      ∃ r, (s.bucket uid).find? (IpRule.competes addr dport proto) = some r ∧
        r.status = .block := by
  rw [scanBucket_eq, Option.bind_eq_some_iff]
  constructor
  · rintro ⟨r, hfind, hanswer⟩
    exact ⟨r, hfind, status_of_answer hanswer⟩
  · rintro ⟨r, hfind, hblock⟩
    refine ⟨r, hfind, ?_⟩
    have haccepts := find?_some hfind
    rw [IpRule.competes, Bool.and_eq_true] at haccepts
    simp [answer, hblock, haccepts.2]

/-- Blocks that hold one address are of one family, where the rank is the length up to a
factor. -/
theorem specificity_eq_mul (addr : IpAddr) :
    ∃ k, 0 < k ∧ ∀ c : CidrMatch, c.matchesAddr addr = true → cidrSpecificity c = c.bits * k := by
  cases addr with
  | v4 a =>
    refine ⟨4, by decide, fun c hc => ?_⟩
    cases c with
    | v4 net bits => rfl
    | v6 net bits => simp [CidrMatch.matchesAddr] at hc
  | v6 a =>
    refine ⟨1, by decide, fun c hc => ?_⟩
    cases c with
    | v4 net bits => simp [CidrMatch.matchesAddr] at hc
    | v6 net bits => exact (Nat.mul_one _).symm

theorem mostSpecific_of_foremost {rules : List IpRule} {r : IpRule} (addr : IpAddr)
    (haddr : ∀ y ∈ rules, y.cidr.matchesAddr addr = true)
    (h : Foremost IpRule.specificity rules r) : MostSpecific rules r := by
  obtain ⟨k, hk, hmul⟩ := specificity_eq_mul addr
  have hr : r ∈ rules := h.mem
  have hrank : ∀ y ∈ rules, y.specificity = y.cidr.bits * k := fun y hy => hmul _ (haddr y hy)
  constructor
  · have hfilter : (rules.filter fun y => y.cidr.bits = r.cidr.bits) =
        rules.filter fun y => y.specificity = r.specificity := by
      refine filter_congr fun y hy => ?_
      rw [hrank y hy, hrank r hr]
      simp [Nat.mul_left_inj hk.ne']
    exact hfilter ▸ h.1
  · intro y hy
    have hle := h.2 y hy
    rw [hrank y hy, hrank r hr] at hle
    exact Nat.le_of_mul_le_mul_right hle hk

/-- The scan of a built set answers for the most specific of the rules that compete. -/
theorem scanBucket_build (edits : List CidrEdit) (uid : UInt32) (addr : IpAddr)
    (dport : UInt16) (proto : UInt8) :
    AnswersFor (candidates edits uid addr dport proto)
      ((build edits).scanBucket uid addr dport proto) := by
  have hholds := Holds.empty.foldl edits uid
  rw [nil_append] at hholds
  rw [scanBucket_eq, build, bucket_finalize]
  constructor
  · rw [candidates, ← find?_rankSort_eq_none hholds, Option.bind_eq_none_iff]
    constructor
    · intro h
      cases hfind : (rankSort IpRule.specificity _).find? (IpRule.competes addr dport proto) with
      | none => rfl
      | some r =>
        have hsome := answer_isSome addr dport proto r
        rw [h r hfind, find?_some hfind] at hsome
        cases hsome
    · intro h r hr
      rw [h] at hr
      cases hr
  · intro hit hscan
    obtain ⟨r, hfind, hanswer⟩ := Option.bind_eq_some_iff.mp hscan
    refine ⟨r, mostSpecific_of_foremost addr ?_ (foremost_of_find?_rankSort hholds hfind),
      status_of_answer hanswer⟩
    intro y hy
    have hy := (mem_filter.mp hy).2
    simp only [IpRule.competes, IpRule.accepts, Bool.and_eq_true] at hy
    exact hy.2.1.1

end CidrRuleSet

end Firewall
end TortaCore
