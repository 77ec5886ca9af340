import TortaCore.Blocklist.Matcher
import TortaCore.Store.Dict
import Mathlib.Data.List.Sort

/-!
# Domain rules

The warden's domain rules (`warden/mod.rs`): one trie of reversed labels for each app, and
one for all apps under `UID_UNIVERSAL`.  A rule blocks its domain and everything beneath it.
The trie is the blocklist's, without provenance and with two bounds on what is inserted.

The `HashMap` of tries has its rows in some order; what is read out of it in bulk is sorted
first.

## Main definitions

* `DomainTrie.insert`, `DomainTrie.matchesName`: one app's rules.
* `DomainRuleSet`, with `insert`, `finalize`, `matchesFor`, `matchesApp`, `matchesUniversal`.
* `DomainRuleSet.ofRules`: the set after a sequence of inserts.
-/

namespace TortaCore
namespace Firewall

open Text Store Blocklist List

/-- The slot of the rules that are for every app. -/
def uidUniversal : UInt32 := 0

def maxRuleNameLen : ℕ := 253

def maxRuleLabels : ℕ := 127

/-- The warden's own copy of the blocklist's canonical form. -/
def normalizeRule (domain : Str) : Str := normalize domain

/-- FNV-1a, 64 bit, over raw bytes. -/
def ruleFnv1aBytes (bs : Bytes) : UInt64 :=
  bs.foldl (fun hash b => (hash ^^^ b.toUInt64) * 0x100000001b3) 0xcbf29ce484222325

def ruleFnv1a (s : Str) : UInt64 := ruleFnv1aBytes (utf8 s)

structure DomainRule where
  domain : Str
  uid : UInt32
  /-- Kept as authored; the trie does not read it. -/
  wildcard : Bool
  deriving DecidableEq

/-! ### One app -/

structure DomainTrie where
  root : PathTrie Str Unit := PathTrie.leaf ()

namespace DomainTrie

/-- Insert a rule, and say whether there is a new terminal: there is none when the walk
down meets one that covers the domain already. -/
def insert (t : DomainTrie) (domain : Str) : Bool × DomainTrie :=
  let domain := normalizeRule domain
  if domain.isEmpty || maxRuleNameLen < (utf8 domain).length then (false, t)
  else if maxRuleLabels < (domain.splitOn '.').length then (false, t)
  else
    let labels := rsplitDots domain
    (!t.root.covers labels, ⟨t.root.insert id () labels⟩)

/-- Whether the domain or a parent of it is a rule. -/
def matchesName (t : DomainTrie) (domain : Str) : Bool :=
  !(stem domain).isEmpty && t.root.covers (walkLabels domain)

/-- The canonical terminal domains. -/
def walkTerminals (t : DomainTrie) : List Str := PathTrie.walk extendSuffix [] t.root

end DomainTrie

/-! ### All apps -/

structure DomainRuleSet where
  byUid : Dict UInt32 DomainTrie := Dict.empty
  count : ℕ := 0
  fingerprint : UInt64 := 0

namespace DomainRuleSet

def insert (s : DomainRuleSet) (rule : DomainRule) : DomainRuleSet :=
  let (new, trie) := ((s.byUid.get? rule.uid).getD {}).insert rule.domain
  { s with
    byUid := s.byUid.set rule.uid trie
    count := if new then s.count + 1 else s.count }

/-- Every terminal with its app, sorted by app and domain. -/
def uidTerminals (s : DomainRuleSet) : List (UInt32 × Str) :=
  (s.byUid.rows.flatMap fun row =>
    row.2.walkTerminals.map fun domain => (row.1, domain)).insertionSort
    fun a b => a.1 < b.1 ∨ a.1 = b.1 ∧ utf8 a.2 ≤ utf8 b.2

/-- Recompute the statistics from the canonical terminals. -/
def finalize (s : DomainRuleSet) : DomainRuleSet :=
  let stats := s.uidTerminals.foldl (fun (acc : ℕ × UInt64) r =>
    (acc.1 + 1, acc.2 ^^^ ruleFnv1a (Nat.toDigits 10 r.1.toNat ++ '|' :: r.2))) (0, 0)
  { s with count := stats.1, fingerprint := stats.2 }

/-- Whether one of the app's own rules matches. -/
def matchesApp (s : DomainRuleSet) (uid : UInt32) (qname : Str) : Bool :=
  match s.byUid.get? uid with
  | some trie => trie.matchesName qname
  | none => false

/-- Whether a rule for every app matches. -/
def matchesUniversal (s : DomainRuleSet) (qname : Str) : Bool :=
  match s.byUid.get? uidUniversal with
  | some trie => trie.matchesName qname
  | none => false

/-- `DomainRuleSet::matches`: the app's own rules, then those for every app. -/
def matchesFor (s : DomainRuleSet) (uid : UInt32) (qname : Str) : Bool :=
  s.matchesApp uid qname || uid != uidUniversal && s.matchesUniversal qname

/-- The rules as they are stored: all of them wildcards. -/
def rules (s : DomainRuleSet) : List DomainRule :=
  s.uidTerminals.map fun r => ⟨r.2, r.1, true⟩

/-- The set after a sequence of inserts. -/
def ofRules (rules : List DomainRule) : DomainRuleSet := rules.foldl insert {}

end DomainRuleSet

/-! ### What is inserted -/

/-- The domain is a name and within the bounds, so that it reaches the trie. -/
def Insertable (domain : Str) : Prop :=
  normalizeRule domain ≠ [] ∧ (utf8 (normalizeRule domain)).length ≤ maxRuleNameLen ∧
    (canonicalLabels domain).length ≤ maxRuleLabels

instance (domain : Str) : Decidable (Insertable domain) := inferInstanceAs (Decidable (_ ∧ _))

theorem Insertable.zonePath_ne_nil {domain : Str} (h : Insertable domain) :
    zonePath domain ≠ [] := by
  rw [zonePath, ne_eq, reverse_eq_nil_iff, canonicalLabels_eq_nil]
  exact h.1

namespace DomainTrie

theorem insert_eq (t : DomainTrie) (domain : Str) :
    t.insert domain =
      if Insertable domain then
        (!t.root.covers (zonePath domain), ⟨t.root.insert id () (zonePath domain)⟩)
      else (false, t) := by
  by_cases hname : normalize domain = []
  · simp [insert, Insertable, normalizeRule, hname]
  have hsplit := splitOn_normalize hname
  by_cases hlen : maxRuleNameLen < (utf8 (normalize domain)).length
  · have hnot : ¬ Insertable domain := fun h => Nat.not_le_of_lt hlen h.2.1
    simp [insert, normalizeRule, hlen, hnot]
  · by_cases hlabels : maxRuleLabels < (canonicalLabels domain).length
    · have hnot : ¬ Insertable domain := fun h => Nat.not_le_of_lt hlabels h.2.2
      simp [insert, normalizeRule, hname, hlen, hsplit, hlabels, hnot]
    · have hins : Insertable domain := ⟨hname, Nat.le_of_not_lt hlen, Nat.le_of_not_lt hlabels⟩
      simp [insert, normalizeRule, hname, hlen, hsplit, hlabels, hins, rsplitDots, zonePath]

end DomainTrie

namespace DomainRuleSet

/-- The trie of an app: empty when it has none. -/
def trieOf (s : DomainRuleSet) (uid : UInt32) : DomainTrie := (s.byUid.get? uid).getD {}

theorem matchesApp_eq (s : DomainRuleSet) (uid : UInt32) (qname : Str) :
    s.matchesApp uid qname = (s.trieOf uid).matchesName qname := by
  unfold matchesApp trieOf
  cases s.byUid.get? uid with
  | some trie => rfl
  | none =>
    have hcovers : ∀ p : List Str, (PathTrie.leaf () : PathTrie Str Unit).covers p = false := by
      intro p
      cases p <;> rfl
    simp [DomainTrie.matchesName, hcovers]

theorem trieOf_insert (s : DomainRuleSet) (rule : DomainRule) (uid : UInt32) :
    (s.insert rule).trieOf uid =
      if uid = rule.uid then ((s.trieOf uid).insert rule.domain).2 else s.trieOf uid := by
  unfold trieOf insert
  simp only [Dict.get?_set]
  by_cases h : uid = rule.uid
  · subst h
    simp
  · simp [h, eq_comm]

/-- The paths of an app's rules that reach the trie. -/
def rulePaths (uid : UInt32) (rules : List DomainRule) : List (List Str) :=
  (rules.filter fun r => r.uid = uid ∧ Insertable r.domain).map fun r => zonePath r.domain

theorem root_trieOf_foldl (uid : UInt32) (rules : List DomainRule) (s : DomainRuleSet) :
    ((rules.foldl insert s).trieOf uid).root =
      (rulePaths uid rules).foldl (fun t p => t.insert id () p) (s.trieOf uid).root := by
  induction rules generalizing s with
  | nil => rfl
  | cons r rules ih =>
    rw [foldl_cons, ih, trieOf_insert, DomainTrie.insert_eq]
    by_cases huid : r.uid = uid <;> by_cases hins : Insertable r.domain
    · simp [rulePaths, huid, hins]
    · simp [rulePaths, huid, hins]
    · simp [rulePaths, huid, hins, Ne.symm huid]
    · simp [rulePaths, huid, hins, Ne.symm huid]

theorem rulePaths_ne_nil {uid : UInt32} {rules : List DomainRule} :
    ∀ p ∈ rulePaths uid rules, p ≠ [] := by
  intro p hp
  simp only [rulePaths, mem_map, mem_filter, decide_eq_true_eq] at hp
  obtain ⟨r, ⟨-, -, hins⟩, rfl⟩ := hp
  exact hins.zonePath_ne_nil

/-- What an app's rules match, after any sequence of inserts. -/
theorem matchesApp_ofRules (rules : List DomainRule) (uid : UInt32) (qname : Str) :
    (ofRules rules).matchesApp uid qname = true ↔
      ∃ r ∈ rules, r.uid = uid ∧ Insertable r.domain ∧ zonePath r.domain <+: walkLabels qname := by
  have hroot : ((ofRules rules).trieOf uid).root =
      (rulePaths uid rules).foldl (fun t p => t.insert id () p) (PathTrie.leaf ()) :=
    root_trieOf_foldl uid rules {}
  have hmem : ∀ p, p ∈ rulePaths uid rules ↔
      ∃ r ∈ rules, (r.uid = uid ∧ Insertable r.domain) ∧ zonePath r.domain = p := by
    intro p
    simp [rulePaths, and_assoc]
  rw [matchesApp_eq, DomainTrie.matchesName, hroot, Bool.and_eq_true,
    PathTrie.covers_insertAll id () () rulePaths_ne_nil]
  constructor
  · rintro ⟨-, p, hp, hpre⟩
    obtain ⟨r, hr, ⟨huid, hins⟩, rfl⟩ := (hmem p).mp hp
    exact ⟨r, hr, huid, hins, hpre⟩
  · rintro ⟨r, hr, huid, hins, hpre⟩
    have hp := (hmem (zonePath r.domain)).mpr ⟨r, hr, ⟨huid, hins⟩, rfl⟩
    refine ⟨?_, _, hp, hpre⟩
    -- a name without a stem has no labels to walk
    rw [Bool.not_eq_true', isEmpty_eq_false_iff]
    intro hstem
    have hwalk : walkLabels qname = [] := by
      simp [walkLabels, hstem, rsplitDots, nonEmpty]
    rw [hwalk, prefix_nil] at hpre
    exact rulePaths_ne_nil _ hp hpre

/-! ### Sets that are built -/

/-- A set after any sequence of inserts and finalizations. -/
inductive Built : DomainRuleSet → Prop where
  | empty : Built {}
  | insert {s} (h : Built s) (rule : DomainRule) : Built (s.insert rule)
  | finalize {s} (h : Built s) : Built s.finalize

theorem byUid_insert {s t : DomainRuleSet} (h : s.byUid = t.byUid) (rule : DomainRule) :
    (s.insert rule).byUid = (t.insert rule).byUid := by
  simp only [insert, h]

theorem Built.byUid_eq {s : DomainRuleSet} (h : Built s) :
    ∃ rules, s.byUid = (ofRules rules).byUid := by
  induction h with
  | empty => exact ⟨[], rfl⟩
  | insert _ rule ih =>
    obtain ⟨rules, hrules⟩ := ih
    refine ⟨rules ++ [rule], ?_⟩
    rw [ofRules, foldl_append]
    exact byUid_insert hrules rule
  | finalize _ ih => exact ih

/-- The rules behind a set, and what they match. -/
theorem Built.matchesApp_iff {s : DomainRuleSet} (h : Built s) :
    ∃ rules : List DomainRule, ∀ uid qname, s.matchesApp uid qname = true ↔
      ∃ r ∈ rules, r.uid = uid ∧ Insertable r.domain ∧ zonePath r.domain <+: walkLabels qname := by
  obtain ⟨rules, hrules⟩ := h.byUid_eq
  refine ⟨rules, fun uid qname => ?_⟩
  rw [← matchesApp_ofRules, matchesApp, matchesApp, hrules]

theorem matchesFor_universal (s : DomainRuleSet) (qname : Str) :
    s.matchesFor uidUniversal qname = s.matchesApp uidUniversal qname := by
  simp [matchesFor]

end DomainRuleSet

end Firewall
end TortaCore
