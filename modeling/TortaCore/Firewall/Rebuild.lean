import TortaCore.Blocklist.Artifact
import TortaCore.Firewall.Cascade

/-!
# Rule sets from their own rules

A rule set can list its rules, and inserting them into an empty set builds it again: the
same lists of address rules in the same order, with the same statistics, and the same
terminals of domain rules.

## Main definitions

* `CidrRuleSet.Tidy`: what holds of every set of address rules that is built by inserts.
* `DomainRuleSet.Checked`: a set of domain rules that passed the gate.
-/

namespace TortaCore
namespace Firewall

open Text Store Blocklist List PathTrie Dict

/-! ### Address rules -/

namespace CidrRuleSet

/-- No list is empty or has a rule twice, and every rule is in the list of its app. -/
structure Tidy (s : CidrRuleSet) : Prop where
  ne_nil : ∀ uid, s.byUid.get? uid ≠ some []
  nodup : ∀ uid, (s.bucket uid).Nodup
  owned : ∀ uid, ∀ r ∈ s.bucket uid, r.uid = uid

theorem tidy_empty : Tidy {} :=
  ⟨fun _ h => (by cases h), fun _ => nodup_nil, fun _ _ hr => (by cases hr)⟩

namespace Tidy

theorem nodup_uids (s : CidrRuleSet) : s.uids.Nodup :=
  (perm_insertionSort _ _).nodup_iff.mpr s.byUid.nodup

variable {s : CidrRuleSet} (h : s.Tidy)

include h

theorem get?_eq (uid : UInt32) :
    s.byUid.get? uid = if s.bucket uid = [] then none else some (s.bucket uid) := by
  have hne := h.ne_nil uid
  rw [bucket]
  cases hget : s.byUid.get? uid with
  | none => rfl
  | some rules =>
    rw [hget, ne_eq, Option.some.injEq] at hne
    exact (if_neg hne).symm

theorem bucket_insert_eq (rule : IpRule) (uid : UInt32) : (s.insert rule).bucket uid =
    if rule.uid = uid ∧ rule ∉ s.bucket uid then s.bucket uid ++ [rule] else s.bucket uid := by
  rw [bucket_insert]
  refine if_congr (and_congr_right fun huid => ?_) rfl rfl
  subst huid
  exact not_congr (any_rulesKeyEqual_iff (h.owned rule.uid))

/-- A set stays tidy when one list is replaced, or taken out if there is nothing left of it. -/
theorem replace {t : CidrRuleSet} (uid : UInt32) (rules : List IpRule)
    (hget : ∀ u, t.byUid.get? u =
      if uid = u then (if rules = [] then none else some rules) else s.byUid.get? u)
    (hnodup : rules.Nodup) (howned : ∀ r ∈ rules, r.uid = uid) : t.Tidy := by
  have hbucket : ∀ u, t.bucket u = if uid = u then rules else s.bucket u := by
    intro u
    rw [bucket, hget]
    split
    · split
      · next hnil => rw [hnil]; rfl
      · rfl
    · rfl
  refine ⟨fun u hnil => ?_, fun u => ?_, fun u r hr => ?_⟩
  · rw [hget] at hnil
    split at hnil
    · split at hnil
      · cases hnil
      · next hne => exact hne (Option.some.inj hnil)
    · exact h.ne_nil u hnil
  · rw [hbucket]
    split
    · exact hnodup
    · exact h.nodup u
  · rw [hbucket] at hr
    split at hr
    · next hu => exact hu ▸ howned r hr
    · exact h.owned u r hr

protected theorem insert (rule : IpRule) : (s.insert rule).Tidy := by
  have hmem := any_rulesKeyEqual_iff (h.owned rule.uid)
  rw [CidrRuleSet.insert]
  split
  · next hany =>
    refine h.replace _ _ (fun u => ?_) (h.nodup rule.uid) (h.owned rule.uid)
    rw [get?_set, if_neg (ne_nil_of_mem (hmem.mp hany))]
    rfl
  · next hany =>
    refine h.replace _ (s.bucket rule.uid ++ [rule]) (fun u => ?_) ?_
      (forall_mem_append.mpr ⟨h.owned rule.uid, by simp⟩)
    · rw [get?_set, if_neg (append_ne_nil_of_right_ne_nil _ (cons_ne_nil rule []))]
      rfl
    · exact (h.nodup rule.uid).append (nodup_singleton _) (by simpa using mt hmem.mpr hany)

protected theorem finalize : s.finalize.Tidy := by
  refine ⟨fun uid hget => ?_, fun uid => ?_, fun uid r hr => ?_⟩
  · rw [CidrRuleSet.finalize] at hget
    rw [get?_mapVals, Option.map_eq_some_iff] at hget
    obtain ⟨rules, hrules, hnil⟩ := hget
    have hlen := congrArg length hnil
    rw [sortBucket, length_insertionSort] at hlen
    exact h.ne_nil uid (eq_nil_of_length_eq_zero hlen ▸ hrules)
  · rw [bucket_finalize]
    exact (perm_insertionSort _ _).nodup_iff.mpr (h.nodup uid)
  · rw [bucket_finalize, mem_rankSort] at hr
    exact h.owned uid r hr

theorem foldl_insert (rules : List IpRule) : (rules.foldl CidrRuleSet.insert s).Tidy := by
  induction rules generalizing s with
  | nil => exact h
  | cons r rules ih => exact ih (h.insert r)

theorem mem_uids_iff {uid : UInt32} : uid ∈ s.uids ↔ s.bucket uid ≠ [] := by
  rw [uids, mem_insertionSort, Dict.keys, mem_map]
  constructor
  · rintro ⟨⟨k, rules⟩, hrow, rfl⟩
    have hget := mem_rows_iff.mp hrow
    intro hnil
    rw [h.get?_eq, if_pos hnil] at hget
    cases hget
  · intro hne
    refine ⟨(uid, s.bucket uid), mem_rows_iff.mpr ?_, rfl⟩
    rw [h.get?_eq, if_neg hne]

theorem mem_rules_iff {r : IpRule} : r ∈ s.rules ↔ r ∈ s.bucket r.uid := by
  rw [rules, mem_flatMap]
  constructor
  · rintro ⟨uid, -, hr⟩
    rwa [h.owned uid r hr]
  · intro hr
    exact ⟨r.uid, h.mem_uids_iff.mpr (ne_nil_of_mem hr), hr⟩

theorem nodup_rules : s.rules.Nodup := by
  rw [rules, nodup_flatMap]
  refine ⟨fun uid _ => h.nodup uid, (nodup_uids s).imp fun {u v} huv => ?_⟩
  intro r hu hv
  exact huv ((h.owned u r hu).symm.trans (h.owned v r hv))

/-- The rules of an app, among all, are its list. -/
theorem filter_rules (uid : UInt32) : (s.rules.filter fun r => r.uid == uid) = s.bucket uid := by
  have hown : ∀ u, (s.bucket u).filter (fun r => r.uid == uid) =
      if u = uid then s.bucket u else [] := by
    intro u
    split
    · next hu => exact filter_eq_self.mpr fun r hr => by simpa using (h.owned u r hr).trans hu
    · next hu =>
      refine filter_eq_nil_iff.mpr fun r hr => ?_
      simpa using fun hr' => hu ((h.owned u r hr).symm.trans hr')
  have hpick : ∀ us : List UInt32, us.Nodup →
      (us.flatMap fun u => if u = uid then s.bucket u else []) =
        if uid ∈ us then s.bucket uid else [] := by
    intro us hus
    induction us with
    | nil => rfl
    | cons u us ih =>
      obtain ⟨hu, hus⟩ := nodup_cons.mp hus
      rw [flatMap_cons, ih hus]
      by_cases huid : u = uid
      · subst huid
        simp [hu]
      · simp [huid, Ne.symm huid]
  have hsplit : (s.rules.filter fun r => r.uid == uid) =
      s.uids.flatMap fun u => (s.bucket u).filter fun r => r.uid == uid := filter_flatMap ..
  rw [hsplit, flatMap_congr fun u _ => hown u, hpick _ (nodup_uids s)]
  split
  · rfl
  · next hnot => exact (not_not.mp fun hne => hnot (h.mem_uids_iff.mpr hne)).symm

/-- Rules that are all new are appended to their lists. -/
theorem bucket_foldl_insert {rules : List IpRule} (hnd : rules.Nodup)
    (hnew : ∀ r ∈ rules, r ∉ s.bucket r.uid) (uid : UInt32) :
    (rules.foldl CidrRuleSet.insert s).bucket uid =
      s.bucket uid ++ rules.filter fun r => r.uid == uid := by
  induction rules generalizing s with
  | nil => simp
  | cons r rules ih =>
    obtain ⟨hr, hnd⟩ := nodup_cons.mp hnd
    have hnew' : ∀ x ∈ rules, x ∉ (s.insert r).bucket x.uid := by
      intro x hx
      rw [h.bucket_insert_eq]
      split
      · rw [mem_append, mem_singleton, not_or]
        exact ⟨hnew x (mem_cons_of_mem _ hx), fun hxr => hr (hxr ▸ hx)⟩
      · exact hnew x (mem_cons_of_mem _ hx)
    rw [foldl_cons, ih (h.insert r) hnd hnew', h.bucket_insert_eq]
    by_cases huid : r.uid = uid
    · subst huid
      simp [hnew r mem_cons_self]
    · simp [huid]

end Tidy

/-! ### The same lists -/

/-- The statistics of `finalize` over the rules with their apps. -/
def tally (acc : ℕ × UInt64) (k : UInt32 × IpRule) : ℕ × UInt64 :=
  (acc.1 + 1, acc.2 ^^^ k.2.digest k.1)

theorem foldl_tally_perm {rows rows' : List (UInt32 × IpRule)} (h : rows.Perm rows')
    (acc : ℕ × UInt64) : rows.foldl tally acc = rows'.foldl tally acc := by
  have hcomm : RightCommutative tally := by
    refine ⟨fun acc a b => ?_⟩
    simp only [tally, Prod.mk.injEq, true_and]
    rw [UInt64.xor_assoc, UInt64.xor_comm (a.2.digest a.1), ← UInt64.xor_assoc]
  exact h.foldl_eq acc

/-- The rules with their apps, as `finalize` goes through them. -/
def keyed (s : CidrRuleSet) : List (UInt32 × IpRule) :=
  ((s.byUid.mapVals sortBucket).rows.flatMap fun row => row.2.map fun r => (row.1, r)).insertionSort
    fun a b => a.2.sortKey a.1 ≤ b.2.sortKey b.1

theorem finalize_eq (s : CidrRuleSet) :
    s.finalize = ⟨s.byUid.mapVals sortBucket, (s.keyed.foldl tally (0, 0)).1,
      (s.keyed.foldl tally (0, 0)).2⟩ := rfl

theorem finalize_finalize (s : CidrRuleSet) : s.finalize.finalize = s.finalize := by
  have hsort : ∀ bucket, sortBucket (sortBucket bucket) = sortBucket bucket := fun bucket =>
    (@pairwise_rankSort _ (fun r : IpRule => cidrSpecificity r.cidr) bucket).insertionSort_eq
  have hrows : s.finalize.byUid.mapVals sortBucket = s.byUid.mapVals sortBucket := by
    simp only [finalize_eq, mapVals, map_map, Function.comp_def, hsort]
  have hkeyed : s.finalize.keyed = s.keyed := by
    rw [keyed, keyed, hrows]
  rw [finalize_eq s.finalize, hrows, hkeyed, ← finalize_eq]

variable {s : CidrRuleSet}

/-- Equal lists have equal statistics, in whatever order the apps come. -/
theorem finalize_stats {t : CidrRuleSet} (h : ∀ uid, s.byUid.get? uid = t.byUid.get? uid) :
    s.finalize.count = t.finalize.count ∧ s.finalize.fingerprint = t.finalize.fingerprint := by
  have hrows : (s.byUid.mapVals sortBucket).rows.Perm (t.byUid.mapVals sortBucket).rows := by
    refine rows_perm fun uid => ?_
    rw [get?_mapVals, get?_mapVals, h]
  have hkeyed : s.keyed.Perm t.keyed := by
    refine (perm_insertionSort _ _).trans (.trans ?_ (perm_insertionSort _ _).symm)
    exact hrows.flatMap_right _
  rw [finalize_eq, finalize_eq, foldl_tally_perm hkeyed]
  exact ⟨rfl, rfl⟩

theorem rules_eq_of_get? {t : CidrRuleSet} (h : ∀ uid, s.byUid.get? uid = t.byUid.get? uid) :
    s.rules = t.rules := by
  have huids : s.uids = t.uids := by
    have hkeys : s.uids.Perm t.uids :=
      ((perm_insertionSort _ _).trans ((rows_perm h).map Prod.fst)).trans
        (perm_insertionSort _ _).symm
    exact hkeys.eq_of_pairwise (fun a b _ _ => UInt32.le_antisymm)
      (pairwise_insertionSort _ _) (pairwise_insertionSort _ _)
  rw [rules, rules, huids]
  exact flatMap_congr fun uid _ => by rw [h uid]

/-- **The address rules come back as they were**: the rules of a finalized set, inserted in
their order and finalized, build its lists and its statistics. -/
theorem rebuild_eq (h : s.Tidy) (hfin : s.finalize = s) :
    (∀ uid, (s.rules.foldl insert {}).finalize.byUid.get? uid = s.byUid.get? uid) ∧
    (s.rules.foldl insert {}).finalize.rules = s.rules ∧
    (s.rules.foldl insert {}).finalize.count = s.count ∧
    (s.rules.foldl insert {}).finalize.fingerprint = s.fingerprint := by
  have htidy := tidy_empty.foldl_insert s.rules
  have hbucket : ∀ uid, (s.rules.foldl insert {}).bucket uid = s.bucket uid := by
    intro uid
    rw [tidy_empty.bucket_foldl_insert h.nodup_rules (fun _ _ hr => (by cases hr)), h.filter_rules]
    rfl
  have hget : ∀ uid, (s.rules.foldl insert {}).byUid.get? uid = s.byUid.get? uid := by
    intro uid
    rw [htidy.get?_eq, h.get?_eq, hbucket]
  have hget' : ∀ uid, (s.rules.foldl insert {}).finalize.byUid.get? uid = s.byUid.get? uid := by
    intro uid
    rw [htidy.finalize.get?_eq, bucket_finalize, hbucket, ← bucket_finalize, hfin, h.get?_eq]
  obtain ⟨hcount, hprint⟩ := finalize_stats hget
  rw [hfin] at hcount hprint
  exact ⟨hget', rules_eq_of_get? hget', hcount, hprint⟩

theorem mem_bucket_foldl_insert {rules : List IpRule} (h : s.Tidy) {uid : UInt32} {r : IpRule}
    (hr : r ∈ (rules.foldl insert s).bucket uid) : r ∈ s.bucket uid ∨ r ∈ rules := by
  induction rules generalizing s with
  | nil => exact .inl hr
  | cons x rules ih =>
    rcases ih (h.insert x) hr with hold | hnew
    · rw [h.bucket_insert_eq] at hold
      split at hold
      · rcases mem_append.mp hold with hold | hx
        · exact .inl hold
        · exact .inr (mem_singleton.mp hx ▸ mem_cons_self)
      · exact .inl hold
    · exact .inr (mem_cons_of_mem _ hnew)

theorem length_rules_le (rules : List IpRule) :
    (rules.foldl insert {}).finalize.rules.length ≤ rules.length := by
  have htidy := (tidy_empty.foldl_insert rules).finalize
  refine (subperm_of_subset htidy.nodup_rules fun r hr => ?_).length_le
  rw [htidy.mem_rules_iff, bucket_finalize, mem_rankSort] at hr
  rcases mem_bucket_foldl_insert tidy_empty hr with hr | hr
  · cases hr
  · exact hr

/-! ### Removals -/

/-- A removal takes one rule out of one list. -/
theorem removeFrom_cases (s : CidrRuleSet) (index : ℕ) (uids : List UInt32) (seen : ℕ) :
    (s.removeFrom index uids seen).2 = s ∨ ∃ uid left, left.Sublist (s.bucket uid) ∧
      (s.removeFrom index uids seen).2 = finalize { s with
        byUid := if left.isEmpty then s.byUid.erase uid else s.byUid.set uid left } := by
  induction uids generalizing seen with
  | nil => exact .inl rfl
  | cons uid uids ih =>
    rw [removeFrom]
    split
    · exact .inr ⟨uid, _, eraseIdx_sublist _ _, rfl⟩
    · exact ih _

theorem Tidy.removeAt (h : s.Tidy) (hfin : s.finalize = s) (index : ℕ) :
    (s.removeAt index).2.Tidy ∧ (s.removeAt index).2.finalize = (s.removeAt index).2 := by
  obtain hsame | ⟨uid, left, hsub, heq⟩ := s.removeFrom_cases index s.uids 0
  · rw [CidrRuleSet.removeAt, hsame]
    exact ⟨h, hfin⟩
  · rw [CidrRuleSet.removeAt, heq]
    refine ⟨Tidy.finalize (h.replace uid _ (fun u => ?_) ((h.nodup uid).sublist hsub)
      fun r hr => h.owned uid r (hsub.subset hr)), finalize_finalize _⟩
    cases left with
    | nil => exact get?_erase s.byUid uid u
    | cons r left => exact get?_set s.byUid uid u _

end CidrRuleSet

/-! ### Domain rules -/

/-- The name of a path leads back to the labels. -/
theorem zoneName_inj {p q : List Str} (hp : Canonical p.reverse) (hq : Canonical q.reverse)
    (hpn : p ≠ []) (hqn : q ≠ []) (h : zoneName p = zoneName q) : p = q := by
  have hsplit : ∀ r : List Str, Canonical r.reverse → r ≠ [] →
      (zoneName r).splitOn '.' = r.reverse := by
    intro r hr hne
    exact splitOn_intercalate_labels (by simpa using hne) fun l hl => (hr l hl).2.1
  have hrev := congrArg (splitOn '.') h
  rw [hsplit p hp hpn, hsplit q hq hqn] at hrev
  exact reverse_injective hrev

namespace DomainRuleSet

/-- A rule of the app ends at the path. -/
def EndsAt (s : DomainRuleSet) (uid : UInt32) (path : List Str) : Prop :=
  (s.trieOf uid).root.Ends path

section OfRules

variable (rules : List DomainRule)

theorem root_ofRules (uid : UInt32) :
    ((ofRules rules).trieOf uid).root =
      (rulePaths uid rules).foldl (fun t p => t.insert id () p) (PathTrie.leaf ()) :=
  root_trieOf_foldl uid rules {}

theorem endsAt_ofRules (uid : UInt32) (path : List Str) :
    (ofRules rules).EndsAt uid path ↔ path ∈ minimalPaths {q | q ∈ rulePaths uid rules} := by
  rw [EndsAt, root_ofRules]
  exact (insertAll_spec id () () rulePaths_ne_nil).2 path

theorem tidy_trieOf (uid : UInt32) : ((ofRules rules).trieOf uid).root.Tidy := by
  rw [root_ofRules]
  exact tidy_insertAll id () () rulePaths_ne_nil

theorem terminal_trieOf (uid : UInt32) : ((ofRules rules).trieOf uid).root.terminal = false := by
  rw [root_ofRules]
  exact (insertAll_spec id () () rulePaths_ne_nil).1

variable {rules}

variable {uid : UInt32}

theorem mem_rulePaths {path : List Str} :
    path ∈ rulePaths uid rules ↔
      ∃ r ∈ rules, r.uid = uid ∧ Insertable r.domain ∧ zonePath r.domain = path := by
  simp [rulePaths, and_assoc]

theorem canonical_of_endsAt {path : List Str} (h : (ofRules rules).EndsAt uid path) :
    Canonical path.reverse ∧ path ≠ [] := by
  have hmem : path ∈ rulePaths uid rules := ((endsAt_ofRules rules uid path).mp h).1
  refine ⟨?_, rulePaths_ne_nil path hmem⟩
  obtain ⟨r, -, -, -, rfl⟩ := mem_rulePaths.mp hmem
  rw [zonePath, reverse_reverse]
  exact canonical_canonicalLabels r.domain

theorem walkTerminals_eq (uid : UInt32) :
    ((ofRules rules).trieOf uid).walkTerminals =
      (PathTrie.terminals ((ofRules rules).trieOf uid).root).map zoneName := by
  rw [DomainTrie.walkTerminals, walk_eq_map]
  refine map_congr_left fun path hpath => foldl_extendSuffix fun l hl => ?_
  rw [mem_terminals_iff path (tidy_trieOf rules uid)] at hpath
  exact ((canonical_of_endsAt hpath).1 l (by simpa using hl)).1

theorem nodup_walkTerminals (uid : UInt32) :
    ((ofRules rules).trieOf uid).walkTerminals.Nodup := by
  rw [walkTerminals_eq]
  refine (nodup_terminals _ (tidy_trieOf rules uid)).map_on fun p hp q hq hpq => ?_
  rw [mem_terminals_iff _ (tidy_trieOf rules uid)] at hp hq
  obtain ⟨hpc, hpn⟩ := canonical_of_endsAt hp
  obtain ⟨hqc, hqn⟩ := canonical_of_endsAt hq
  exact zoneName_inj hpc hqc hpn hqn hpq

theorem trieOf_of_mem_rows {s : DomainRuleSet} {row : UInt32 × DomainTrie}
    (h : row ∈ s.byUid.rows) : s.trieOf row.1 = row.2 := by
  have hget : s.byUid.get? row.1 = some row.2 := mem_rows_iff.mp h
  rw [trieOf, hget, Option.getD_some]

/-- The terminals with their apps, before they are sorted. -/
def rowTerminals (s : DomainRuleSet) : List (UInt32 × Str) :=
  s.byUid.rows.flatMap fun row => row.2.walkTerminals.map fun domain => (row.1, domain)

theorem mem_rowTerminals {name : Str} :
    (uid, name) ∈ (ofRules rules).rowTerminals ↔
      ∃ path, (ofRules rules).EndsAt uid path ∧ zoneName path = name := by
  have hwalk : ∀ n, n ∈ ((ofRules rules).trieOf uid).walkTerminals ↔
      ∃ path, (ofRules rules).EndsAt uid path ∧ zoneName path = n := by
    intro n
    rw [walkTerminals_eq, mem_map]
    simp only [mem_terminals_iff _ (tidy_trieOf rules uid)]
    rfl
  rw [rowTerminals, mem_flatMap, ← hwalk]
  constructor
  · rintro ⟨row, hrow, hmem⟩
    obtain ⟨n, hn, heq⟩ := mem_map.mp hmem
    cases heq
    rwa [trieOf_of_mem_rows hrow]
  · intro hn
    cases hget : (ofRules rules).byUid.get? uid with
    | some trie =>
      rw [trieOf, hget, Option.getD_some] at hn
      exact ⟨(uid, trie), mem_rows_iff.mpr hget, mem_map_of_mem hn⟩
    | none =>
      rw [trieOf, hget] at hn
      cases hn

theorem nodup_rowTerminals : (ofRules rules).rowTerminals.Nodup := by
  rw [rowTerminals, nodup_flatMap]
  constructor
  · intro row hrow
    rw [← trieOf_of_mem_rows hrow]
    exact (nodup_walkTerminals row.1).map fun a b hab => (Prod.mk.inj hab).2
  · refine (pairwise_map.mp (ofRules rules).byUid.nodup).imp fun {a b} hab => ?_
    intro t hta htb
    obtain ⟨_, _, rfl⟩ := mem_map.mp hta
    obtain ⟨_, _, heq⟩ := mem_map.mp htb
    exact hab (Prod.mk.inj heq).1.symm

end OfRules

/-! ### The same terminals -/

/-- The order of `uidTerminals`. -/
def termLe (a b : UInt32 × Str) : Prop := a.1 < b.1 ∨ a.1 = b.1 ∧ utf8 a.2 ≤ utf8 b.2

instance : DecidableRel termLe := fun a b =>
  inferInstanceAs (Decidable (a.1 < b.1 ∨ a.1 = b.1 ∧ utf8 a.2 ≤ utf8 b.2))

theorem termLe_iff {a b : UInt32 × Str} :
    termLe a b ↔ Prod.Lex (· < ·) (· ≤ ·) (a.1, utf8 a.2) (b.1, utf8 b.2) := by
  rw [Prod.lex_def]
  rfl

theorem termLe_antisymm {a b : UInt32 × Str} (hab : termLe a b) (hba : termLe b a) : a = b := by
  have hstrict : IsStrictOrder UInt32 (· < ·) := {}
  have hkey := antisymm (termLe_iff.mp hab) (termLe_iff.mp hba)
  exact Prod.ext (Prod.mk.inj hkey).1 (utf8_injective (Prod.mk.inj hkey).2)

theorem pairwise_uidTerminals (s : DomainRuleSet) : s.uidTerminals.Pairwise termLe := by
  have htotal : Std.Total termLe := by
    refine ⟨fun a b => ?_⟩
    rw [termLe_iff, termLe_iff]
    exact total_of _ _ _
  have htrans : IsTrans (UInt32 × Str) termLe := by
    refine ⟨fun a b c => ?_⟩
    rw [termLe_iff, termLe_iff, termLe_iff]
    exact IsTrans.trans _ _ _
  exact @List.pairwise_insertionSort _ termLe _ htotal htrans s.rowTerminals

theorem uidTerminals_perm (s : DomainRuleSet) : s.uidTerminals.Perm s.rowTerminals :=
  perm_insertionSort termLe s.rowTerminals

variable {rules : List DomainRule}

theorem mem_uidTerminals {uid : UInt32} {name : Str} :
    (uid, name) ∈ (ofRules rules).uidTerminals ↔
      ∃ path, (ofRules rules).EndsAt uid path ∧ zoneName path = name := by
  rw [(uidTerminals_perm _).mem_iff, mem_rowTerminals]

theorem nodup_uidTerminals (rules : List DomainRule) : (ofRules rules).uidTerminals.Nodup :=
  (uidTerminals_perm _).nodup_iff.mpr nodup_rowTerminals

/-- Sets whose rules end at the same paths list the same rules. -/
theorem uidTerminals_eq {rules' : List DomainRule}
    (h : ∀ uid path, (ofRules rules).EndsAt uid path ↔ (ofRules rules').EndsAt uid path) :
    (ofRules rules).uidTerminals = (ofRules rules').uidTerminals := by
  have hperm : (ofRules rules).uidTerminals.Perm (ofRules rules').uidTerminals := by
    rw [perm_ext_iff_of_nodup (nodup_uidTerminals rules) (nodup_uidTerminals rules')]
    rintro ⟨uid, name⟩
    simp only [mem_uidTerminals, h]
  exact hperm.eq_of_pairwise (fun _ _ _ _ => termLe_antisymm) (pairwise_uidTerminals _)
    (pairwise_uidTerminals _)

theorem matchesApp_eq_of_endsAt {rules' : List DomainRule}
    (h : ∀ uid path, (ofRules rules).EndsAt uid path ↔ (ofRules rules').EndsAt uid path)
    (uid : UInt32) (qname : Str) :
    (ofRules rules).matchesApp uid qname = (ofRules rules').matchesApp uid qname := by
  rw [matchesApp_eq, matchesApp_eq, DomainTrie.matchesName, DomainTrie.matchesName]
  congr 1
  rw [Bool.eq_iff_iff, covers_iff _ _ (terminal_trieOf rules uid),
    covers_iff _ _ (terminal_trieOf rules' uid)]
  exact exists_congr fun q => and_congr_right fun _ => h uid q

theorem length_rules_ofRules_le (rules : List DomainRule) :
    (ofRules rules).rules.length ≤ rules.length := by
  have hsub : (ofRules rules).uidTerminals ⊆ rules.map fun r => (r.uid, normalize r.domain) := by
    rintro ⟨uid, name⟩ hmem
    obtain ⟨path, hends, rfl⟩ := mem_uidTerminals.mp hmem
    obtain ⟨r, hr, rfl, -, rfl⟩ := mem_rulePaths.mp ((endsAt_ofRules rules uid path).mp hends).1
    exact mem_map.mpr ⟨r, hr, by rw [zoneName_zonePath]⟩
  have hlen := (subperm_of_subset (nodup_uidTerminals rules) hsub).length_le
  rw [length_map] at hlen
  rwa [DomainRuleSet.rules, length_map]

/-- Rules of which none covers a later one are all counted. -/
theorem count_ofRules (hins : ∀ r ∈ rules, Insertable r.domain)
    (hfresh : rules.Pairwise fun x r => x.uid = r.uid → ¬ zonePath x.domain <+: zonePath r.domain) :
    (ofRules rules).count = rules.length := by
  induction rules using reverseRecOn with
  | nil => rfl
  | append_singleton rules r ih =>
    obtain ⟨hold, -, hlast⟩ := pairwise_append.mp hfresh
    have hcovers : ((ofRules rules).trieOf r.uid).root.covers (zonePath r.domain) = false := by
      rw [← Bool.not_eq_true, covers_iff _ _ (terminal_trieOf rules r.uid)]
      rintro ⟨q, hpre, hends⟩
      obtain ⟨x, hx, huid, -, rfl⟩ := mem_rulePaths.mp ((endsAt_ofRules rules r.uid q).mp hends).1
      exact hlast x hx r mem_cons_self huid hpre
    have hnew : ((ofRules rules).insert r).count = (ofRules rules).count + 1 := by
      have hr : Insertable r.domain := hins r (mem_append_right _ mem_cons_self)
      rw [trieOf] at hcovers
      simp only [insert, DomainTrie.insert_eq, if_pos hr, hcovers, Bool.not_false, if_true]
    rw [ofRules, foldl_append, foldl_cons, foldl_nil, length_append,
      length_singleton, ← ih (fun x hx => hins x (mem_append_left _ hx)) hold]
    exact hnew

theorem fingerprint_ofRules (rules : List DomainRule) : (ofRules rules).fingerprint = 0 := by
  induction rules using reverseRecOn with
  | nil => rfl
  | append_singleton rules r ih =>
    rw [ofRules, foldl_append, foldl_cons, foldl_nil]
    exact ih

/-! ### Rules that passed the gate -/

/-- The rules inserted into the set passed the gate.  Nothing is said of the statistics. -/
def Checked (s : DomainRuleSet) : Prop :=
  ∃ rules, s.byUid = (ofRules rules).byUid ∧
    ∀ r ∈ rules, ∃ p, validatePattern r.domain = .ok p

section Gate

variable (hgate : ∀ r ∈ rules, ∃ p, validatePattern r.domain = .ok p)
include hgate

/-- The name of a rule leads back to its path, and is a name that is inserted. -/
theorem zonePath_of_endsAt {uid : UInt32} {path : List Str} (h : (ofRules rules).EndsAt uid path) :
    zonePath (zoneName path) = path ∧ Insertable (zoneName path) ∧
      (utf8 (zoneName path)).length ≤ maxRuleNameLen := by
  obtain ⟨r, hr, -, hins, rfl⟩ := mem_rulePaths.mp ((endsAt_ofRules rules uid path).mp h).1
  obtain ⟨p, hp⟩ := hgate r hr
  have hlabels : canonicalLabels (zoneName (zonePath r.domain)) = canonicalLabels r.domain := by
    rw [zoneName, zonePath, reverse_reverse]
    exact canonicalLabels_intercalate (canonical_canonicalLabels r.domain)
      (validatePattern_spec hp).isWhitespace_eq_false
  have hname : normalizeRule (zoneName (zonePath r.domain)) = normalizeRule r.domain := by
    rw [normalizeRule, normalizeRule, Blocklist.normalize, Blocklist.normalize,
      ← canonicalLabels_eq, ← canonicalLabels_eq, hlabels]
  refine ⟨by rw [zonePath, hlabels, zonePath], ?_, ?_⟩
  · rw [Insertable, hname, hlabels]
    exact hins
  · rw [zoneName_zonePath]
    exact hins.2.1

theorem mem_rulePaths_rules {uid : UInt32} {path : List Str} :
    path ∈ rulePaths uid (ofRules rules).rules ↔ (ofRules rules).EndsAt uid path := by
  rw [mem_rulePaths]
  constructor
  · rintro ⟨r, hr, rfl, -, rfl⟩
    obtain ⟨⟨uid, name⟩, hmem, rfl⟩ := mem_map.mp hr
    obtain ⟨path, hends, rfl⟩ := mem_uidTerminals.mp hmem
    rwa [(zonePath_of_endsAt hgate hends).1]
  · intro hends
    obtain ⟨hpath, hins, -⟩ := zonePath_of_endsAt hgate hends
    refine ⟨⟨zoneName path, uid, true⟩, ?_, rfl, hins, hpath⟩
    exact mem_map.mpr ⟨(uid, zoneName path), mem_uidTerminals.mpr ⟨path, hends, rfl⟩, rfl⟩

/-- **The domain rules come back as they were**: the listed rules, inserted again, end at the
same paths. -/
theorem rebuild_eq (uid : UInt32) (path : List Str) :
    (ofRules (ofRules rules).rules).EndsAt uid path ↔ (ofRules rules).EndsAt uid path := by
  have hset : {q | q ∈ rulePaths uid (ofRules rules).rules} =
      minimalPaths {q | q ∈ rulePaths uid rules} := by
    ext q
    rw [Set.mem_ofPred_eq, mem_rulePaths_rules hgate, endsAt_ofRules]
  rw [endsAt_ofRules, endsAt_ofRules, hset, minimalPaths_minimalPaths]

/-- None of the listed rules covers another, so that each is counted. -/
theorem count_ofRules_rules :
    (ofRules (ofRules rules).rules).count = (ofRules rules).rules.length := by
  refine count_ofRules (fun r hr => ?_) ?_
  · obtain ⟨⟨uid, name⟩, hmem, rfl⟩ := mem_map.mp hr
    obtain ⟨path, hends, rfl⟩ := mem_uidTerminals.mp hmem
    exact (zonePath_of_endsAt hgate hends).2.1
  · rw [DomainRuleSet.rules, pairwise_map]
    refine (nodup_uidTerminals rules).imp_of_mem fun {a b} ha hb hne => ?_
    obtain ⟨p, hp, hpa⟩ := mem_uidTerminals.mp ha
    obtain ⟨q, hq, hqb⟩ := mem_uidTerminals.mp hb
    intro huid hpre
    dsimp only at huid hpre
    rw [← hpa, ← hqb, (zonePath_of_endsAt hgate hp).1, (zonePath_of_endsAt hgate hq).1] at hpre
    rw [huid] at hp
    -- a terminal that covers another is that terminal
    have hpq := ((endsAt_ofRules rules b.1 q).mp hq).2 p ((endsAt_ofRules rules b.1 p).mp hp).1 hpre
    exact hne (Prod.ext huid (by rw [← hpa, ← hqb, hpq]))

end Gate

end DomainRuleSet

end Firewall
end TortaCore
