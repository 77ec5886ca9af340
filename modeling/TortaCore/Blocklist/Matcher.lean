import TortaCore.Blocklist.Name
import TortaCore.Store.PathTrie

/-!
# The blocklist matcher

`blocklist.rs` keeps the blocked domains in a trie of reversed labels, so that
blocking a domain blocks everything beneath it.  The trie is the generic
`PathTrie` with label strings on the edges and a provenance bit set on the
nodes; this module gives it the names and the loops of the source.

The order in which a `HashMap` of children is traversed is not specified; here
it is the order of first insertion, and the statistics are shown not to depend
on it.

## Main definitions

* `Node`, `Matcher`: the trie and the compiled list with its statistics.
* `Matcher.insert`, `Matcher.insertWithSource`, `Matcher.finalize`,
  `Matcher.isBlocked`, `Matcher.sourceMask`: the operations.
* `Matcher.ofDomains`: a matcher after a sequence of `insert` calls.
-/

namespace TortaCore
namespace Blocklist

open Text Store List PathTrie

/-- A provenance bit set. -/
abbrev SourceMask := UInt32

/-- A trie node, keyed by labels. -/
abbrev Node := PathTrie Str SourceMask

/-- One step of the domain built so far: the deeper label comes first. -/
def extendSuffix (suffix label : Str) : Str :=
  if suffix.isEmpty then label else label ++ '.' :: suffix

/-- The canonical blocked domains: each terminal once, nothing beneath it. -/
def Node.walkTerminals (n : Node) (suffix : Str) : List Str := PathTrie.walk extendSuffix suffix n

/-- FNV-1a, 64 bit. -/
def fnv1a (s : Str) : UInt64 :=
  (utf8 s).foldl (fun hash b => (hash ^^^ b.toUInt64) * 0x100000001b3) 0xcbf29ce484222325

structure Matcher where
  root : Node := PathTrie.leaf 0
  count : ℕ := 0
  fingerprint : UInt64 := 0

namespace Matcher

/-- Both inserts walk the labels from the right; `mark` is what happens to the
provenance of the terminal that covers the domain in the end. -/
def insertMarked (mark : SourceMask → SourceMask) (m : Matcher) (domain : Str) : Matcher :=
  let domain := normalize domain
  if domain.isEmpty then m
  else { m with root := m.root.insert mark 0 (rsplitDots domain) }

/-- Insert a domain; the statistics wait for `finalize`. -/
def insert (m : Matcher) (domain : Str) : Matcher := m.insertMarked id domain

/-- Insert a domain and note which source armed it. -/
def insertWithSource (m : Matcher) (domain : Str) (mask : SourceMask) : Matcher :=
  m.insertMarked (· ||| mask) domain

/-- Recompute the statistics from the canonical blocked set. -/
def finalize (m : Matcher) : Matcher :=
  let stats := (m.root.walkTerminals []).foldl
    (fun (acc : ℕ × UInt64) domain => (acc.1 + 1, acc.2 ^^^ fnv1a domain)) (0, 0)
  { m with count := stats.1, fingerprint := stats.2 }

/-- Whether the domain or a parent of it is blocked. -/
def isBlocked (m : Matcher) (domain : Str) : Bool :=
  let labels := walkLabels domain
  !labels.isEmpty && m.root.covers labels

/-- The provenance found along a walk: that of the first terminal, else of the node
where the walk ends. -/
def maskAlong : List Str → Node → SourceMask
  | [], n => n.tag
  | l :: ls, n =>
    match n.child? l with
    | some c => if c.terminal then c.tag else maskAlong ls c
    | none => 0

def sourceMask (m : Matcher) (domain : Str) : SourceMask :=
  let labels := walkLabels domain
  if labels.isEmpty then 0 else maskAlong labels m.root

/-- A matcher after a sequence of `insert` calls. -/
def ofDomains (domains : List Str) : Matcher := domains.foldl insert {}

end Matcher

/-! ### The paths that are inserted -/

/-- The trie path of a domain, top-level label first. -/
def zonePath (domain : Str) : List Str := (canonicalLabels domain).reverse

/-- The paths that a sequence of inserts reaches the trie with. -/
def zonePaths (domains : List Str) : List (List Str) :=
  (domains.map zonePath).filter fun p => !p.isEmpty

theorem mem_zonePaths {p : List Str} {domains : List Str} :
    p ∈ zonePaths domains ↔ ∃ d ∈ domains, zonePath d = p ∧ p ≠ [] := by
  simp only [zonePaths, mem_filter, mem_map, Bool.not_eq_true', isEmpty_eq_false_iff]
  constructor
  · rintro ⟨⟨d, hd, hp⟩, hne⟩
    exact ⟨d, hd, hp, hne⟩
  · rintro ⟨d, hd, hp, hne⟩
    exact ⟨⟨d, hd, hp⟩, hne⟩

theorem zonePaths_ne_nil {domains : List Str} : ∀ p ∈ zonePaths domains, p ≠ [] :=
  fun _ hp => (mem_zonePaths.mp hp).elim fun _ h => h.2.2

/-- An insert reaches the trie with the path of the domain, or not at all. -/
theorem root_insertMarked (mark : SourceMask → SourceMask) (m : Matcher) (d : Str) :
    (m.insertMarked mark d).root =
      if zonePath d = [] then m.root else m.root.insert mark 0 (zonePath d) := by
  have hnil : zonePath d = [] ↔ normalize d = [] := by
    rw [zonePath, List.reverse_eq_nil_iff, canonicalLabels_eq_nil]
  simp only [Matcher.insertMarked, List.isEmpty_iff]
  by_cases h : normalize d = []
  · rw [if_pos h, if_pos (hnil.mpr h)]
  · rw [if_neg h, if_neg (fun h' => h (hnil.mp h')), rsplitDots, splitOn_normalize h, zonePath]

theorem root_foldl_insert (domains : List Str) (m : Matcher) :
    (domains.foldl Matcher.insert m).root =
      (zonePaths domains).foldl (fun t p => t.insert id 0 p) m.root := by
  induction domains generalizing m with
  | nil => rfl
  | cons d ds ih =>
    rw [foldl_cons, ih, Matcher.insert, root_insertMarked]
    by_cases h : zonePath d = []
    · simp [zonePaths, h]
    · simp [zonePaths, h]

theorem root_ofDomains (domains : List Str) :
    (Matcher.ofDomains domains).root =
      (zonePaths domains).foldl (fun t p => t.insert id 0 p) (PathTrie.leaf 0) :=
  root_foldl_insert domains {}

/-! ### Lookup -/

theorem isBlocked_iff_covers (m : Matcher) (hroot : m.root.terminal = false) (d : Str) :
    m.isBlocked d = true ↔ m.root.covers (walkLabels d) = true := by
  simp only [Matcher.isBlocked, Bool.and_eq_true, Bool.not_eq_true', isEmpty_eq_false_iff]
  constructor
  · exact fun h => h.2
  · intro h
    refine ⟨fun hnil => ?_, h⟩
    rw [hnil, covers, hroot] at h
    exact Bool.false_ne_true h

theorem terminal_root_ofDomains (domains : List Str) :
    (Matcher.ofDomains domains).root.terminal = false := by
  rw [root_ofDomains]
  exact (insertAll_spec id 0 0 zonePaths_ne_nil).1

theorem covered_ofDomains (domains : List Str) (p : List Str) :
    (Matcher.ofDomains domains).root.Covered p ↔
      ∃ x ∈ domains, canonicalLabels x ≠ [] ∧ zonePath x <+: p := by
  rw [← covers_iff p _ (terminal_root_ofDomains domains), root_ofDomains,
    covers_insertAll id 0 0 zonePaths_ne_nil]
  constructor
  · rintro ⟨q, hq, hpre⟩
    obtain ⟨x, hx, rfl, hne⟩ := mem_zonePaths.mp hq
    exact ⟨x, hx, fun h => hne (by rw [zonePath, h, reverse_nil]), hpre⟩
  · rintro ⟨x, hx, hne, hpre⟩
    exact ⟨zonePath x, mem_zonePaths.mpr ⟨x, hx, rfl, by simpa [zonePath] using hne⟩, hpre⟩

/-- What the lookup answers after any sequence of inserts: some inserted path is a
prefix of the walk. -/
theorem isBlocked_ofDomains (domains : List Str) (d : Str) :
    (Matcher.ofDomains domains).isBlocked d = true ↔
      ∃ x ∈ domains, canonicalLabels x ≠ [] ∧ zonePath x <+: walkLabels d := by
  have hroot := terminal_root_ofDomains domains
  rw [isBlocked_iff_covers _ hroot, covers_iff _ _ hroot, covered_ofDomains]

/-- If the list that blocks only `d` answers for `d` itself, the walk is the inserted
path: it has as many labels. -/
theorem walkLabels_eq_zonePath_of_self {d : Str}
    (h : canonicalLabels d ≠ [] → zonePath d <+: walkLabels d) : walkLabels d = zonePath d := by
  have hlen : (walkLabels d).length = (zonePath d).length := by
    rw [length_walkLabels, zonePath, length_reverse]
  by_cases hd : canonicalLabels d = []
  · have hz : zonePath d = [] := by rw [zonePath, hd, reverse_nil]
    rw [hz] at hlen ⊢
    exact eq_nil_of_length_eq_zero hlen
  · exact ((h hd).eq_of_length hlen.symm).symm

/-- Over all lists of inserts, the lookup of `d` follows the path of `d`'s own
normalised name exactly when the walk is that path. -/
theorem forall_isBlocked_iff_covered (d : Str) :
    (∀ domains, (Matcher.ofDomains domains).isBlocked d = true ↔
      (Matcher.ofDomains domains).root.Covered (zonePath d)) ↔ walkLabels d = zonePath d := by
  simp only [isBlocked_ofDomains, covered_ofDomains]
  constructor
  · intro h
    refine walkLabels_eq_zonePath_of_self fun hd => ?_
    obtain ⟨x, hx, -, hpre⟩ := (h [d]).mpr ⟨d, mem_singleton_self d, hd, prefix_rfl⟩
    rwa [mem_singleton.mp hx] at hpre
  · intro h domains
    rw [h]

/-- **The allocation-free lookup agrees with a walk along the normalised name** for
every list exactly on the names whose capital sigmas are not affected by other
labels; the labels it yields are those of the normalised name on the same names. -/
theorem isBlocked_agrees_iff (d : Str) :
    ((∀ domains, (Matcher.ofDomains domains).isBlocked d = true ↔
        ∃ q, q <+: zonePath d ∧ (Matcher.ofDomains domains).root.Ends q) ↔
      sigmaLocal [] (stem d) = true) ∧
    ((normalize d ≠ [] → walkLabels d = rsplitDots (normalize d)) ↔
      sigmaLocal [] (stem d) = true) := by
  refine ⟨?_, ?_⟩
  · rw [← walkLabels_eq_reverse_iff]
    exact forall_isBlocked_iff_covered d
  · rw [← walkLabels_eq_reverse_iff]
    by_cases hd : normalize d = []
    · have hc := canonicalLabels_eq_nil.mpr hd
      have hw := walkLabels_eq_zonePath_of_self fun h => absurd hc h
      exact iff_of_true (fun h => absurd hd h) hw
    · rw [rsplitDots, splitOn_normalize hd]
      simp [hd]

/-- A list that blocks `ΑΣ.gr` does not block `ΑΣ.gr`: the stored label ends in `σ`,
because a cased letter follows after the dot, and the one looked up in `ς`. -/
theorem isBlocked_sigma_before_dot :
    (Matcher.ofDomains [['Α', 'Σ', '.', 'g', 'r']]).isBlocked ['Α', 'Σ', '.', 'g', 'r'] = false ∧
      PathTrie.covers (rsplitDots (normalize ['Α', 'Σ', '.', 'g', 'r']))
        (Matcher.ofDomains [['Α', 'Σ', '.', 'g', 'r']]).root = true := by
  decide +kernel

/-! ### Statistics -/

theorem isBlocked_finalize (m : Matcher) (d : Str) : m.finalize.isBlocked d = m.isBlocked d := rfl

/-- The digest of a list of domains, as an unordered sum. -/
def digest (domains : List Str) : UInt64 := (domains.map fnv1a).foldr (· ^^^ ·) 0

theorem foldl_stats (ds : List Str) (n : ℕ) (h : UInt64) :
    ds.foldl (fun (acc : ℕ × UInt64) d => (acc.1 + 1, acc.2 ^^^ fnv1a d)) (n, h) =
      (n + ds.length, h ^^^ digest ds) := by
  induction ds generalizing n h with
  | nil => simp [digest]
  | cons d ds ih =>
    rw [foldl_cons, ih]
    simp only [digest, length_cons, map_cons, foldr_cons, Prod.mk.injEq]
    exact ⟨by omega, UInt64.xor_assoc _ _ _⟩

theorem finalize_eq (m : Matcher) :
    m.finalize.count = (m.root.walkTerminals []).length ∧
      m.finalize.fingerprint = digest (m.root.walkTerminals []) := by
  simp only [Matcher.finalize, foldl_stats]
  simp

theorem digest_perm {ds es : List Str} (h : ds.Perm es) : digest ds = digest es := by
  induction h with
  | nil => rfl
  | cons d _ ih => exact congrArg (fnv1a d ^^^ ·) ih
  | swap d e ds =>
    show fnv1a e ^^^ (fnv1a d ^^^ digest ds) = fnv1a d ^^^ (fnv1a e ^^^ digest ds)
    rw [← UInt64.xor_assoc, UInt64.xor_comm (fnv1a e), UInt64.xor_assoc]
  | trans _ _ ih1 ih2 => exact ih1.trans ih2

theorem tidy_ofDomains (domains : List Str) : (Matcher.ofDomains domains).root.Tidy := by
  rw [root_ofDomains]
  exact tidy_insertAll id 0 0 zonePaths_ne_nil

theorem ends_ofDomains (domains : List Str) (p : List Str) :
    (Matcher.ofDomains domains).root.Ends p ↔ p ∈ minimalPaths {q | q ∈ zonePaths domains} := by
  rw [root_ofDomains]
  exact (insertAll_spec id 0 0 zonePaths_ne_nil).2 p

/-- Tries with the same terminals have the same statistics, whatever the order of
their edges. -/
theorem finalize_congr {m n : Matcher} (hm : m.root.Tidy) (hn : n.root.Tidy)
    (h : ∀ p, m.root.Ends p ↔ n.root.Ends p) :
    m.finalize.count = n.finalize.count ∧ m.finalize.fingerprint = n.finalize.fingerprint := by
  have hperm : (m.root.walkTerminals []).Perm (n.root.walkTerminals []) := by
    simp only [Node.walkTerminals, walk_eq_map]
    exact (terminals_perm hm hn h).map _
  rw [(finalize_eq m).1, (finalize_eq n).1, (finalize_eq m).2, (finalize_eq n).2]
  exact ⟨hperm.length_eq, digest_perm hperm⟩

/-- A list whose language contains that of another covers each of its paths: every
path is the walk of some query. -/
theorem cover_of_isBlocked {ds es : List Str} (h : ∀ d, (Matcher.ofDomains ds).isBlocked d = true →
      (Matcher.ofDomains es).isBlocked d = true) :
    ∀ p ∈ {q | q ∈ zonePaths ds}, ∃ q ∈ {q | q ∈ zonePaths es}, q <+: p := by
  intro p hp
  obtain ⟨x, hx, rfl, hne⟩ := mem_zonePaths.mp hp
  have hx' : canonicalLabels x ≠ [] := fun h => hne (by rw [zonePath, h, reverse_nil])
  have hwalk := walkLabels_intercalate (canonical_canonicalLabels x) hx'
  have hblocked := h _ ((isBlocked_ofDomains ds _).mpr
    ⟨x, hx, hx', by rw [hwalk]; exact prefix_rfl⟩)
  obtain ⟨y, hy, hyne, hpre⟩ := (isBlocked_ofDomains es _).mp hblocked
  rw [hwalk] at hpre
  exact ⟨zonePath y, mem_zonePaths.mpr ⟨y, hy, rfl, by simpa [zonePath] using hyne⟩, hpre⟩

/-- Lists that block the same domains have the same statistics. -/
theorem stats_of_language {ds es : List Str}
    (h : ∀ d, (Matcher.ofDomains ds).isBlocked d = (Matcher.ofDomains es).isBlocked d) :
    (Matcher.ofDomains ds).finalize.count = (Matcher.ofDomains es).finalize.count ∧
      (Matcher.ofDomains ds).finalize.fingerprint =
        (Matcher.ofDomains es).finalize.fingerprint := by
  refine finalize_congr (tidy_ofDomains ds) (tidy_ofDomains es) fun p => ?_
  rw [ends_ofDomains, ends_ofDomains]
  rw [minimalPaths_eq_of_cover (cover_of_isBlocked fun d hd => by rw [← h d]; exact hd)
    (cover_of_isBlocked fun d hd => by rw [h d]; exact hd)]

/-- **Trie semantics and canonicity.**  The lookup answers by label suffixes exactly on
the names whose capital sigmas are not affected by other labels; the statistics depend
on the blocked language alone; terminals are the leaves. -/
theorem matcher_semantics (d : Str) (ds es : List Str) :
    ((∀ domains, (Matcher.ofDomains domains).finalize.isBlocked d = true ↔
        ∃ x ∈ domains, canonicalLabels x ≠ [] ∧ canonicalLabels x <:+ canonicalLabels d) ↔
      sigmaLocal [] (stem d) = true) ∧
    ((∀ d, (Matcher.ofDomains ds).finalize.isBlocked d =
          (Matcher.ofDomains es).finalize.isBlocked d) →
        (Matcher.ofDomains ds).finalize.count = (Matcher.ofDomains es).finalize.count ∧
          (Matcher.ofDomains ds).finalize.fingerprint =
            (Matcher.ofDomains es).finalize.fingerprint) ∧
    (∀ p s, (Matcher.ofDomains ds).finalize.root.subtree? p = some s →
        (s.terminal = true → s.children = []) ∧
          (p ≠ [] → s.children = [] → s.terminal = true)) := by
  refine ⟨?_, fun h => stats_of_language h, fun p s hs => ?_⟩
  · rw [← walkLabels_eq_reverse_iff, ← zonePath, ← forall_isBlocked_iff_covered]
    simp only [isBlocked_finalize, covered_ofDomains, zonePath, reverse_prefix]
  · exact ⟨(tidy_ofDomains ds).leaf_of_terminal p s hs, (tidy_ofDomains ds).terminal_of_leaf p s hs⟩

/-- The inserted name is a suffix of itself, and the lookup of it fails. -/
theorem matcher_misses_sigma_before_dot :
    ((Matcher.ofDomains [['Σ', 'Α', 'Σ', '.', 'g', 'r']]).finalize.isBlocked
      ['Σ', 'Α', 'Σ', '.', 'g', 'r']) = false ∧
    canonicalLabels ['Σ', 'Α', 'Σ', '.', 'g', 'r'] ≠ [] ∧
    canonicalLabels ['Σ', 'Α', 'Σ', '.', 'g', 'r'] <:+
      canonicalLabels ['Σ', 'Α', 'Σ', '.', 'g', 'r'] := by
  refine ⟨by decide +kernel, by decide +kernel, suffix_rfl⟩

end Blocklist
end TortaCore
