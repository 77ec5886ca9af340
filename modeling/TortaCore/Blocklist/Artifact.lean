import TortaCore.Blocklist.Compile
import Mathlib.Data.List.Dedup

/-!
# The binary blocklist artifact

`to_artifact` writes the canonical blocked set as a header and a sorted list of
length-prefixed names; `from_artifact` checks the header, replays every name through
`insert`, and compares the recomputed fingerprint with the embedded one.

The reader refuses a name of more than 253 bytes.  The text parser has the same bound,
but on the name as it is written: lowercasing can make it longer (`İ` takes two
bytes, its lowercase form three).  And the record count is a 32-bit field.

## Main definitions

* `Matcher.toArtifact`, `Matcher.fromArtifact`.
-/

namespace TortaCore
namespace Blocklist

open Text Store Wire List PathTrie Matcher

/-- `b"TBLK"`. -/
def artifactMagic : Bytes := [0x54, 0x42, 0x4C, 0x4B]

def artifactVersion : ℕ := 1

def hashAlgoFnv1a64 : UInt8 := 0

def artifactHeaderLen : ℕ := 20

/-- Strings compare by their bytes. -/
def bytesLe (a b : Str) : Bool := decide (utf8 a ≤ utf8 b)

/-- One record: the length as a 16-bit integer, then the bytes. -/
def encodeRecord (domain : Str) : Bytes := leBytes 2 (utf8 domain).length ++ utf8 domain

namespace Matcher

/-- The names in the order they are emitted. -/
def artifactNames (m : Matcher) : List Str := (m.root.walkTerminals []).mergeSort bytesLe

def toArtifact (m : Matcher) : Bytes :=
  artifactMagic ++ leBytes 2 artifactVersion ++ [hashAlgoFnv1a64] ++ [0] ++
    leBytes 8 m.fingerprint.toNat ++ leBytes 4 m.artifactNames.length ++
    m.artifactNames.flatMap encodeRecord

/-- Replay `n` records into a matcher. -/
def readRecords : ℕ → Bytes → Matcher → Option Matcher
  | 0, _, m => some m
  | n + 1, bytes, m =>
    match readLe 2 bytes with
    | none => none
    | some (len, bytes) =>
      if len > maxNameLen then none
      else
        match takeBytes len bytes with
        | none => none
        | some (name, bytes) =>
          match fromUtf8 name with
          | none => none
          | some domain => readRecords n bytes (m.insert domain)

def fromArtifact (bytes : Bytes) : Option Matcher :=
  if bytes.length < artifactHeaderLen then none
  else if bytes.take 4 ≠ artifactMagic then none
  else if leNat ((bytes.drop 4).take 2) ≠ artifactVersion then none
  else if (bytes.drop 6).take 1 ≠ [hashAlgoFnv1a64] then none
  else if (bytes.drop 7).take 1 ≠ [0] then none
  else
    let embeddedFp := leNat ((bytes.drop 8).take 8)
    let domainCount := leNat ((bytes.drop 16).take 4)
    match readRecords domainCount (bytes.drop artifactHeaderLen) {} with
    | none => none
    | some matcher =>
      let matcher := matcher.finalize
      if matcher.fingerprint.toNat ≠ embeddedFp then none else some matcher

end Matcher

/-- The artifact of a matcher reads back as a matcher with the same statistics that
blocks the same domains. -/
def RoundTrips (m : Matcher) : Prop :=
  ∃ m', Matcher.fromArtifact m.toArtifact = some m' ∧ m'.count = m.count ∧
    m'.fingerprint = m.fingerprint ∧ ∀ d, m'.isBlocked d = m.isBlocked d

/-- The name of a trie path. -/
def zoneName (path : List Str) : Str := ['.'].intercalate path.reverse

/-- The zones of a list of domains that no other zone of the list covers. -/
def minimalZones (domains : List Str) : List (List Str) :=
  (zonePaths domains).dedup.filter fun p =>
    (zonePaths domains).all fun q => !(q.isPrefixOf p) || q == p

/-! ### Reading records -/

theorem readRecords_cons {d : Str} (h : (utf8 d).length ≤ maxNameLen) (n : ℕ) (bs : Bytes)
    (m : Matcher) :
    Matcher.readRecords (n + 1) (encodeRecord d ++ bs) m =
      Matcher.readRecords n bs (m.insert d) := by
  have hlen : (utf8 d).length % 256 ^ 2 = (utf8 d).length :=
    Nat.mod_eq_of_lt (Nat.lt_of_le_of_lt h (by decide))
  rw [readRecords, encodeRecord, append_assoc, readLe_append]
  simp only [hlen, takeBytes_append, fromUtf8_utf8, if_neg (Nat.not_lt.mpr h)]

theorem readRecords_long {d : Str} (h : maxNameLen < (utf8 d).length)
    (h' : (utf8 d).length < 256 ^ 2) (n : ℕ) (bs : Bytes) (m : Matcher) :
    Matcher.readRecords (n + 1) (encodeRecord d ++ bs) m = none := by
  rw [readRecords, encodeRecord, append_assoc, readLe_append]
  simp only [Nat.mod_eq_of_lt h', if_pos h]

theorem readRecords_flatMap (ds : List Str) (m : Matcher)
    (h : ∀ d ∈ ds, (utf8 d).length ≤ maxNameLen) :
    Matcher.readRecords ds.length (ds.flatMap encodeRecord) m =
      some (ds.foldl Matcher.insert m) := by
  induction ds generalizing m with
  | nil => rfl
  | cons d ds ih =>
    rw [length_cons, flatMap_cons, readRecords_cons (h d mem_cons_self),
      ih _ fun e he => h e (mem_cons_of_mem _ he), foldl_cons]

/-- A name beyond the bound stops the reader, wherever it stands. -/
theorem readRecords_flatMap_long : ∀ (ds : List Str) (m : Matcher),
    (∀ d ∈ ds, (utf8 d).length < 256 ^ 2) → (∃ d ∈ ds, maxNameLen < (utf8 d).length) →
    Matcher.readRecords ds.length (ds.flatMap encodeRecord) m = none := by
  intro ds
  induction ds with
  | nil => rintro m _ ⟨d, hd, -⟩; cases hd
  | cons d ds ih =>
    rintro m hshort ⟨e, he, hlong⟩
    rw [length_cons, flatMap_cons]
    by_cases hd : maxNameLen < (utf8 d).length
    · exact readRecords_long hd (hshort d mem_cons_self) _ _ _
    · rw [readRecords_cons (Nat.not_lt.mp hd)]
      refine ih _ (fun x hx => hshort x (mem_cons_of_mem _ hx)) ⟨e, ?_, hlong⟩
      rcases mem_cons.mp he with rfl | he
      · exact absurd hlong hd
      · exact he

/-- Whatever the bytes are, the reader makes as many inserts as there are records. -/
theorem readRecords_eq_some (n : ℕ) (bs : Bytes) (m m' : Matcher)
    (h : Matcher.readRecords n bs m = some m') :
    ∃ ds : List Str, ds.length = n ∧ m' = ds.foldl Matcher.insert m := by
  fun_induction Matcher.readRecords with
  | case1 =>
    cases h
    exact ⟨[], rfl, rfl⟩
  | case6 _ _ _ _ _ _ _ _ _ _ d _ ih =>
    obtain ⟨ds, hlen, rfl⟩ := ih h
    exact ⟨d :: ds, by rw [length_cons, hlen], rfl⟩
  | _ => cases h

/-! ### The header -/

/-- A well-formed header passes, and leaves the records and the fingerprint. -/
theorem fromArtifact_header {fp cnt : Bytes} (hfp : fp.length = 8) (hcnt : cnt.length = 4)
    (body : Bytes) :
    Matcher.fromArtifact (artifactMagic ++ leBytes 2 artifactVersion ++ [hashAlgoFnv1a64] ++ [0] ++
        fp ++ cnt ++ body) =
      match Matcher.readRecords (leNat cnt) body {} with
      | none => none
      | some r => if r.finalize.fingerprint.toNat ≠ leNat fp then none else some r.finalize := by
  match fp, hfp with
  | [f0, f1, f2, f3, f4, f5, f6, f7], _ =>
    match cnt, hcnt with
    | [c0, c1, c2, c3], _ =>
      have hlen : ¬ (artifactMagic ++ leBytes 2 artifactVersion ++ [hashAlgoFnv1a64] ++ [0] ++
          [f0, f1, f2, f3, f4, f5, f6, f7] ++ [c0, c1, c2, c3] ++ body).length <
            artifactHeaderLen := by
        simp [artifactMagic, artifactHeaderLen]
        omega
      rfl

/-- Reading back a written artifact: what counts is the records and the fingerprint
they give. -/
theorem fromArtifact_toArtifact (m : Matcher) :
    Matcher.fromArtifact m.toArtifact =
      match Matcher.readRecords (m.artifactNames.length % 256 ^ 4)
        (m.artifactNames.flatMap encodeRecord) {} with
      | none => none
      | some r => if r.finalize.fingerprint ≠ m.fingerprint then none else some r.finalize := by
  have hfp : leNat (leBytes 8 m.fingerprint.toNat) = m.fingerprint.toNat := by
    rw [leNat_leBytes]
    exact Nat.mod_eq_of_lt m.fingerprint.toNat_lt
  rw [toArtifact, fromArtifact_header (length_leBytes 8 _) (length_leBytes 4 _), hfp, leNat_leBytes]
  simp only [ne_eq, UInt64.toNat_inj]

/-! ### The names of a matcher -/

variable {p : List Str} {domains : List Str}

theorem foldl_extendSuffix (h : ∀ l ∈ p, l ≠ []) :
    p.foldl extendSuffix [] = zoneName p := by
  induction p using reverseRecOn with
  | nil => rfl
  | append_singleton p l ih =>
    have hp : ∀ l ∈ p, l ≠ [] := fun m hm => h m (mem_append_left _ hm)
    rw [foldl_append, ih hp, foldl_cons, foldl_nil, extendSuffix, zoneName, zoneName,
      reverse_append, reverse_singleton, singleton_append]
    cases hrev : p.reverse with
    | nil => simp
    | cons m ms =>
      have hne : ['.'].intercalate (m :: ms) ≠ [] := by
        rw [← hrev]
        refine intercalate_ne_nil (by simp [hrev]) fun x hx => hp x (by simpa using hx)
      rw [if_neg (by simpa using hne), intercalate_cons_cons]
      simp

theorem mem_minimalZones :
    p ∈ minimalZones domains ↔ p ∈ minimalPaths {q | q ∈ zonePaths domains} := by
  simp only [minimalZones, mem_filter, mem_dedup, all_eq_true, Bool.or_eq_true,
    Bool.not_eq_true', beq_iff_eq, minimalPaths, Set.mem_ofPred_eq]
  refine and_congr Iff.rfl (forall₂_congr fun q _ => ?_)
  rw [← isPrefixOf_iff_prefix, ← Bool.not_eq_true]
  exact Decidable.imp_iff_not_or.symm

/-- The terminals of a matcher are the zones that no other zone covers. -/
theorem terminals_ofDomains (domains : List Str) :
    (PathTrie.terminals (Matcher.ofDomains domains).root).Perm (minimalZones domains) := by
  have hnd : (minimalZones domains).Nodup := (nodup_dedup _).filter _
  rw [perm_ext_iff_of_nodup (nodup_terminals _ (tidy_ofDomains domains)) hnd]
  intro p
  rw [mem_terminals_iff p (tidy_ofDomains domains), ends_ofDomains, mem_minimalZones]

theorem labels_of_mem_zonePaths (h : p ∈ zonePaths domains) :
    Canonical p.reverse := by
  obtain ⟨d, -, rfl, -⟩ := mem_zonePaths.mp h
  rw [zonePath, reverse_reverse]
  exact canonical_canonicalLabels d

theorem artifactNames_perm (domains : List Str) :
    (Matcher.ofDomains domains).artifactNames.Perm ((minimalZones domains).map zoneName) := by
  refine (mergeSort_perm _ _).trans ?_
  rw [Node.walkTerminals, walk_eq_map]
  refine ((terminals_ofDomains domains).map _).trans (Perm.of_eq ?_)
  refine map_congr_left fun p hp => foldl_extendSuffix fun l hl => ?_
  exact (labels_of_mem_zonePaths (mem_minimalZones.mp hp).1 l (by simpa using hl)).1

theorem count_ofDomains (domains : List Str) :
    (Matcher.ofDomains domains).finalize.count = (minimalZones domains).length := by
  rw [(finalize_eq _).1, Node.walkTerminals, walk_eq_map, length_map,
    (terminals_ofDomains domains).length_eq]

theorem length_minimalZones_le (domains : List Str) :
    (minimalZones domains).length ≤ domains.length := by
  have h1 := length_filter_le
    (fun p => (zonePaths domains).all fun q => !(q.isPrefixOf p) || q == p)
    (zonePaths domains).dedup
  have h2 := (dedup_sublist (zonePaths domains)).length_le
  have h3 := length_filter_le (fun p => !p.isEmpty) (domains.map zonePath)
  rw [length_map] at h3
  exact Nat.le_trans h1 (Nat.le_trans h2 h3)

/-! ### Replaying the names -/

theorem zoneName_zonePath (d : Str) : zoneName (zonePath d) = normalize d := by
  rw [zoneName, zonePath, reverse_reverse, canonicalLabels_eq, normalize]

theorem isWhitespace_canonicalLabels {d : Str} (h : ∀ x ∈ d, isWhitespace x = false) :
    ∀ l ∈ canonicalLabels d, ∀ x ∈ l, isWhitespace x = false := by
  intro l hl x hx
  rw [canonicalLabels_eq] at hl
  have hmem := mem_of_mem_splitOn (mem_nonEmpty.mp hl).1 hx
  cases hw : isWhitespace x with
  | false => rfl
  | true =>
    have hstem : x ∈ stem d := mem_of_mem_lowerIn hmem (Or.inr hw)
    have hd := h x (mem_of_mem_trim ((List.rdropWhile_prefix _ _).subset hstem))
    rw [hd] at hw
    exact hw.symm

/-- The name of a zone leads back to the zone when it was written without white space. -/
theorem zonePath_zoneName (h : ∀ d ∈ domains, ∀ x ∈ d, isWhitespace x = false)
    (hp : p ∈ zonePaths domains) : zonePath (zoneName p) = p := by
  obtain ⟨d, hd, rfl, -⟩ := mem_zonePaths.mp hp
  rw [zoneName, zonePath, zonePath, reverse_reverse,
    canonicalLabels_intercalate (canonical_canonicalLabels d)
      (isWhitespace_canonicalLabels (h d hd))]

theorem minimalPaths_minimalPaths {κ : Type*} (S : Set (List κ)) :
    minimalPaths (minimalPaths S) = minimalPaths S :=
  minimalPaths_eq_of_cover (fun p hp => ⟨p, hp.1, prefix_rfl⟩)
    fun _ hp => exists_minimal_prefix hp

/-- Replaying the names of a matcher gives the same terminals. -/
theorem ends_replay (h : ∀ d ∈ domains, ∀ x ∈ d, isWhitespace x = false) (p : List Str) :
    (Matcher.ofDomains (Matcher.ofDomains domains).artifactNames).root.Ends p ↔
      (Matcher.ofDomains domains).root.Ends p := by
  have hset : {q | q ∈ zonePaths (ofDomains domains).artifactNames} =
      minimalPaths {q | q ∈ zonePaths domains} := by
    ext q
    rw [Set.mem_ofPred_eq, mem_zonePaths]
    constructor
    · rintro ⟨d, hd, rfl, -⟩
      obtain ⟨r, hr, rfl⟩ := mem_map.mp ((artifactNames_perm domains).mem_iff.mp hd)
      rw [mem_minimalZones] at hr
      rwa [zonePath_zoneName h hr.1]
    · intro hq
      refine ⟨zoneName q, ?_, zonePath_zoneName h hq.1, zonePaths_ne_nil q hq.1⟩
      rw [(artifactNames_perm domains).mem_iff]
      exact mem_map_of_mem (mem_minimalZones.mpr hq)
  rw [ends_ofDomains, ends_ofDomains, hset, minimalPaths_minimalPaths]

theorem isBlocked_congr {m n : Matcher} (hm : m.root.terminal = false)
    (hn : n.root.terminal = false) (h : ∀ p, m.root.Ends p ↔ n.root.Ends p) (d : Str) :
    m.isBlocked d = n.isBlocked d := by
  rw [Bool.eq_iff_iff, isBlocked_iff_covers m hm, isBlocked_iff_covers n hn,
    covers_iff _ _ hm, covers_iff _ _ hn]
  simp only [Covered, h]

/-! ### The round trip -/

/-- A canonical name is at most eight times as long as the name it comes from, in
bytes; its length always fits the record's 16 bits. -/
theorem length_zoneName_lt (h : ∀ d ∈ domains, (utf8 d).length ≤ maxNameLen)
    (hp : p ∈ zonePaths domains) : (utf8 (zoneName p)).length < 256 ^ 2 := by
  obtain ⟨d, hd, rfl, -⟩ := mem_zonePaths.mp hp
  have hbytes := h d hd
  have hchars := (length_utf8_bounds d).1
  have hnorm := length_normalize_le d
  have hout := (length_utf8_bounds (normalize d)).2
  rw [zoneName_zonePath]
  rw [maxNameLen] at hbytes
  omega

/-- What the reader rebuilds has no more zones than records were read. -/
theorem count_le_of_readRecords {n : ℕ} {bs : Bytes} {r : Matcher}
    (h : Matcher.readRecords n bs {} = some r) : r.finalize.count ≤ n := by
  obtain ⟨ds, hlen, rfl⟩ := readRecords_eq_some n bs {} r h
  have hcount := count_ofDomains ds
  rw [ofDomains] at hcount
  rw [hcount, ← hlen]
  exact length_minimalZones_le ds

theorem roundTrips_ofDomains_iff (hws : ∀ d ∈ domains, ∀ x ∈ d, isWhitespace x = false)
    (hshort : ∀ d ∈ domains, (utf8 d).length ≤ maxNameLen) :
    RoundTrips (Matcher.ofDomains domains).finalize ↔
      (∀ p ∈ minimalZones domains, (utf8 (zoneName p)).length ≤ maxNameLen) ∧
        (minimalZones domains).length < 256 ^ 4 := by
  have hnames := artifactNames_perm domains
  have hlen : (ofDomains domains).artifactNames.length = (minimalZones domains).length := by
    rw [hnames.length_eq, length_map]
  have hmem : ∀ d ∈ (ofDomains domains).artifactNames,
      ∃ p ∈ minimalZones domains, zoneName p = d :=
    fun d hd => mem_map.mp (hnames.mem_iff.mp hd)
  have hread := fromArtifact_toArtifact (ofDomains domains).finalize
  rw [show (ofDomains domains).finalize.artifactNames =
    (ofDomains domains).artifactNames from rfl] at hread
  rw [RoundTrips, hread]
  constructor
  · rintro ⟨m', hm', hcount, -, -⟩
    rw [count_ofDomains] at hcount
    split at hm'
    · cases hm'
    · next r hr =>
      split at hm'
      · cases hm'
      cases hm'
      -- a count that does not fit its field loses records, and with them zones
      have hfit : (minimalZones domains).length < 256 ^ 4 := by
        have hle := count_le_of_readRecords hr
        omega
      refine ⟨fun p hp => ?_, hfit⟩
      by_contra hlong
      rw [hlen, Nat.mod_eq_of_lt hfit, ← hlen] at hr
      rw [readRecords_flatMap_long _ _ ?_ ⟨zoneName p, ?_, Nat.not_le.mp hlong⟩] at hr
      · cases hr
      · intro d hd
        obtain ⟨q, hq, rfl⟩ := hmem d hd
        exact length_zoneName_lt hshort (mem_minimalZones.mp hq).1
      · exact hnames.mem_iff.mpr (mem_map_of_mem hp)
  · rintro ⟨hnarrow, hfit⟩
    have hbound : ∀ d ∈ (ofDomains domains).artifactNames,
        (utf8 d).length ≤ maxNameLen := by
      intro d hd
      obtain ⟨p, hp, rfl⟩ := hmem d hd
      exact hnarrow p hp
    have hends := ends_replay hws
    obtain ⟨hcount, hfp⟩ := finalize_congr
      (tidy_ofDomains (ofDomains domains).artifactNames) (tidy_ofDomains domains) hends
    rw [hlen, Nat.mod_eq_of_lt hfit, ← hlen, readRecords_flatMap _ _ hbound]
    refine ⟨(ofDomains (ofDomains domains).artifactNames).finalize, ?_, hcount, hfp, ?_⟩
    · exact if_neg (not_not.mpr hfp)
    · exact isBlocked_congr (terminal_root_ofDomains _) (terminal_root_ofDomains _) hends

/-- **The artifact of a compiled text reads back as an equivalent matcher exactly when
every zone that no other zone of the text covers has a canonical name of at most 253
bytes, and there are fewer than 2³² of them.** -/
theorem roundTrips_compileText_iff (text : Str) :
    RoundTrips (compileText text) ↔
      (∀ p ∈ minimalZones (domainsOf (utf8 text)), (utf8 (zoneName p)).length ≤ maxNameLen) ∧
        (minimalZones (domainsOf (utf8 text))).length < 256 ^ 4 := by
  rw [compileText, compileReader_eq]
  exact roundTrips_ofDomains_iff (fun d hd => (domainsOf_spec hd).1)
    fun d hd => (domainsOf_spec hd).2

/-- A label of eighty-four `İ`: two bytes each as written, three in the canonical
name. -/
def dottedCapitals : Str := List.replicate 84 'İ' ++ ['.', 'i', 'o']

theorem not_roundTrips_dottedCapitals : ¬ RoundTrips (compileText dottedCapitals) := by
  have hlong : ((minimalZones (domainsOf (utf8 dottedCapitals))).all fun p =>
      decide ((utf8 (zoneName p)).length ≤ maxNameLen)) = false := by decide +kernel
  rw [compileText, compileReader_eq, roundTrips_ofDomains_iff
    (fun d hd => (domainsOf_spec hd).1) fun d hd => (domainsOf_spec hd).2]
  rintro ⟨h, -⟩
  rw [all_eq_true.mpr fun p hp => decide_eq_true (h p hp)] at hlong
  cases hlong

end Blocklist
end TortaCore
