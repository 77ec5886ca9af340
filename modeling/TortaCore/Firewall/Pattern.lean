import TortaCore.Firewall.Domain
import TortaCore.Text.Glob

/-!
# Domain patterns

The gate every domain rule passes before it is armed (`warden/pattern.rs`): labels of
letters, digits and hyphens with at most two stars each, and none in the last two.  A pattern
is matched label by label, so a star does not reach across a dot.

## Main definitions

* `DomainPattern`, `MalformedPattern`: what the gate returns.
* `globMatch`, `DomainPattern.matchesName`: a label against a label, a name against a pattern.
-/

namespace TortaCore
namespace Firewall

open Machine Text Blocklist List

def maxLabelLen : ℕ := 63

def maxWildcardsPerLabel : ℕ := 2

def minTrailingLiteralLabels : ℕ := 2

inductive MalformedPattern where
  | empty
  | tooLong
  | tooFewLabels
  | emptyLabel
  | labelTooLong
  | badChar (c : Char)
  | leadingOrTrailingHyphen
  | tooManyWildcards
  | overBroad
  | numericTld
  deriving DecidableEq

/-- One label of a pattern, and whether there is a star in it. -/
structure PatternLabel where
  bytes : Bytes
  hasWildcard : Bool
  deriving DecidableEq

/-- A validated pattern, its labels as written. -/
structure DomainPattern where
  labels : List PatternLabel
  deriving DecidableEq

def isDigitByte (b : UInt8) : Bool := 0x30 ≤ b.toNat && b.toNat ≤ 0x39

/-- The number of stars; an error at the first byte that may not be in a label. -/
def countWildcards : Bytes → ℕ → Except MalformedPattern ℕ
  | [], wildcards => .ok wildcards
  | b :: bs, wildcards =>
    if (0x61 ≤ b.toNat && b.toNat ≤ 0x7A) || isDigitByte b || b.toNat = 0x2D then
      countWildcards bs wildcards
    else if b.toNat = 0x2A then countWildcards bs (min (wildcards + 1) 255)
    else .error (.badChar (Char.ofNat b.toNat))

/-- The checks of the label at place `i` of `labelCount`. -/
def validateLabel (labelCount i : ℕ) (label : Str) : Except MalformedPattern PatternLabel := do
  let bytes := utf8 label
  if bytes.isEmpty then throw .emptyLabel
  if bytes.length > maxLabelLen then throw .labelTooLong
  if bytes.head? = some 0x2D ∨ bytes.getLast? = some 0x2D then throw .leadingOrTrailingHyphen
  let wildcards ← countWildcards bytes 0
  if wildcards > maxWildcardsPerLabel then throw .tooManyWildcards
  if i + minTrailingLiteralLabels ≥ labelCount ∧ wildcards > 0 then throw .overBroad
  return ⟨bytes, wildcards > 0⟩

/-- The labels from place `i` on, up to the first that fails. -/
def validateLabels (labelCount : ℕ) : ℕ → List Str → Except MalformedPattern (List PatternLabel)
  | _, [] => .ok []
  | i, label :: rest => do
    let l ← validateLabel labelCount i label
    let ls ← validateLabels labelCount (i + 1) rest
    return l :: ls

/-- `validate_pattern`. -/
def validatePattern (input : Str) : Except MalformedPattern DomainPattern := do
  let canon := normalizeRule input
  if canon.isEmpty then throw .empty
  if (utf8 canon).length > maxRuleNameLen then throw .tooLong
  let rawLabels := canon.splitOn '.'
  if rawLabels.length < 2 then throw .tooFewLabels
  let labels ← validateLabels rawLabels.length 0 rawLabels
  if (utf8 (rawLabels.getLast?.getD [])).all isDigitByte then throw .numericTld
  return ⟨labels⟩

/-! ### Matching -/

/-- The byte of a star. -/
def wildcardByte : UInt8 := 0x2A

/-- `u8::eq_ignore_ascii_case`. -/
def eqIgnoreAsciiCase (a b : UInt8) : Bool := asciiLowerByte a == asciiLowerByte b

theorem eqIgnoreAsciiCase_refl (a : UInt8) : eqIgnoreAsciiCase a a = true := by
  rw [eqIgnoreAsciiCase, beq_self_eq_true]

/-- `glob_match`.  An index into the text or the glob is the rest from there on; the second
loop, over the stars that are left, is the end of `Glob.scan`. -/
def globMatch (text pat : Bytes) : Bool := Glob.scan wildcardByte eqIgnoreAsciiCase text pat

/-- The loop of `matches`: the labels of the name and of the pattern in step. -/
def matchLabels : List Str → List PatternLabel → Bool
  | [], [] => true
  | l :: ls, p :: ps => globMatch (utf8 l) p.bytes && matchLabels ls ps
  | _, _ => false

namespace DomainPattern

/-- `matches`. -/
def matchesName (p : DomainPattern) (name : Str) : Bool :=
  !(stem name).isEmpty && matchLabels (nonEmpty ((stem name).splitOn '.')) p.labels

def hasAnyWildcard (p : DomainPattern) : Bool := p.labels.any PatternLabel.hasWildcard

/-- The pattern as text again. -/
def source (p : DomainPattern) : Str :=
  ['.'].intercalate (p.labels.map fun l => fromUtf8Lossy l.bytes)

end DomainPattern

/-- **`glob_match` decides the glob.**  The text matches when it is, up to ASCII case, the
pattern with some word for each star.  The two loops together take no more turns than the
product of the lengths, each plus one: `k` turns that go on, the one that ends the first loop,
and at most one for each byte of the pattern that is then left. -/
theorem globMatch_spec (text pat : Bytes) :
    (globMatch text pat = true ↔ ∃ word, Glob.Expands wildcardByte pat word ∧
      List.Forall₂ (fun a b => eqIgnoreAsciiCase a b = true) word text) ∧
    ∃ k rest, (∀ fuel, k < fuel →
        loop (Glob.step wildcardByte eqIgnoreAsciiCase) fuel ⟨text, pat, none⟩ = some rest) ∧
      k + 1 + (rest.getD []).length ≤ (text.length + 1) * (pat.length + 1) := by
  exact Glob.scan_spec eqIgnoreAsciiCase_refl text pat

/-! ### What the gate has checked -/

/-- The bytes of a label: small letters, digits, hyphens and stars. -/
def patternByte (b : UInt8) : Bool :=
  (0x61 ≤ b.toNat && b.toNat ≤ 0x7A) || isDigitByte b || b.toNat = 0x2D || b.toNat = 0x2A

theorem countWildcards_eq_ok {bs : Bytes} {n m : ℕ} (h : countWildcards bs n = .ok m) :
    bs.all patternByte = true ∧ (m = 0 ↔ n = 0 ∧ wildcardByte ∉ bs) := by
  induction bs generalizing n with
  | nil =>
    cases h
    simp
  | cons b bs ih =>
    have hstar : b = wildcardByte ↔ b.toNat = 0x2A := UInt8.toNat_inj.symm
    rw [countWildcards] at h
    split at h
    · next hplain =>
      obtain ⟨hall, hzero⟩ := ih h
      have hne : b ≠ wildcardByte := by
        rw [ne_eq, hstar]
        intro hb
        simp [isDigitByte, hb] at hplain
      refine ⟨by simp [patternByte, hplain, hall], ?_⟩
      rw [hzero, mem_cons, not_or]
      exact and_congr_right fun _ => (and_iff_right hne.symm).symm
    · split at h
      · next hb =>
        obtain ⟨hall, hzero⟩ := ih h
        refine ⟨by simp [patternByte, hb, hall], ?_⟩
        rw [hzero, mem_cons, hstar.mpr hb]
        simp
      · cases h

/-- The checks of one label. -/
structure LabelOk (l : PatternLabel) : Prop where
  bytes : l.bytes.all patternByte = true
  wildcard : l.hasWildcard = decide (wildcardByte ∈ l.bytes)

theorem validateLabel_eq (labelCount i : ℕ) (label : Str) :
    validateLabel labelCount i label =
      if (utf8 label).isEmpty then .error .emptyLabel
      else if (utf8 label).length > maxLabelLen then .error .labelTooLong
      else if (utf8 label).head? = some 0x2D ∨ (utf8 label).getLast? = some 0x2D then
        .error .leadingOrTrailingHyphen
      else
        match countWildcards (utf8 label) 0 with
        | .error e => .error e
        | .ok wildcards =>
          if wildcards > maxWildcardsPerLabel then .error .tooManyWildcards
          else if i + minTrailingLiteralLabels ≥ labelCount ∧ wildcards > 0 then .error .overBroad
          else .ok ⟨utf8 label, wildcards > 0⟩ := by
  rw [validateLabel]
  cases countWildcards (utf8 label) 0 with
  | error e => rfl
  | ok wildcards => rfl

theorem validateLabel_eq_ok {labelCount i : ℕ} {label : Str} {l : PatternLabel}
    (h : validateLabel labelCount i label = .ok l) :
    l.bytes = utf8 label ∧ LabelOk l ∧
      (labelCount ≤ i + minTrailingLiteralLabels → wildcardByte ∉ l.bytes) := by
  rw [validateLabel_eq] at h
  split at h
  · cases h
  split at h
  · cases h
  split at h
  · cases h
  split at h
  · cases h
  next wildcards hcount =>
  split at h
  · cases h
  split at h
  · cases h
  next hzone =>
  cases h
  obtain ⟨hall, hzero⟩ := countWildcards_eq_ok hcount
  have hmem : wildcards > 0 ↔ wildcardByte ∈ utf8 label := by
    rw [gt_iff_lt, Nat.pos_iff_ne_zero, ne_eq, hzero]
    simp
  refine ⟨rfl, ⟨hall, decide_eq_decide.mpr hmem⟩, fun hi hstar => ?_⟩
  exact hzone ⟨hi, hmem.mpr hstar⟩

/-- The last two of a list. -/
def lastTwo {α : Type*} (l : List α) : List α := l.drop (l.length - 2)

theorem validateLabels_eq_ok {labelCount : ℕ} {raw : List Str} {i : ℕ} {ls : List PatternLabel}
    (h : validateLabels labelCount i raw = .ok ls) (hcount : labelCount = i + raw.length) :
    ls.map PatternLabel.bytes = raw.map utf8 ∧ (∀ l ∈ ls, LabelOk l) ∧
      ∀ l ∈ lastTwo ls, wildcardByte ∉ l.bytes := by
  induction raw generalizing i ls with
  | nil =>
    cases h
    simp [lastTwo]
  | cons label raw ih =>
    rw [validateLabels] at h
    cases hl : validateLabel labelCount i label with
    | error e => rw [hl] at h; cases h
    | ok l =>
      cases hls : validateLabels labelCount (i + 1) raw with
      | error e => rw [hl, hls] at h; cases h
      | ok ls' =>
        rw [hl, hls] at h
        cases h
        obtain ⟨hbytes, hok, hzone⟩ := validateLabel_eq_ok hl
        obtain ⟨hmap, hall, hlast⟩ := ih hls (by rw [hcount, length_cons]; omega)
        have hlen : ls'.length = raw.length := by
          have := congrArg length hmap
          rwa [length_map, length_map] at this
        refine ⟨by rw [map_cons, map_cons, hbytes, hmap], forall_mem_cons.mpr ⟨hok, hall⟩, ?_⟩
        by_cases hlong : 2 ≤ ls'.length
        · -- the first label is not one of the last two
          have hdrop : lastTwo (l :: ls') = lastTwo ls' := by
            rw [lastTwo, lastTwo, length_cons,
              show ls'.length + 1 - 2 = (ls'.length - 2) + 1 by omega, drop_succ_cons]
          rwa [hdrop]
        · have hdrop : lastTwo (l :: ls') = l :: ls' := by
            rw [lastTwo, length_cons, show ls'.length + 1 - 2 = 0 by omega, drop_zero]
          have hrest : lastTwo ls' = ls' := by
            rw [lastTwo, show ls'.length - 2 = 0 by omega, drop_zero]
          rw [hrest] at hlast
          rw [hdrop]
          refine forall_mem_cons.mpr ⟨hzone ?_, hlast⟩
          rw [hcount, length_cons, minTrailingLiteralLabels]
          omega

theorem validatePattern_eq (input : Str) :
    validatePattern input =
      if (normalizeRule input).isEmpty then .error .empty
      else if (utf8 (normalizeRule input)).length > maxRuleNameLen then .error .tooLong
      else if ((normalizeRule input).splitOn '.').length < 2 then .error .tooFewLabels
      else
        match validateLabels ((normalizeRule input).splitOn '.').length 0
            ((normalizeRule input).splitOn '.') with
        | .error e => .error e
        | .ok labels =>
          if (utf8 (((normalizeRule input).splitOn '.').getLast?.getD [])).all isDigitByte then
            .error .numericTld
          else .ok ⟨labels⟩ := by
  rw [validatePattern]
  generalize normalizeRule input = canon
  generalize canon.splitOn '.' = rawLabels
  dsimp only
  cases validateLabels rawLabels.length 0 rawLabels with
  | error e => rfl
  | ok labels => rfl

/-- What the gate has checked of a rule that passed: its canonical labels, at least two, are
those of the pattern, of the bytes allowed, and without a star in the last two. -/
structure Passed (input : Str) (p : DomainPattern) : Prop where
  name : normalize input ≠ []
  length : (utf8 (normalize input)).length ≤ maxRuleNameLen
  two : 2 ≤ p.labels.length
  labels : p.labels.map PatternLabel.bytes = (canonicalLabels input).map utf8
  ok : ∀ l ∈ p.labels, LabelOk l
  literal : ∀ l ∈ lastTwo p.labels, wildcardByte ∉ l.bytes

theorem validatePattern_spec {input : Str} {p : DomainPattern}
    (h : validatePattern input = .ok p) : Passed input p := by
  rw [validatePattern_eq, normalizeRule] at h
  split at h
  · cases h
  next hname =>
  split at h
  · cases h
  next hlen =>
  split at h
  · cases h
  next htwo =>
  split at h
  · cases h
  next labels hlabels =>
  split at h
  · cases h
  cases h
  have hname : normalize input ≠ [] := by simpa using hname
  obtain ⟨hmap, hok, hlast⟩ := validateLabels_eq_ok hlabels (Nat.zero_add _).symm
  rw [splitOn_normalize hname] at hmap htwo
  have hcount := congrArg length hmap
  rw [length_map, length_map] at hcount
  exact ⟨hname, Nat.le_of_not_lt hlen, by dsimp only; omega, hmap, hok, hlast⟩

/-! ### The zone of a rule -/

/-- The labels of a name, as `matches` and the trie read it. -/
def nameLabels (name : Str) : List Str := nonEmpty ((stem name).splitOn '.')

theorem matchLabels_iff {ls : List Str} {ps : List PatternLabel} :
    matchLabels ls ps = true ↔
    List.Forall₂ (fun l p => globMatch (utf8 l) p.bytes = true) ls ps := by
  induction ls generalizing ps with
  | nil => cases ps <;> simp [matchLabels]
  | cons l ls ih => cases ps <;> simp [matchLabels, ih]

theorem globMatch_of_notMem {text pat : Bytes} (hpat : wildcardByte ∉ pat) :
    globMatch text pat = true ↔
      List.Forall₂ (fun a b => eqIgnoreAsciiCase a b = true) pat text := by
  rw [← Glob.denotes_of_notMem hpat, globMatch, (Glob.scan_spec eqIgnoreAsciiCase_refl text pat).1]

theorem forall₂_lastTwo {α β : Type*} {R : α → β → Prop} {l : List α} {m : List β}
    (h : List.Forall₂ R l m) : List.Forall₂ R (lastTwo l) (lastTwo m) := by
  rw [lastTwo, lastTwo, h.length_eq]
  exact forall₂_drop _ h

/-- The last two labels survive in every longer list with these at its end. -/
theorem lastTwo_of_suffix {α : Type*} {l m : List α} (h : l <:+ m) (htwo : 2 ≤ l.length) :
    lastTwo m = lastTwo l := by
  obtain ⟨u, rfl⟩ := h
  rw [lastTwo, lastTwo, length_append,
    show u.length + l.length - 2 = u.length + (l.length - 2) by omega, drop_append]
  simp

namespace Passed

variable {input : Str} {p : DomainPattern} (h : Passed input p)

include h

theorem length_canonicalLabels : (canonicalLabels input).length = p.labels.length := by
  have hcount := congrArg List.length h.labels
  rw [List.length_map, List.length_map] at hcount
  exact hcount.symm

/-- The characters of its canonical labels are written with the bytes allowed. -/
theorem patternBytes {l : Str} (hl : l ∈ canonicalLabels input) {x : Char} (hx : x ∈ l) :
    (String.utf8EncodeChar x).all patternByte = true := by
  have hmem : utf8 l ∈ p.labels.map PatternLabel.bytes := by
    rw [h.labels]
    exact mem_map_of_mem hl
  obtain ⟨pl, hpl, heq⟩ := mem_map.mp hmem
  have hall := (h.ok pl hpl).bytes
  rw [heq] at hall
  exact all_eq_true.mpr fun b hb =>
    all_eq_true.mp hall b (mem_flatMap.mpr ⟨x, hx, hb⟩)

/-- A rule that passed has no capital sigma: its small forms are not in the bytes allowed. -/
theorem sigma_notMem : 'Σ' ∉ stem input := by
  intro hsigma
  have hbytes : ∀ x, x ≠ '.' → x ∈ toLowercase (stem input) →
      (String.utf8EncodeChar x).all patternByte = true := by
    intro x hdot hx
    obtain ⟨l, hl, hxl⟩ := exists_mem_splitOn hx hdot
    rw [← canonicalLabels_eq] at hl
    exact h.patternBytes hl hxl
  obtain hx | hx := sigma_mem_lowerIn (b := []) (a := []) hsigma
  · exact absurd (hbytes _ (by decide) hx) (by decide +kernel)
  · exact absurd (hbytes _ (by decide) hx) (by decide +kernel)

/-- Nor has it white space inside its labels. -/
theorem isWhitespace_eq_false : ∀ l ∈ canonicalLabels input, ∀ x ∈ l, isWhitespace x = false := by
  intro l hl x hx
  have hascii : ∀ b, patternByte b = true → b.toNat < 0x80 := by
    intro b hb
    simp only [patternByte, isDigitByte, Bool.or_eq_true, Bool.and_eq_true, decide_eq_true_eq] at hb
    omega
  have hfacts : ∀ c : Char, c.toNat < 0x80 → patternByte (UInt8.ofNat c.toNat) = true →
      isWhitespace c = false := forall_ascii (by decide +kernel)
  obtain ⟨hlt, hbyte⟩ := toNat_eq_of_head_ascii (h.patternBytes hl hx) hascii
  exact hfacts x hlt hbyte

/-- So its canonical labels are its own, each in lower case. -/
theorem canonicalLabels_eq_map : canonicalLabels input = (nameLabels input).map toLowercase := by
  rw [canonicalLabels_eq, nameLabels, nonEmpty_map_toLowercase]
  exact (nonEmpty_lowerLabels_eq_iff _).mpr (sigmaLocal_of_notMem h.sigma_notMem)

/-- And its canonical name is canonical. -/
theorem normalize_normalize : normalize (normalize input) = normalize input := by
  have hname : ∀ d, normalize d = ['.'].intercalate (canonicalLabels d) := by
    intro d
    rw [canonicalLabels_eq, Blocklist.normalize]
  have hlabels : canonicalLabels (normalize input) = canonicalLabels input := by
    rw [hname input]
    exact canonicalLabels_intercalate (canonical_canonicalLabels input) h.isWhitespace_eq_false
  rw [hname (normalize input), hlabels, ← hname]

/-- A pattern written out is the canonical name it was made of. -/
theorem source_eq : p.source = normalize input := by
  have hlabels : p.labels.map (fun l => fromUtf8Lossy l.bytes) = canonicalLabels input := by
    have hdecode := congrArg (map fromUtf8Lossy) h.labels
    rw [map_map, map_map] at hdecode
    refine hdecode.trans ((map_congr_left fun l _ => ?_).trans (map_id _))
    exact fromUtf8Lossy_utf8 l
  rw [DomainPattern.source, hlabels, canonicalLabels_eq, Blocklist.normalize]

end Passed

/-- A pattern that is written out passes the gate as itself. -/
theorem validatePattern_source {input : Str} {p : DomainPattern}
    (h : validatePattern input = .ok p) : validatePattern p.source = .ok p := by
  have hpassed := validatePattern_spec h
  have hname : normalizeRule p.source = normalizeRule input := by
    rw [normalizeRule, normalizeRule, hpassed.source_eq, hpassed.normalize_normalize]
  rw [← h, validatePattern_eq, validatePattern_eq, hname]

theorem walkLabels_eq_reverse (name : Str) :
    walkLabels name = ((nameLabels name).map toLowercase).reverse := by
  rw [walkLabels_eq, nameLabels, nonEmpty_map_toLowercase]

/-- **No rule that passes the gate reaches beyond one zone of two labels.**  A name that a
pattern matches has as many labels as the pattern, and its last two up to ASCII case; a name
that a set of accepted plain rules matches, for any app, has the last two labels of one of
these rules up to case. -/
theorem validatePattern_zone :
    (∀ input p name, validatePattern input = .ok p → p.matchesName name = true →
      (nameLabels name).length = p.labels.length ∧ 2 ≤ p.labels.length ∧
        List.Forall₂ (fun l pl => List.Forall₂ (fun a b => eqIgnoreAsciiCase a b = true)
          pl.bytes (utf8 l)) (lastTwo (nameLabels name)) (lastTwo p.labels)) ∧
    ∀ rules uid name,
      (∀ r ∈ rules, ∃ p, validatePattern r.domain = .ok p ∧ p.hasAnyWildcard = false) →
      (DomainRuleSet.ofRules rules).matchesFor uid name = true →
      ∃ r ∈ rules, 2 ≤ (nameLabels r.domain).length ∧
        (lastTwo (nameLabels name)).map toLowercase =
          (lastTwo (nameLabels r.domain)).map toLowercase := by
  constructor
  · intro input p name hvalid hmatch
    have hpassed := validatePattern_spec hvalid
    rw [DomainPattern.matchesName, Bool.and_eq_true] at hmatch
    have hlabels := matchLabels_iff.mp hmatch.2
    refine ⟨hlabels.length_eq, hpassed.two, ?_⟩
    have hliteral := (forall₂_and_left _ _).mpr ⟨hpassed.literal, (forall₂_lastTwo hlabels).flip⟩
    exact (hliteral.imp fun pl l h => (globMatch_of_notMem h.1).mp h.2).flip
  · intro rules uid name haccepted hmatch
    have happ : ∀ uid, (DomainRuleSet.ofRules rules).matchesApp uid name = true →
        ∃ r ∈ rules, 2 ≤ (nameLabels r.domain).length ∧
          (lastTwo (nameLabels name)).map toLowercase =
            (lastTwo (nameLabels r.domain)).map toLowercase := by
      intro uid happ
      obtain ⟨r, hr, -, -, hpre⟩ := (DomainRuleSet.matchesApp_ofRules rules uid name).mp happ
      obtain ⟨p, hvalid, -⟩ := haccepted r hr
      have hpassed := validatePattern_spec hvalid
      have htwo : 2 ≤ ((nameLabels r.domain).map toLowercase).length := by
        rw [← hpassed.canonicalLabels_eq_map, hpassed.length_canonicalLabels]
        exact hpassed.two
      rw [zonePath, walkLabels_eq_reverse, hpassed.canonicalLabels_eq_map, reverse_prefix] at hpre
      have hlast := lastTwo_of_suffix hpre htwo
      refine ⟨r, hr, by rwa [length_map] at htwo, ?_⟩
      rwa [lastTwo, lastTwo, length_map, length_map, ← map_drop, ← map_drop] at hlast
    rw [DomainRuleSet.matchesFor, Bool.or_eq_true, Bool.and_eq_true] at hmatch
    obtain happ' | ⟨-, huniv⟩ := hmatch
    · exact happ uid happ'
    · exact happ uidUniversal huniv

/-- The pattern `*.Ads.example` and the plain rule `ads.example`, on a name in their zone. -/
theorem validatePattern_zone_ads :
    (∃ p, validatePattern "*.Ads.example".toList = .ok p ∧
      p.matchesName "x.ADS.example.".toList = true ∧
      (nameLabels "x.ADS.example.".toList).length = p.labels.length) ∧
    ∃ r ∈ [(⟨"Ads.example".toList, uidUniversal, true⟩ : DomainRule)],
      (lastTwo (nameLabels "x.ADS.example.".toList)).map toLowercase =
        (lastTwo (nameLabels r.domain)).map toLowercase := by
  constructor
  · obtain ⟨p, hvalid, hmatch⟩ : ∃ p, validatePattern "*.Ads.example".toList = .ok p ∧
        p.matchesName "x.ADS.example.".toList = true :=
      ⟨⟨[⟨utf8 ['*'], true⟩, ⟨utf8 "ads".toList, false⟩, ⟨utf8 "example".toList, false⟩]⟩,
        by decide +kernel, by decide +kernel⟩
    exact ⟨p, hvalid, hmatch, (validatePattern_zone.1 _ p _ hvalid hmatch).1⟩
  · obtain ⟨r, hr, -, heq⟩ := validatePattern_zone.2
      [⟨"Ads.example".toList, uidUniversal, true⟩] 10001 "x.ADS.example.".toList
      (fun r hr => by
        obtain rfl := mem_singleton.mp hr
        exact ⟨⟨[⟨utf8 "ads".toList, false⟩, ⟨utf8 "example".toList, false⟩]⟩,
          by decide +kernel, by decide +kernel⟩)
      (by decide +kernel)
    exact ⟨r, hr, heq⟩

end Firewall
end TortaCore
