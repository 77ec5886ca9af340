import TortaCore.Blocklist.Arming
import TortaCore.Mirror.Localcdn
import TortaCore.Text.Ledger

/-!
# The trust crown

Before a list is armed, `blocklist/github.rs` measures how many of its entries would block a host
of the CDN table.  The crown reads the text with a parser of its own: no adblock wrappers and no
wildcards, five sink addresses, and a strict host name.  What it measures is turned into a
penalty by two integer divisions, and a penalty of zero is presented as "zero CDN collateral".

A list is presented so although it breaks a covered host in two ways: the crown does not read a
line that the compiler reads, or it reads it and the division loses it.

The ratio of the record, a float for display, is left out.

## Main definitions

* `readEntry`, `parseEntries`: the parser of the crown.
* `collides`, `computeScore`, `investigateCore`: what it measures.
-/

namespace TortaCore
namespace Blocklist

open Text Mirror List Bool

def scoreFull : ℤ := 100

def cdnWeight : ℤ := 80

def lowEntriesFloor : ℕ := 50

def lowEntriesPenalty : ℤ := 8

def staleAfterDays : ℕ := 90

def staleSpanDays : ℕ := 365

def staleMaxPenalty : ℤ := 8

def curatedBonus : ℤ := 6

def signedBonus : ℤ := 4

def safeFloor : ℤ := 80

def cautionFloor : ℤ := 50

def maxEntries : ℕ := 200000

def maxSampleHits : ℕ := 32

def u32Max : ℕ := 4294967295

inductive SafetyBand where
  | safe
  | caution
  | risky
  deriving DecidableEq

inductive ReasonKind where
  | cdnOverlap
  | lowEntries
  | staleFetch
  | malformed
  | goodCoverage
  | curatedSeed
  | signedSource
  deriving DecidableEq

structure TrustReason where
  kind : ReasonKind
  delta : ℤ
  detail : Str
  deriving DecidableEq

structure BlocklistHit where
  entry : Str
  cdnHost : Str
  library : Str
  deriving DecidableEq

structure SourceHints where
  signed : Bool
  curated : Bool
  ageDays : ℕ
  fetchedAtMs : ℕ

structure SourceSafety where
  sourceId : UInt32
  name : Str
  url : Str
  trustScore : ℤ
  band : SafetyBand
  entryCount : ℕ
  validEntryCount : ℕ
  malformedCount : ℕ
  cdnOverlap : ℕ
  hits : List BlocklistHit
  reasons : List TrustReason
  signed : Bool
  curated : Bool
  armed : Bool
  fetchedAtMs : ℕ

/-! ### The parser of the crown -/

def sinkholes : List Str :=
  ["0.0.0.0".toList, "127.0.0.1".toList, "::".toList, "::1".toList, "255.255.255.255".toList,
    "0.0.0.0:0".toList]

/-- `strip_suffix('.').unwrap_or(host)`. -/
def stripRootDot (host : Str) : Str := if host.getLast? = some '.' then host.dropLast else host

def extractHost (line : Str) : Option Str :=
  match splitWhitespace line with
  | [] => none
  | first :: rest =>
    if sinkholes.contains first then rest.head?.map stripRootDot else some (stripRootDot first)

/-- `is_ascii_alphanumeric`. -/
def isAsciiAlphanumeric (b : UInt8) : Bool :=
  isAsciiDigit b || (0x41 ≤ b.toNat && b.toNat ≤ 0x5A) || (0x61 ≤ b.toNat && b.toNat ≤ 0x7A)

def hyphen : UInt8 := 0x2D

def validateLabel (label : Str) : Bool :=
  let lb := utf8 label
  !lb.isEmpty && lb.length ≤ 63 && lb.head? != some hyphen && lb.getLast? != some hyphen &&
    lb.all fun c => isAsciiAlphanumeric c || c == hyphen

def validateHost (h : Str) : Bool :=
  !h.isEmpty && (utf8 h).length ≤ 253 && 2 ≤ (h.splitOn '.').length &&
    (h.splitOn '.').all validateLabel &&
    !(utf8 ((h.splitOn '.').getLast?.getD [])).all isAsciiDigit

/-- What the crown makes of a line. -/
inductive Entry where
  | skip
  | malformed
  | host (h : Str)
  deriving DecidableEq

def readEntry (rawLine : Str) : Entry :=
  let line := trim rawLine
  if line.isEmpty || line.head? == some '#' || line.head? == some '!' then .skip
  else
    let line := if line.contains '#' then trim (beforeComment line) else line
    if line.isEmpty then .skip
    else
      match extractHost line with
      | some hostTok =>
        let host := hostTok.map asciiLower
        if validateHost host then .host host else .malformed
      | none => .malformed

/-- The loop of `parse_entries`: it stops at the bound, which a skipped line does not test. -/
def entriesLoop : List Str → List Str × ℕ → List Str × ℕ
  | [], acc => acc
  | rawLine :: rest, acc =>
    match readEntry rawLine with
    | .skip => entriesLoop rest acc
    | .malformed =>
      let acc := (acc.1, min (acc.2 + 1) u32Max)
      if maxEntries ≤ acc.1.length then acc else entriesLoop rest acc
    | .host h =>
      let acc := (if acc.1.contains h then acc.1 else acc.1 ++ [h], acc.2)
      if maxEntries ≤ acc.1.length then acc else entriesLoop rest acc

/-- The distinct valid hosts of a list, and how many entries were rejected. -/
def parseEntries (raw : Bytes) : List Str × ℕ := entriesLoop (lines (fromUtf8Lossy raw)) ([], 0)

/-! ### What it measures -/

variable (maps : List ResourceMap)

/-- The hosts of the table with their first library. -/
def cdnCorpus : List (Str × Str) :=
  maps.foldl (fun out m => if out.any (fun e => e.1 == m.host) then out
    else out ++ [(m.host, m.library)]) []

/-- The entry is the host, or a parent of it: `host` ends with `.entry`. -/
def overBlocks (entry host : Str) : Bool :=
  let eb := utf8 entry
  let hb := utf8 host
  host == entry ||
    (hb.length > eb.length + 1 && eb.isSuffixOf hb && hb[hb.length - eb.length - 1]? == some 0x2E)

def collides (entry : Str) : Option (Str × Str) :=
  (cdnCorpus maps).find? fun e => overBlocks entry e.1

def overlapPermille (overlap total : ℕ) : ℕ :=
  if total = 0 then 0 else min (overlap * 1000 / total) 1000

def stalePenalty (ageDays : ℕ) : ℤ :=
  if ageDays ≤ staleAfterDays then 0
  else min (ageDays - staleAfterDays) staleSpanDays * staleMaxPenalty / staleSpanDays

/-- A signal counts: its points are added, and it is told. -/
def signal (fires : Prop) [Decidable fires] (reason : TrustReason) (acc : ℤ × List TrustReason) :
    ℤ × List TrustReason :=
  if fires then (acc.1 + reason.delta, acc.2 ++ [reason]) else acc

/-- The score and its decomposition. -/
def computeScore (valid overlap malformed : ℕ) (hints : SourceHints) : ℤ × List TrustReason :=
  let permille := overlapPermille overlap valid
  let cdnPen := permille * cdnWeight / 1000
  let stale := stalePenalty hints.ageDays
  let acc : ℤ × List TrustReason :=
    if 0 < cdnPen then
      (scoreFull - cdnPen,
        [⟨.cdnOverlap, -min cdnPen 32767,
          decimal overlap ++ '/' :: decimal valid ++
            " entries collide with known CDN hosts (".toList ++ decimal (permille / 10) ++
            '.' :: decimal (permille % 10) ++ "% over-block)".toList⟩])
    else
      (scoreFull, [⟨.goodCoverage, 0,
        "zero CDN collateral across ".toList ++ decimal valid ++ " entries".toList⟩])
  let acc := signal (valid < lowEntriesFloor) ⟨.lowEntries, -lowEntriesPenalty,
    "only ".toList ++ decimal valid ++ " valid entries (< ".toList ++ decimal lowEntriesFloor ++
      [')']⟩ acc
  let acc := signal (0 < stale) ⟨.staleFetch, -stale,
    "list is ".toList ++ decimal hints.ageDays ++ " days old".toList⟩ acc
  let acc := signal (0 < malformed) ⟨.malformed, 0,
    decimal malformed ++ " entries rejected by the RFC-1123 validator".toList⟩ acc
  let acc := signal hints.curated ⟨.curatedSeed, curatedBonus,
    "RethinkDNS curated-seed list".toList⟩ acc
  let acc := signal hints.signed ⟨.signedSource, signedBonus,
    "minisign-verified source".toList⟩ acc
  (max 0 (min acc.1 scoreFull), acc.2)

def bandFor (score : ℤ) : SafetyBand :=
  if safeFloor ≤ score then .safe else if cautionFloor ≤ score then .caution else .risky

/-- FNV-1a, 32 bit. -/
def fnv1a32 (s : Str) : UInt32 :=
  (utf8 s).foldl (fun h b => (h ^^^ b.toUInt32) * 0x01000193) 0x811c9dc5

/-- The collisions of the entries: how many, and a sample. -/
def measure (entries : List Str) : ℕ × List BlocklistHit :=
  entries.foldl (fun acc e =>
    match collides maps e with
    | some (cdnHost, library) =>
      (acc.1 + 1, if acc.2.length < maxSampleHits then acc.2 ++ [⟨e, cdnHost, library⟩] else acc.2)
    | none => acc) (0, [])

def investigateCore (name url : Str) (raw : Bytes) (hints : SourceHints) : SourceSafety :=
  let (entries, malformed) := parseEntries raw
  let valid := entries.length
  let (overlap, hits) := measure maps entries
  let (score, reasons) := computeScore valid overlap malformed hints
  { sourceId := fnv1a32 url
    name := name
    url := url
    trustScore := score
    band := bandFor score
    entryCount := min (valid + malformed) u32Max
    validEntryCount := valid
    malformedCount := malformed
    cdnOverlap := overlap
    hits := hits
    reasons := reasons
    signed := hints.signed
    curated := hints.curated
    armed := false
    fetchedAtMs := hints.fetchedAtMs }

/-! ### When it tells the collateral -/

/-- The host that the crown takes from a line: behind the rules for comments, the token of
`extract_host`, if `validate_host` accepts it in lower case. -/
def crownHost (line : Str) : Option Str :=
  if (trim line).head? = some '!' then none
  else ((extractHost (trim (beforeComment (trim line)))).map (·.map asciiLower)).filter validateHost

/-- The hosts of the lines, each once, up to the bound. -/
def crownHosts (text : Str) : List Str :=
  ((lines text).filterMap crownHost).eraseDups.take maxEntries

/-- The entry would block a host of the table. -/
def Collateral (entry : Str) : Prop := ∃ e ∈ cdnCorpus maps, overBlocks entry e.1 = true

instance (entry : Str) : Decidable (Collateral maps entry) :=
  inferInstanceAs (Decidable (∃ e ∈ cdnCorpus maps, overBlocks entry e.1 = true))

theorem beforeComment_eq_self {s : Str} (h : s.contains '#' = false) : beforeComment s = s := by
  refine takeWhile_eq_self_iff.mpr fun c hc => ?_
  rw [bne_iff_ne]
  rintro rfl
  exact Bool.false_ne_true (h.symm.trans (contains_iff_mem.mpr hc))

/-- A token counts as the host it is in lower case, and is rejected if it is none. -/
theorem token_eq_host_iff {s h : Str} : (match extractHost s with
      | some hostTok =>
        if validateHost (hostTok.map asciiLower) then Entry.host (hostTok.map asciiLower)
        else .malformed
      | none => .malformed) = .host h ↔
    ((extractHost s).map (·.map asciiLower)).filter validateHost = some h := by
  cases extractHost s with
  | none => simp
  | some tok =>
    dsimp only [Option.map_some, Option.filter_some]
    split <;> simp

/-- A line counts as the host it has, and is skipped or rejected without one. -/
theorem readEntry_eq_host_iff {line h : Str} :
    readEntry line = .host h ↔ crownHost line = some h := by
  have hnil : extractHost [] = none := rfl
  simp only [readEntry, crownHost]
  by_cases hbang : (trim line).head? = some '!'
  · simp [hbang]
  rw [if_neg hbang]
  by_cases hhash : (trim line).contains '#' = true
  · rw [hhash, if_pos rfl]
    by_cases hempty : trim (beforeComment (trim line)) = []
    · simp [hempty, hnil]
    · have hhead : (trim line).head? ≠ some '#' := fun hhead => by
        obtain ⟨rest, hrest⟩ := head?_eq_some_iff.mp hhead
        exact hempty (by rw [hrest]; rfl)
      have hline : trim line ≠ [] := fun hline => by simp [hline] at hhash
      simp only [isEmpty_eq_false_iff.mpr hempty, isEmpty_eq_false_iff.mpr hline,
        beq_eq_false_iff_ne.mpr hhead, beq_eq_false_iff_ne.mpr hbang, Bool.or_false,
        Bool.false_eq_true, if_false]
      exact token_eq_host_iff
  · have hno := Bool.eq_false_iff.mpr hhash
    rw [if_neg hhash, beforeComment_eq_self hno, trim_trim]
    by_cases hline : trim line = []
    · simp [hline, hnil]
    · have hhead : (trim line).head? ≠ some '#' := fun hhead =>
        hhash (contains_iff_mem.mpr (mem_of_mem_head? hhead))
      simp only [isEmpty_eq_false_iff.mpr hline, beq_eq_false_iff_ne.mpr hhead,
        beq_eq_false_iff_ne.mpr hbang, Bool.or_false, Bool.false_eq_true, if_false]
      exact token_eq_host_iff

/-- The loop adds the hosts it does not have, up to the bound. -/
theorem fst_entriesLoop {ls : List Str} : ∀ {out : List Str} (m : ℕ), out.length < maxEntries →
    (entriesLoop ls (out, m)).1 = out ++ (((ls.filterMap crownHost).filter
      (!out.contains ·)).eraseDups).take (maxEntries - out.length) := by
  induction ls with
  | nil => intro out m _; simp [entriesLoop]
  | cons line ls ih =>
    intro out m hout
    rw [entriesLoop]
    have hnone : (∀ h, readEntry line ≠ .host h) → crownHost line = none := fun hne =>
      Option.eq_none_iff_forall_ne_some.mpr fun h heq => hne h (readEntry_eq_host_iff.mpr heq)
    cases hread : readEntry line with
    | skip =>
      rw [filterMap_cons_none (hnone (by simp [hread]))]
      exact ih m hout
    | malformed =>
      rw [filterMap_cons_none (hnone (by simp [hread])), if_neg (Nat.not_le.mpr hout)]
      exact ih _ hout
    | host h =>
      rw [filterMap_cons_some (readEntry_eq_host_iff.mp hread)]
      dsimp only
      by_cases hin : out.contains h = true
      · rw [if_pos hin, if_neg (Nat.not_le.mpr hout), filter_cons_of_neg (by simpa using hin)]
        exact ih m hout
      · have hroom : maxEntries - out.length = maxEntries - (out ++ [h]).length + 1 := by
          rw [length_append, length_singleton]
          omega
        rw [if_neg hin, filter_cons_of_pos (by simpa using hin), eraseDups_cons, hroom,
          take_succ_cons, append_cons out h (take _ _)]
        split
        · next hfull => rw [Nat.sub_eq_zero_of_le hfull, take_zero, append_nil]
        · next hfree =>
          rw [ih m (Nat.not_le.mp hfree), filter_filter]
          congr 4
          funext x
          rw [Bool.eq_iff_iff]
          simp [And.comm]

theorem fst_parseEntries (text : Str) : (parseEntries (utf8 text)).1 = crownHosts text := by
  rw [parseEntries, fromUtf8Lossy_utf8, fst_entriesLoop 0 (by decide), crownHosts]
  simp

/-- How many entries collide. -/
def collisions (entries : List Str) : ℕ := entries.countP fun e => (collides maps e).isSome

theorem collisions_eq (entries : List Str) :
    collisions maps entries = entries.countP fun h => Collateral maps h := by
  refine countP_congr fun h _ => ?_
  rw [collides, find?_isSome, decide_eq_true_iff]
  rfl

theorem fst_measure (entries : List Str) : (measure maps entries).1 = collisions maps entries := by
  rw [measure, ← Nat.zero_add (collisions maps entries)]
  change _ = ((0, []) : ℕ × List BlocklistHit).1 + _
  generalize ((0, []) : ℕ × List BlocklistHit) = acc
  induction entries generalizing acc with
  | nil => rfl
  | cons e es ih =>
    rw [foldl_cons, ih, collisions, collisions, countP_cons]
    cases collides maps e with
    | none => rfl
    | some hit =>
      change acc.1 + 1 + _ = acc.1 + (_ + 1)
      omega

/-- The reasons hold one of this kind. -/
def Tells (kind : ReasonKind) (reasons : List TrustReason) : Prop := ∃ r ∈ reasons, r.kind = kind

instance (kind : ReasonKind) (reasons : List TrustReason) : Decidable (Tells kind reasons) :=
  inferInstanceAs (Decidable (∃ r ∈ reasons, r.kind = kind))

theorem tells_signal {kind : ReasonKind} {fires : Prop} [Decidable fires] {reason : TrustReason}
    (h : reason.kind ≠ kind) (acc : ℤ × List TrustReason) :
    Tells kind (signal fires reason acc).2 ↔ Tells kind acc.2 := by
  rw [signal]
  split
  · simp [Tells, h]
  · rfl

/-- The crown speaks of zero collateral exactly if its penalty is zero. -/
theorem tells_goodCoverage_iff (valid overlap malformed : ℕ) (hints : SourceHints) :
    Tells .goodCoverage (computeScore valid overlap malformed hints).2 ↔
      overlapPermille overlap valid < 13 := by
  have hpen : 0 < (overlapPermille overlap valid : ℤ) * cdnWeight / 1000 ↔
      13 ≤ overlapPermille overlap valid := by
    rw [cdnWeight]
    omega
  simp only [computeScore]
  rw [tells_signal (by simp), tells_signal (by simp), tells_signal (by simp),
    tells_signal (by simp), tells_signal (by simp)]
  by_cases h : 13 ≤ overlapPermille overlap valid
  · rw [if_pos (hpen.mpr h)]
    simp [Tells, h]
  · rw [if_neg (fun hpos => h (hpen.mp hpos))]
    simpa [Tells] using h

theorem overlapPermille_lt_iff {overlap total : ℕ} (htotal : total ≠ 0) :
    overlapPermille overlap total < 13 ↔ overlap * 1000 < 13 * total := by
  rw [overlapPermille, if_neg htotal, min_lt_iff]
  constructor
  · rintro (h | h)
    · exact (Nat.div_lt_iff_lt_mul (Nat.pos_of_ne_zero htotal)).mp h
    · exact absurd h (by decide)
  · exact fun h => .inl ((Nat.div_lt_iff_lt_mul (Nat.pos_of_ne_zero htotal)).mpr h)

/-- A line of the text hands the compiler a zone of a host of the table. -/
def Covers (text : Str) : Prop :=
  ∃ line ∈ text.splitOn '\n', ∃ d, textDomain line = some d ∧ canonicalLabels d ≠ [] ∧
    ∃ e ∈ cdnCorpus maps, zonePath d <+: walkLabels e.1

theorem exists_isBlocked_iff (text : Str) :
    (∃ e ∈ cdnCorpus maps, (compileText text).isBlocked e.1 = true) ↔ Covers maps text := by
  simp only [compileText, compileReader_eq, isBlocked_finalize, isBlocked_ofDomains,
    domainsOf_utf8, mem_filterMap, Covers]
  constructor
  · rintro ⟨e, he, d, ⟨line, hline, hd⟩, hne, hpre⟩
    exact ⟨line, hline, d, hd, hne, e, he, hpre⟩
  · rintro ⟨line, hline, d, hd, hne, e, he, hpre⟩
    exact ⟨e, he, d, ⟨line, hline, hd⟩, hne, hpre⟩

/-- The crown takes a host from a line, within its bound, that blocks a host of the table, and at
least 13 in 1000 of the hosts it takes do. -/
def CrownSees (text : Str) : Prop :=
  (∃ line ∈ lines text, ∃ h ∈ crownHosts text, crownHost line = some h ∧ Collateral maps h) ∧
    13 * (crownHosts text).length ≤ 1000 * (crownHosts text).countP fun h => Collateral maps h

theorem exists_line_iff (text : Str) :
    (∃ line ∈ lines text, ∃ h ∈ crownHosts text, crownHost line = some h ∧ Collateral maps h) ↔
      1 ≤ collisions maps (crownHosts text) := by
  rw [collisions_eq, Nat.one_le_iff_ne_zero, ← Nat.pos_iff_ne_zero, countP_pos_iff]
  constructor
  · rintro ⟨line, -, h, hh, -, hcoll⟩
    exact ⟨h, hh, decide_eq_true hcoll⟩
  · rintro ⟨h, hh, hcoll⟩
    obtain ⟨line, hline, hhost⟩ := mem_filterMap.mp (mem_eraseDups.mp (mem_of_mem_take hh))
    exact ⟨line, hline, h, hh, hhost, of_decide_eq_true hcoll⟩

/-- **When the crown tells the collateral of the list that will be installed.**  If the compiled
list blocks a host of the table, the crown counts a collision and does not speak of zero
collateral: this is so exactly if, when a line hands the compiler a zone of such a host, the crown
takes a host from a line that blocks one, and enough of them. -/
theorem crown_judges_iff (name url text : Str) (hints : SourceHints) :
    ((∃ e ∈ cdnCorpus maps, (compileText text).isBlocked e.1 = true) →
      let safety := investigateCore maps name url (utf8 text) hints
      1 ≤ safety.cdnOverlap ∧ ¬Tells .goodCoverage safety.reasons) ↔
    (Covers maps text → CrownSees maps text) := by
  rw [exists_isBlocked_iff, CrownSees, exists_line_iff, ← collisions_eq]
  refine imp_congr_right fun _ => ?_
  simp only [investigateCore, fst_measure, tells_goodCoverage_iff, fst_parseEntries]
  refine and_congr_right fun hpos => ?_
  have hne : (crownHosts text).length ≠ 0 := by
    have hle : collisions maps (crownHosts text) ≤ (crownHosts text).length := countP_le_length
    omega
  rw [overlapPermille_lt_iff hne]
  omega

/-- One row of the table. -/
def cdnjs : List ResourceMap :=
  [⟨"cdnjs.cloudflare.com".toList, "/ajax/libs/jquery/".toList, "jquery".toList, ["3.6.0".toList]⟩]

/-- An adblock rule for the host is not read by the crown; and a host that is counted, among 76
other entries, is zero collateral. -/
theorem crown_misses_a_wrapped_host :
    (let text := "||cdnjs.cloudflare.com^\n".toList
      let safety := investigateCore cdnjs [] [] (utf8 text) ⟨false, false, 0, 0⟩
      (compileText text).isBlocked "cdnjs.cloudflare.com".toList = true ∧ safety.cdnOverlap = 0 ∧
        Tells .goodCoverage safety.reasons) ∧
      Tells .goodCoverage (computeScore 77 1 0 ⟨false, false, 0, 0⟩).2 := by
  decide +kernel

/-! ### Plain lines -/

/-- A character of a plain host name: a letter, a digit, a hyphen or a dot. -/
def hostChar (c : Char) : Bool :=
  c.toNat < 0x80 && (isAsciiAlphanumeric (UInt8.ofNat c.toNat) || c == '-' || c == '.')

/-- The line is a valid host name, in any case. -/
def Plain (line : Str) : Prop := validateHost (line.map asciiLower) = true

instance (line : Str) : Decidable (Plain line) := inferInstanceAs (Decidable (_ = _))

/-- A text whose bytes pass a test for ASCII bytes is made of such characters. -/
theorem ascii_of_all {P : UInt8 → Bool} (hP : ∀ b, P b = true → b.toNat < 0x80) {s : Str}
    (h : (utf8 s).all P = true) {c : Char} (hc : c ∈ s) :
    c.toNat < 0x80 ∧ P (UInt8.ofNat c.toNat) = true := by
  refine toNat_eq_of_head_ascii ?_ hP
  rw [all_eq_true] at h ⊢
  exact fun b hb => h b (mem_flatMap.mpr ⟨c, hc, hb⟩)

theorem hostChar_of_mem_label {label : Str} (h : validateLabel label = true) :
    ∀ c ∈ label, hostChar c = true := by
  intro c hc
  simp only [validateLabel, and_eq_true] at h
  obtain ⟨hlt, hbyte⟩ := ascii_of_all (Wire.forall_byte (by decide +kernel)) h.2 hc
  have hfacts : ∀ c : Char, c.toNat < 0x80 →
      (isAsciiAlphanumeric (UInt8.ofNat c.toNat) || UInt8.ofNat c.toNat == hyphen) = true →
      hostChar c = true := forall_ascii (by decide)
  exact hfacts c hlt hbyte

theorem map_asciiLower_of_digits {label : Str} (h : (utf8 label).all isAsciiDigit = true) :
    label.map asciiLower = label := by
  have hfacts : ∀ c : Char, c.toNat < 0x80 → isAsciiDigit (UInt8.ofNat c.toNat) = true →
      asciiLower c = c := forall_ascii (by decide)
  refine (map_congr_left fun c hc => ?_).trans (map_id _)
  obtain ⟨hlt, hdigit⟩ := ascii_of_all (Wire.forall_byte (by decide +kernel)) h hc
  exact hfacts c hlt hdigit

variable {line : Str}

theorem hostChar_of_plain (h : Plain line) : ∀ c ∈ line, hostChar c = true := by
  intro c hc
  have hmem : asciiLower c ∈ line.map asciiLower := mem_map_of_mem hc
  have hlower : hostChar (asciiLower c) = true := by
    by_cases hdot : asciiLower c = '.'
    · rw [hdot]
      decide
    · obtain ⟨label, hlabel, hin⟩ := exists_mem_splitOn hmem hdot
      simp only [Plain, validateHost, and_eq_true] at h
      exact hostChar_of_mem_label (all_eq_true.mp h.1.2 label (mem_nonEmpty.mp hlabel).1) _ hin
  by_cases hascii : c.toNat < 0x80
  · have hfacts : ∀ c : Char, c.toNat < 0x80 → hostChar (asciiLower c) = true →
        hostChar c = true := forall_ascii (by decide)
    exact hfacts c hascii hlower
  · rw [asciiLower_of_not_ascii (Nat.le_of_not_lt hascii)] at hlower
    exact hlower

theorem ascii_of_plain (h : Plain line) : ∀ c ∈ line, c.toNat < 0x80 := by
  intro c hc
  have hchar := hostChar_of_plain h c hc
  simp only [hostChar, and_eq_true, decide_eq_true_eq] at hchar
  exact hchar.1

theorem clean_of_plain (h : Plain line) : ∀ c ∈ line, isWhitespace c = false := by
  have hfacts : ∀ c : Char, c.toNat < 0x80 → hostChar c = true → isWhitespace c = false :=
    forall_ascii (by decide)
  exact fun c hc => hfacts c (ascii_of_plain h c hc) (hostChar_of_plain h c hc)

theorem notMem_of_plain (h : Plain line) {c : Char} (hc : hostChar c = false) : c ∉ line :=
  fun hmem => ne_true_of_eq_false hc (hostChar_of_plain h c hmem)

theorem contains_of_plain (h : Plain line) {c : Char} (hc : hostChar c = false) :
    line.contains c = false := by
  rw [← not_eq_true, contains_iff_mem]
  exact notMem_of_plain h hc

theorem ne_nil_of_plain (h : Plain line) : line ≠ [] := by
  rintro rfl
  exact absurd h (by decide)

theorem not_skipped_of_plain (h : Plain line) :
    (line.isEmpty || line.head? == some '#' || line.head? == some '!') = false := by
  have hhead : ∀ {c}, hostChar c = false → (line.head? == some c) = false := fun hc =>
    beq_eq_false_iff_ne.mpr fun heq => notMem_of_plain h hc (mem_of_mem_head? heq)
  rw [isEmpty_eq_false_iff.mpr (ne_nil_of_plain h), hhead (by decide), hhead (by decide)]
  rfl

/-- Names of `n` labels that are not empty have at least `2 n - 1` characters. -/
theorem two_mul_length_le {ls : List Str} (h : ∀ l ∈ ls, l ≠ []) :
    2 * ls.length ≤ (['.'].intercalate ls).length + 1 := by
  induction ls with
  | nil => exact Nat.zero_le _
  | cons l ls ih =>
    obtain ⟨hl, hls⟩ := forall_mem_cons.mp h
    have hpos := length_pos_of_ne_nil hl
    cases ls with
    | nil =>
      rw [intercalate_singleton, length_singleton]
      omega
    | cons m ls =>
      have := ih hls
      rw [intercalate_cons_cons, length_append, length_append, length_singleton, length_cons]
      omega

theorem splitOn_map_asciiLower (s : Str) :
    (s.map asciiLower).splitOn '.' = (s.splitOn '.').map (List.map asciiLower) := by
  induction s with
  | nil => rfl
  | cons c s ih =>
    have hdot : (asciiLower c == '.') = (c == '.') := by
      rcases Nat.lt_or_ge c.toNat 0x80 with hc | hc
      · revert c
        exact forall_ascii (by decide)
      · rw [asciiLower_of_not_ascii hc]
    rw [map_cons, splitOn_cons_eq_if_modifyHead, splitOn_cons_eq_if_modifyHead, hdot, ih]
    split
    · rfl
    · cases s.splitOn '.' <;> rfl

theorem readEntry_of_plain (h : Plain line) : readEntry line = .host (line.map asciiLower) := by
  have hclean := clean_of_plain h
  have hne := ne_nil_of_plain h
  have hwords : splitWhitespace line = [line] := by
    rw [splitWhitespace, splitOnP_eq_singleton hclean, nonEmpty_eq_self (by simpa using hne)]
  have hsink : sinkholes.contains line = false := by
    rw [← not_eq_true, contains_iff_mem]
    intro hmem
    have hnot : ∀ s ∈ sinkholes, ¬Plain s := by decide
    exact hnot line hmem h
  have hroot : stripRootDot line = line := by
    rw [stripRootDot, if_neg]
    intro hdot
    obtain ⟨s, rfl⟩ := getLast?_eq_some_iff.mp hdot
    have hlast : ([] : Str) ∈ ((s ++ ['.']).map asciiLower).splitOn '.' := by
      rw [splitOn_map_asciiLower, splitOn_append_cons_self]
      simp
    simp only [Plain, validateHost, and_eq_true] at h
    exact absurd (all_eq_true.mp h.1.2 _ hlast) (by decide)
  simp only [readEntry, trim_of_clean hclean, not_skipped_of_plain h,
    contains_of_plain h (c := '#') (by decide), false_eq_true, if_false]
  simp only [isEmpty_eq_false_iff.mpr hne, extractHost, hwords, hsink, hroot, false_eq_true,
    if_false]
  exact if_pos h

theorem lineToken_of_plain (h : Plain line) : lineToken line = line := by
  have hclean := clean_of_plain h
  have hdrop : line.dropWhile (!isWhitespace ·) = [] :=
    dropWhile_eq_nil_iff.mpr fun c hc => by simp [hclean c hc]
  have hbars : trimStartBars line = line := by
    unfold trimStartBars
    split
    · exact absurd mem_cons_self (notMem_of_plain h (by decide))
    · rfl
  have hcaret : trimEndMatches '^' line = line := by
    refine rdropWhile_eq_self_iff.mpr fun hl => ?_
    rw [beq_iff_eq]
    exact fun heq => notMem_of_plain h (by decide) (heq ▸ getLast_mem hl)
  have hword : firstWord line = line := by
    have hstart : line.dropWhile isWhitespace = line := by
      cases line with
      | nil => rfl
      | cons c line => rw [dropWhile_cons_of_neg (by simp [hclean c mem_cons_self])]
    rw [firstWord, hstart]
    exact takeWhile_eq_self_iff.mpr fun c hc => by simp [hclean c hc]
  have hcomment := beforeComment_eq_self (contains_of_plain h (c := '#') (by decide))
  have hstar : stripStarDot line = line := by
    unfold stripStarDot
    split
    · exact absurd mem_cons_self (notMem_of_plain h (by decide))
    · rfl
  simp only [lineToken, splitOnceWhitespace, hdrop, hbars, hcaret, hword, hcomment,
    trim_of_clean hclean, hstar]

/-- The checks of the compiler on a plain line are weaker than those of the crown. -/
theorem acceptToken_of_plain (h : Plain line) : acceptToken line = some line := by
  have hascii := ascii_of_plain h
  have hline := ne_nil_of_plain h
  have hstar := contains_of_plain h (c := '*') (by decide)
  have hslash := contains_of_plain h (c := '/') (by decide)
  simp only [Plain, validateHost, splitOn_map_asciiLower, and_eq_true, decide_eq_true_eq,
    length_map, all_map, not_eq_true', isEmpty_eq_false_iff] at h
  obtain ⟨⟨⟨⟨-, hbytes⟩, htwo⟩, hlabels⟩, hlast⟩ := h
  have hlen : (utf8 line).length ≤ maxNameLen := by
    rw [utf8_of_ascii hascii, length_map]
    have hle := length_utf8_bounds (line.map asciiLower)
    rw [length_map] at hle
    exact Nat.le_trans hle.1 hbytes
  have hnonempty : ∀ l ∈ line.splitOn '.', l ≠ [] := by
    rintro l hl rfl
    exact absurd (all_eq_true.mp hlabels _ hl) (by decide)
  have hcount : (line.splitOn '.').length ≤ maxLabels := by
    have htwice := two_mul_length_le hnonempty
    rw [intercalate_splitOn] at htwice
    rw [utf8_of_ascii hascii, length_map] at hlen
    rw [maxNameLen] at hlen
    rw [maxLabels]
    omega
  have hdot : line.contains '.' = true := by
    rw [contains_iff_mem]
    by_contra hnot
    rw [splitOn_eq_singleton hnot] at htwo
    exact absurd htwo (by simp)
  -- the last label is not a number
  have hdigits : ((line.splitOn '.').all fun l => !l.isEmpty && (utf8 l).all isAsciiDigit) =
      false := by
    rw [← not_eq_true]
    intro hall
    have hsplit := splitOn_ne_nil '.' line
    have hmem := getLast_mem hsplit
    have hdig := (and_eq_true _ _ ▸ all_eq_true.mp hall _ hmem).2
    rw [getLast?_map, getLast?_eq_some_getLast hsplit, Option.map_some, Option.getD_some,
      map_asciiLower_of_digits hdig, hdig] at hlast
    exact absurd hlast (by decide)
  rw [acceptToken, hstar, hslash, hdot, hdigits, isEmpty_eq_false_iff.mpr hline]
  simp [Nat.not_lt.mpr hlen, Nat.not_lt.mpr hcount]

theorem textDomain_of_plain (h : Plain line) : textDomain line = some line := by
  have haccept := acceptToken_of_plain h
  have hlen := (acceptToken_eq_some haccept).2.1
  have hshort : (utf8 line).length ≤ maxLineBytes := Nat.le_trans hlen (by decide)
  simp only [textDomain, if_pos hshort, parseLine, trim_of_clean (clean_of_plain h),
    not_skipped_of_plain h, Bool.false_eq_true, if_false, lineToken_of_plain h, haccept]

/-- **A plain line is read by both parsers** as the host that it is. -/
theorem plain_lines_agree (line : {l : Str // Plain l}) :
    readEntry line = .host (line.1.map asciiLower) ∧ textDomain line = some line.1 :=
  ⟨readEntry_of_plain line.2, textDomain_of_plain line.2⟩

end Blocklist
end TortaCore
