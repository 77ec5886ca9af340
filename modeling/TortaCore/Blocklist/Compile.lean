import TortaCore.Blocklist.Matcher
import TortaCore.Net.IpAddr

/-!
# Compiling a blocklist text

`compile_text` reads a list byte by byte, cuts it at line feeds, skips lines that
exceed a cap, and feeds each remaining line to `parse_line`, which recognises host
files, plain lists and adblock-style rules.

The chunked reads of `compile_reader` only batch the byte loop and are not
modelled; an in-memory reader never fails.

## Main definitions

* `ReadState`, `readByte`, `compileReader`, `compileText`: the byte loop.
-/

namespace TortaCore
namespace Blocklist

open Text Net List

def maxNameLen : ℕ := 253

def maxLabels : ℕ := 127

def maxLineBytes : ℕ := 8192

/-! ### One line -/

/-- `split_once(char::is_whitespace)`. -/
def splitOnceWhitespace (s : Str) : Option (Str × Str) :=
  match s.dropWhile (!isWhitespace ·) with
  | [] => none
  | _ :: rest => some (s.takeWhile (!isWhitespace ·), rest)

/-- `trim_start_matches("||")`. -/
def trimStartBars : Str → Str
  | '|' :: '|' :: s => trimStartBars s
  | s => s

/-- `split_whitespace().next().unwrap_or("")`. -/
def firstWord (s : Str) : Str := (s.dropWhile isWhitespace).takeWhile (!isWhitespace ·)

/-- `split('#').next()`: what precedes an inline comment. -/
def beforeComment (s : Str) : Str := s.takeWhile (· != '#')

/-- `strip_prefix("*.").unwrap_or(token)`. -/
def stripStarDot : Str → Str
  | '*' :: '.' :: s => s
  | s => s

def isHostSink (addr : Str) : Bool := (IpAddr.parse addr).isSome

def isAsciiDigit (b : UInt8) : Bool := 0x30 ≤ b.toNat && b.toNat ≤ 0x39

/-- The part of a line that may name a domain: after a sink address, inside the
adblock wrappers, before white space and comments, without a leading wildcard. -/
def lineToken (line : Str) : Str :=
  let token :=
    match splitOnceWhitespace line with
    | some (first, rest) => if isHostSink first then trim rest else line
    | none => line
  let token := trimEndMatches '^' (trimStartBars token)
  let token := trim (beforeComment (firstWord token))
  stripStarDot token

/-- The checks a token has to pass: no wildcard inside, at least one dot and no slash,
the bounds of DNS, and not a dotted quad. -/
def acceptToken (token : Str) : Option Str :=
  if token.contains '*' then none
  else if token.isEmpty || !token.contains '.' || token.contains '/' then none
  else if (utf8 token).length > maxNameLen || (token.splitOn '.').length > maxLabels then none
  else if (token.splitOn '.').all fun l => !l.isEmpty && (utf8 l).all isAsciiDigit then none
  else some token

/-- The domain of one line of a host file, a plain list or an adblock-style list. -/
def parseLine (line : Str) : Option Str :=
  let line := trim line
  if line.isEmpty || line.head? == some '#' || line.head? == some '!' then none
  else acceptToken (lineToken line)

/-! ### The byte loop -/

def feedLine (bytes : Bytes) (m : Matcher) : Matcher :=
  match (fromUtf8 bytes).bind parseLine with
  | some domain => m.insert domain
  | none => m

/-- The line read so far, whether it exceeded the cap, and the matcher. -/
structure ReadState where
  line : Bytes := []
  skipping : Bool := false
  matcher : Matcher := {}

def readByte (st : ReadState) (b : UInt8) : ReadState :=
  if b = 0x0A then
    { line := []
      skipping := false
      matcher := if st.skipping then st.matcher else feedLine st.line st.matcher }
  else if st.skipping then st
  else if st.line.length < maxLineBytes then { st with line := st.line ++ [b] }
  else { st with line := [], skipping := true }

/-- The end of the input: a last line without a line feed counts too. -/
def finishRead (st : ReadState) : Matcher :=
  if !st.skipping && !st.line.isEmpty then feedLine st.line st.matcher else st.matcher

def compileReader (bytes : Bytes) : Matcher := (finishRead (bytes.foldl readByte {})).finalize

/-- `compile_text`. -/
def compileText (text : Str) : Matcher := compileReader (utf8 text)

/-! ### What the loop inserts -/

/-- The domain that a line hands to `insert`, when it fits the cap. -/
def lineDomain (line : Bytes) : Option Str :=
  if line.length ≤ maxLineBytes then (fromUtf8 line).bind parseLine else none

/-- The domains that a text hands to `insert`, in order. -/
def domainsOf (bytes : Bytes) : List Str := (bytes.splitOn 0x0A).filterMap lineDomain

theorem feedLine_eq {line : Bytes} (h : line.length ≤ maxLineBytes) (m : Matcher) :
    feedLine line m = (lineDomain line).toList.foldl Matcher.insert m := by
  rw [feedLine, lineDomain, if_pos h]
  cases (fromUtf8 line).bind parseLine <;> rfl

theorem lineDomain_nil : lineDomain [] = none := by decide

theorem filterMap_lineDomain_cons (line : Bytes) (lines : List Bytes) :
    (line :: lines).filterMap lineDomain =
      (lineDomain line).toList ++ lines.filterMap lineDomain := by
  rw [filterMap_cons]
  cases lineDomain line <;> rfl

/-- What is still to be inserted: the rest of the current line, unless it is being
skipped, and the lines after it. -/
def pendingDomains (st : ReadState) (bytes : Bytes) : List Str :=
  match bytes.splitOn 0x0A with
  | [] => []
  | first :: rest =>
    (if st.skipping then [] else (lineDomain (st.line ++ first)).toList) ++
      rest.filterMap lineDomain

/-- The line buffer stays within the cap. -/
def ReadState.Fits (st : ReadState) : Prop := st.line.length ≤ maxLineBytes

theorem fits_readByte {st : ReadState} (h : st.Fits) (b : UInt8) : (readByte st b).Fits := by
  rw [readByte]
  split
  · exact Nat.zero_le _
  split
  · exact h
  split
  · next hlt =>
    show (st.line ++ [b]).length ≤ maxLineBytes
    rw [length_append, length_singleton]
    exact hlt
  · exact Nat.zero_le _

/-- One byte: what it inserts and what it leaves pending make up what was pending. -/
theorem pendingDomains_cons {st : ReadState} (h : st.Fits) (b : UInt8) (bs : Bytes) :
    (pendingDomains (readByte st b) bs).foldl Matcher.insert (readByte st b).matcher =
      (pendingDomains st (b :: bs)).foldl Matcher.insert st.matcher := by
  obtain ⟨first, rest, hsplit⟩ : ∃ first rest, bs.splitOn 0x0A = first :: rest :=
    exists_cons_of_ne_nil (splitOn_ne_nil _ _)
  by_cases hb : b = 0x0A
  · -- a line feed ends the line: it is inserted, and a new one begins
    subst hb
    have hcut : ((0x0A : UInt8) :: bs).splitOn 0x0A = [] :: first :: rest := by
      rw [← nil_append ((0x0A : UInt8) :: bs), splitOn_append_cons_self, hsplit]
      rfl
    simp only [pendingDomains, readByte, hcut, hsplit, if_true, nil_append, append_nil,
      filterMap_lineDomain_cons]
    cases st.skipping with
    | true => rfl
    | false => simp only [Bool.false_eq_true, if_false, feedLine_eq h, foldl_append]
  · have hcut : (b :: bs).splitOn 0x0A = (b :: first) :: rest := by
      rw [splitOn_cons_eq_if_modifyHead, if_neg (by simpa using hb), hsplit, modifyHead_cons]
    simp only [pendingDomains, readByte, hcut, hsplit, if_neg hb]
    cases hs : st.skipping with
    | true => simp [hs]
    | false =>
      by_cases hlt : st.line.length < maxLineBytes
      · simp [hlt]
      -- the cap is reached: the whole line is given up
      have hlong : lineDomain (st.line ++ b :: first) = none := by
        rw [lineDomain, if_neg]
        rw [length_append, length_cons]
        omega
      simp [hlt, hlong]

theorem finishRead_foldl (bytes : Bytes) (st : ReadState) (h : st.Fits) :
    finishRead (bytes.foldl readByte st) =
      (pendingDomains st bytes).foldl Matcher.insert st.matcher := by
  induction bytes generalizing st with
  | nil =>
    rw [foldl_nil, finishRead, pendingDomains, splitOn_nil]
    cases hs : st.skipping with
    | true => simp
    | false =>
      by_cases hl : st.line = []
      · simp [hl, lineDomain_nil]
      · simp [hl, feedLine_eq h]
  | cons b bs ih =>
    rw [foldl_cons, ih _ (fits_readByte h b), pendingDomains_cons h]

/-- **The byte loop inserts the domains of the lines that fit the cap, in order.** -/
theorem compileReader_eq (bytes : Bytes) :
    compileReader bytes = (Matcher.ofDomains (domainsOf bytes)).finalize := by
  have hpending : pendingDomains {} bytes = domainsOf bytes := by
    rw [pendingDomains, domainsOf]
    cases bytes.splitOn 0x0A with
    | nil => rfl
    | cons first rest => exact (filterMap_lineDomain_cons first rest).symm
  rw [compileReader, finishRead_foldl bytes {} (Nat.zero_le _), hpending]
  rfl

/-! ### What a line can name -/

theorem mem_of_mem_trim {s : Str} {x : Char} (h : x ∈ trim s) : x ∈ s := by
  have hend : x ∈ trimStart s := (List.rdropWhile_prefix _ _).subset h
  exact (dropWhile_suffix _).subset hend

theorem stripStarDot_suffix (s : Str) : stripStarDot s <:+ s := by
  rw [stripStarDot.eq_def]
  split
  · exact ⟨['*', '.'], rfl⟩
  · exact suffix_rfl

theorem isWhitespace_of_mem_lineToken {line : Str} {x : Char} (h : x ∈ lineToken line) :
    isWhitespace x = false := by
  have hword : ∀ s : Str, x ∈ firstWord s → isWhitespace x = false := by
    intro s hs
    have := mem_takeWhile_imp hs
    simpa using this
  have htrim := mem_of_mem_trim ((stripStarDot_suffix _).subset h)
  exact hword _ ((List.takeWhile_prefix _).subset htrim)

theorem acceptToken_eq_some {s t : Str} (h : acceptToken s = some t) :
    t = s ∧ (utf8 s).length ≤ maxNameLen ∧ (s.splitOn '.').length ≤ maxLabels := by
  revert h
  fun_cases acceptToken with
  | case5 _ _ hlen =>
    rintro ⟨⟩
    simp only [Bool.or_eq_true, decide_eq_true_eq, not_or] at hlen
    exact ⟨rfl, by omega, by omega⟩
  | _ => exact fun h => by cases h

/-- A parsed domain has no white space and fits the bounds of DNS as it is written. -/
theorem parseLine_spec {line t : Str} (h : parseLine line = some t) :
    (∀ x ∈ t, isWhitespace x = false) ∧ (utf8 t).length ≤ maxNameLen := by
  rw [parseLine] at h
  split at h
  · cases h
  · obtain ⟨rfl, hlen, -⟩ := acceptToken_eq_some h
    exact ⟨fun x hx => isWhitespace_of_mem_lineToken hx, hlen⟩

theorem domainsOf_spec {bytes : Bytes} {d : Str} (h : d ∈ domainsOf bytes) :
    (∀ x ∈ d, isWhitespace x = false) ∧ (utf8 d).length ≤ maxNameLen := by
  obtain ⟨line, -, hline⟩ := mem_filterMap.mp h
  rw [lineDomain] at hline
  split at hline
  · obtain ⟨s, -, hs⟩ := Option.bind_eq_some_iff.mp hline
    exact parseLine_spec hs
  · cases hline

end Blocklist
end TortaCore
