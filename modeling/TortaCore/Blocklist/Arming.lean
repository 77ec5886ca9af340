import TortaCore.Blocklist.Compile
import Mathlib.Algebra.GroupWithZero.Nat
import Mathlib.Algebra.Order.BigOperators.Group.List
import Mathlib.Algebra.Order.Group.Nat

/-!
# What a text arms, and what its preview tells

`parse_line` makes its checks on the token as it is written, and `Matcher::insert` stores the
name without empty labels.  A dot in front or at the end passes for a second label, and makes a
dotted quad pass for a name, so a line may arm a whole top-level domain.

`preview_text` reads the text by `str::lines` and tests the length of a line without its line
end, the byte loop of `compile_text` counts a carriage return: they differ on the lines that
fill the cap.
-/

namespace TortaCore
namespace Blocklist

open Text Net Store List Option

/-! ### The lines of a text -/

/-- The domain of a line of the text, when it fits the cap. -/
def textDomain (line : Str) : Option Str :=
  if (utf8 line).length ≤ maxLineBytes then parseLine line else none

/-- The byte loop reads the lines of the text. -/
theorem domainsOf_utf8 (text : Str) :
    domainsOf (utf8 text) = (text.splitOn '\n').filterMap textDomain := by
  have hcut : (utf8 text).splitOn 0x0A = (text.splitOn '\n').map utf8 :=
    splitOn_utf8 (c := '\n') (by decide) text
  rw [domainsOf, hcut, filterMap_map]
  congr 1
  funext l
  rw [Function.comp_apply, lineDomain, fromUtf8_utf8, textDomain]
  rfl

/-! ### The zones that are stored -/

/-- The name is the literal of an IPv4 address. -/
def isDottedQuad (name : Str) : Bool :=
  match IpAddr.parse name with
  | some (.v4 _) => true
  | _ => false

/-- The zone has at least two labels and is no address; paths begin with the top-level label. -/
def Tame (path : List Str) : Prop :=
  2 ≤ path.length ∧ isDottedQuad (['.'].intercalate path.reverse) = false

/-- No domain comes down to a single label once the empty labels are gone, and one that comes
down to a dotted quad lies in the zone of another. -/
def Harmless (domains : List Str) : Prop :=
  ∀ d ∈ domains, (canonicalLabels d).length ≠ 1 ∧
    (isDottedQuad (normalize d) = true → ∃ x ∈ domains, canonicalLabels x ≠ [] ∧
      canonicalLabels x ≠ canonicalLabels d ∧ canonicalLabels x <:+ canonicalLabels d)

theorem intercalate_canonicalLabels (d : Str) :
    ['.'].intercalate (canonicalLabels d) = normalize d := by
  rw [canonicalLabels_eq, normalize]

theorem ends_compileText (text : Str) (p : List Str) :
    (compileText text).root.Ends p ↔
      p ∈ minimalPaths {q | q ∈ zonePaths (domainsOf (utf8 text))} := by
  rw [compileText, compileReader_eq]
  exact ends_ofDomains _ p

/-- A domain with a label left has a stored zone above it. -/
theorem exists_ends {text d : Str} (hd : d ∈ domainsOf (utf8 text)) (hne : canonicalLabels d ≠ []) :
    ∃ x ∈ domainsOf (utf8 text), canonicalLabels x ≠ [] ∧
      canonicalLabels x <:+ canonicalLabels d ∧ (compileText text).root.Ends (zonePath x) := by
  have hmem : zonePath d ∈ {q | q ∈ zonePaths (domainsOf (utf8 text))} :=
    mem_zonePaths.mpr ⟨d, hd, rfl, by simpa [zonePath] using hne⟩
  obtain ⟨m, hm, hpre⟩ := exists_minimal_prefix hmem
  obtain ⟨x, hx, rfl, hxne⟩ := mem_zonePaths.mp hm.1
  refine ⟨x, hx, by simpa [zonePath] using hxne, ?_, (ends_compileText text _).mpr hm⟩
  rwa [zonePath, zonePath, reverse_prefix] at hpre

theorem tame_zonePath_iff (d : Str) :
    Tame (zonePath d) ↔ 2 ≤ (canonicalLabels d).length ∧ isDottedQuad (normalize d) = false := by
  rw [Tame, zonePath, length_reverse, reverse_reverse, intercalate_canonicalLabels]

theorem tame_iff_harmless (text : Str) :
    (∀ p, (compileText text).root.Ends p → Tame p) ↔ Harmless (domainsOf (utf8 text)) := by
  constructor
  · intro h d hd
    constructor
    · -- a stored zone above a single label is that label
      intro hone
      obtain ⟨x, -, hxne, hsuffix, hends⟩ := exists_ends hd (by
        intro hnil
        rw [hnil] at hone
        cases hone)
      have hlen := ((tame_zonePath_iff x).mp (h _ hends)).1
      have hle := hsuffix.length_le
      omega
    · intro hquad
      have hne : canonicalLabels d ≠ [] := by
        intro hnil
        rw [canonicalLabels_eq_nil.mp hnil] at hquad
        revert hquad
        decide
      obtain ⟨x, hx, hxne, hsuffix, hends⟩ := exists_ends hd hne
      refine ⟨x, hx, hxne, fun heq => ?_, hsuffix⟩
      have hnot := ((tame_zonePath_iff x).mp (h _ hends)).2
      rw [← intercalate_canonicalLabels, heq, intercalate_canonicalLabels, hquad] at hnot
      cases hnot
  · intro h p hp
    obtain ⟨hmem, hmin⟩ := (ends_compileText text p).mp hp
    obtain ⟨d, hd, rfl, hne⟩ := mem_zonePaths.mp hmem
    obtain ⟨hone, hquad⟩ := h d hd
    rw [tame_zonePath_iff]
    constructor
    · have hpos : 0 < (canonicalLabels d).length :=
        length_pos_of_ne_nil (by simpa [zonePath] using hne)
      omega
    · cases hq : isDottedQuad (normalize d) with
      | false => rfl
      | true =>
        obtain ⟨x, hx, hxne, hxd, hsuffix⟩ := hquad hq
        have heq := hmin (zonePath x)
          (mem_zonePaths.mpr ⟨x, hx, rfl, by simpa [zonePath] using hxne⟩)
          (by rwa [zonePath, zonePath, reverse_prefix])
        exact absurd (reverse_injective heq) hxd

/-- A label that none of the domains has. -/
def freshLabel (domains : List Str) : Str :=
  List.replicate (((domains.flatMap canonicalLabels).map List.length).sum + 1) 'a'

theorem freshLabel_notMem {domains : List Str} {d : Str} (hd : d ∈ domains) :
    freshLabel domains ∉ canonicalLabels d := by
  intro hmem
  have hle : (freshLabel domains).length ≤
      ((domains.flatMap canonicalLabels).map length).sum :=
    le_sum_of_mem (mem_map_of_mem (mem_flatMap.mpr ⟨d, hd, hmem⟩))
  rw [freshLabel, length_replicate] at hle
  omega

/-- Where all stored zones have two labels, some name under every single label passes. -/
theorem exists_unblocked {text : Str} (h : ∀ p, (compileText text).root.Ends p → 2 ≤ p.length)
    {l : Str} (hl : Canonical [l]) :
    ∃ d x, walkLabels d = [l, x] ∧ (compileText text).isBlocked d = false := by
  have hcanonical : Canonical [freshLabel (domainsOf (utf8 text)), l] := by
    intro m hm
    rcases mem_cons.mp hm with rfl | hm
    · refine ⟨by simp [freshLabel], fun hdot => ?_, fun x hx => ?_⟩
      · exact absurd (eq_of_mem_replicate hdot) (by decide)
      · rw [eq_of_mem_replicate hx]
        decide
    · exact hl m hm
  have hwalk := walkLabels_intercalate hcanonical (cons_ne_nil _ _)
  refine ⟨_, freshLabel (domainsOf (utf8 text)), hwalk, ?_⟩
  rw [← Bool.not_eq_true, compileText, compileReader_eq, isBlocked_finalize, isBlocked_ofDomains,
    hwalk]
  rintro ⟨d, hd, hne, hpre⟩
  -- the stored zone has both labels, and one of them is fresh
  obtain ⟨x, hx, hxne, hsuffix, hends⟩ := exists_ends hd hne
  have hlen := h _ hends
  have hpre' : zonePath x <+: [freshLabel (domainsOf (utf8 text)), l].reverse :=
    IsPrefix.trans (List.reverse_prefix.mpr hsuffix) hpre
  have heq : zonePath x = [freshLabel (domainsOf (utf8 text)), l].reverse :=
    hpre'.eq_of_length (Nat.le_antisymm hpre'.length_le hlen)
  refine freshLabel_notMem hx ?_
  rw [← mem_reverse, ← zonePath, heq]
  simp

/-- **Which texts arm tame zones only**: all zones that `compile_text` stores have two labels and
are no dotted quads, and so under every single label some name passes, exactly if the domains of
the lines are harmless. -/
theorem arms_tame_zones_iff (text : Str) :
    ((∀ p, (compileText text).root.Ends p → Tame p) ∧
      ∀ l, Canonical [l] →
        ∃ d x, walkLabels d = [l, x] ∧ (compileText text).isBlocked d = false) ↔
      Harmless (domainsOf (utf8 text)) := by
  rw [← tame_iff_harmless]
  constructor
  · exact fun h => h.1
  · exact fun h => ⟨h, fun l hl => exists_unblocked (fun p hp => (h p hp).1) hl⟩

/-- A dot in front arms a top-level domain, and one at the end an address. -/
theorem stray_dots_arm_a_tld :
    (compileText ".com\n1.2.3.4.\n".toList).root.walkTerminals [] =
        ["com".toList, "1.2.3.4".toList] ∧
      (compileText ".com\n1.2.3.4.\n".toList).root.Ends ["com".toList] ∧
      (compileText ".com\n1.2.3.4.\n".toList).isBlocked "example.com".toList = true ∧
      isDottedQuad "1.2.3.4".toList = true := by
  have hends : ((compileText ".com\n1.2.3.4.\n".toList).root.subtree? ["com".toList]).map
      PathTrie.terminal = some true := by
    decide +kernel
  exact ⟨by decide +kernel, map_eq_some_iff.mp hends, by decide +kernel, by decide +kernel⟩

/-! ### The preview -/

/-- One turn of the loop of `preview_text`. -/
def previewLine (acc : ℕ × List Str) (raw : Str) : ℕ × List Str :=
  if (utf8 raw).length > maxLineBytes then acc
  else
    match parseLine raw with
    | none => acc
    | some domain => (acc.1 + 1, if acc.2.length < 5 then acc.2 ++ [domain] else acc.2)

/-- How many domains a text has, and the first five of them. -/
def previewText (text : Str) : ℕ × List Str := (lines text).foldl previewLine (0, [])

/-- The domains that the preview counts. -/
def previewDomains (text : Str) : List Str := (lines text).filterMap textDomain

theorem previewLine_eq (acc : ℕ × List Str) (raw : Str) :
    previewLine acc raw =
      match textDomain raw with
      | none => acc
      | some domain => (acc.1 + 1, if acc.2.length < 5 then acc.2 ++ [domain] else acc.2) := by
  rw [previewLine, textDomain]
  by_cases hlong : (utf8 raw).length ≤ maxLineBytes
  · rw [if_neg (Nat.not_lt.mpr hlong), if_pos hlong]
  · rw [if_pos (Nat.lt_of_not_le hlong), if_neg hlong]

/-- The sample takes a domain while it has fewer than five. -/
theorem take_concat (seen : List Str) (domain : Str) :
    (if (seen.take 5).length < 5 then seen.take 5 ++ [domain] else seen.take 5) =
      (seen ++ [domain]).take 5 := by
  rw [take_append, length_take]
  split
  · next hlt =>
    obtain ⟨n, hn⟩ : ∃ n, 5 - seen.length = n + 1 := ⟨4 - seen.length, by omega⟩
    rw [hn, take_succ_cons, take_nil]
  · next hge => rw [show 5 - seen.length = 0 by omega, take_zero, append_nil]

theorem previewText_eq (text : Str) :
    previewText text = ((previewDomains text).length, (previewDomains text).take 5) := by
  have hloop : ∀ (ls : List Str) (seen : List Str),
      ls.foldl previewLine (seen.length, seen.take 5) =
        ((seen ++ ls.filterMap textDomain).length, (seen ++ ls.filterMap textDomain).take 5) := by
    intro ls
    induction ls with
    | nil => intro seen; simp
    | cons l ls ih =>
      intro seen
      rw [foldl_cons, previewLine_eq, filterMap_cons]
      cases textDomain l with
      | none => exact ih seen
      | some domain =>
        have hstep := ih (seen ++ [domain])
        rw [length_append, length_singleton, append_assoc, singleton_append] at hstep
        rw [← hstep]
        dsimp only
        rw [take_concat]
  exact hloop (lines text) []

/-- The carriage return of a line end does not matter to `parse_line`. -/
theorem parseLine_stripCr (l : Str) : parseLine (stripCr l) = parseLine l := by
  have htrim : trim (stripCr l) = trim l := by
    rw [stripCr]
    split
    · next hcr =>
      obtain ⟨s, rfl⟩ := getLast?_eq_some_iff.mp hcr
      rw [dropLast_concat]
      exact (trim_concat (by decide) s).symm
    · rfl
  rw [parseLine, parseLine, htrim]

/-- A line before a line feed, without the carriage return of its line end. -/
theorem textDomain_stripCr (l : Str) :
    ¬((utf8 l).length = maxLineBytes + 1 ∧ l.getLast? = some '\r') ∧
        textDomain l = textDomain (stripCr l) ∨
      ((utf8 l).length = maxLineBytes + 1 ∧ l.getLast? = some '\r') ∧ textDomain l = none ∧
        textDomain (stripCr l) = parseLine l := by
  by_cases hcr : l.getLast? = some '\r'
  · obtain ⟨s, rfl⟩ := getLast?_eq_some_iff.mp hcr
    have hstrip : stripCr (s ++ ['\r']) = s := by rw [stripCr, if_pos hcr, dropLast_concat]
    have hlen : (utf8 (s ++ ['\r'])).length = (utf8 s).length + 1 := by
      rw [utf8, flatMap_append, length_append]
      rfl
    have hparse := parseLine_stripCr (s ++ ['\r'])
    rw [hstrip] at hparse ⊢
    rw [textDomain, textDomain, hlen, hparse]
    by_cases hfull : (utf8 s).length = maxLineBytes
    · right
      rw [if_neg (by omega), if_pos (by omega)]
      exact ⟨⟨by omega, hcr⟩, rfl, rfl⟩
    · refine .inl ⟨fun hfills => hfull (by omega), ?_⟩
      by_cases hlt : (utf8 s).length < maxLineBytes
      · rw [if_pos (by omega), if_pos (by omega)]
      · rw [if_neg (by omega), if_neg (by omega)]
  · rw [stripCr, if_neg hcr]
    exact .inl ⟨fun hfills => hcr hfills.2, rfl⟩

/-- Where one function gives what another gives or nothing, they give the same over a list
exactly if they do for its members. -/
theorem filterMap_eq_filterMap_iff {α β : Type*} {f g : α → Option β} :
    ∀ {ls : List α}, (∀ l ∈ ls, f l = g l ∨ f l = none) →
      (ls.filterMap f = ls.filterMap g ↔ ∀ l ∈ ls, f l = g l) := by
  intro ls
  induction ls with
  | nil => simp
  | cons l ls ih =>
    intro h
    obtain ⟨hl, hls⟩ := forall_mem_cons.mp h
    rw [forall_mem_cons, ← ih hls, filterMap_cons, filterMap_cons]
    rcases hl with hl | hl
    · rw [hl]
      cases g l <;> simp
    rw [hl]
    cases hg : g l with
    | none => simp
    | some b =>
      -- one list would be longer than the other
      have hle : (ls.filterMap f).length ≤ (ls.filterMap g).length := by
        rw [length_filterMap_eq_countP, length_filterMap_eq_countP]
        refine countP_mono_left fun x hx hsome => ?_
        rcases hls x hx with hx | hx
        · rwa [← hx]
        · rw [hx] at hsome
          cases hsome
      refine iff_of_false (fun heq => ?_) (by simp)
      have hlen := congrArg length heq
      dsimp only at hlen
      rw [length_cons] at hlen
      omega

/-- **Which texts are previewed as they are compiled**: those without a line that fills the cap,
ends in a carriage return and a line feed, and names a domain. -/
theorem preview_agrees_iff (text : Str) :
    previewText text = ((previewDomains text).length, (previewDomains text).take 5) ∧
      (previewDomains text = domainsOf (utf8 text) ↔
        ∀ l ∈ (text.splitOn '\n').dropLast, (utf8 l).length = maxLineBytes + 1 →
          l.getLast? = some '\r' → parseLine l = none) := by
  refine ⟨previewText_eq text, ?_⟩
  obtain ⟨init, last, hparts⟩ : ∃ init last, text.splitOn '\n' = init ++ [last] :=
    ⟨_, _, (dropLast_append_getLast (splitOn_ne_nil '\n' text)).symm⟩
  have hlast : (([last] : List Str).filter fun l => !l.isEmpty).filterMap textDomain =
      [last].filterMap textDomain := by
    cases last with
    | nil => decide
    | cons x last => rfl
  rw [domainsOf_utf8, previewDomains, lines, hparts]
  simp only [dropLast_concat, getLast?_concat, toList_some]
  rw [filterMap_append, filterMap_append, hlast, append_cancel_right_eq,
    filterMap_map, eq_comm, filterMap_eq_filterMap_iff]
  · refine forall₂_congr fun l _ => ?_
    rw [Function.comp_apply]
    rcases textDomain_stripCr l with ⟨hnot, hsame⟩ | ⟨⟨hlen, hcr⟩, hnone, hsome⟩
    · exact iff_of_true hsame fun hlen hcr => absurd ⟨hlen, hcr⟩ hnot
    · rw [hnone, hsome]
      exact ⟨fun h _ _ => h.symm, fun h => (h hlen hcr).symm⟩
  · intro l _
    rcases textDomain_stripCr l with ⟨-, hsame⟩ | ⟨-, hnone, -⟩
    · exact .inl hsame
    · exact .inr hnone

/-- A name with spaces after it, and a Windows line end. -/
def paddedLine (spaces : ℕ) : Str := ("a.b".toList ++ List.replicate spaces ' ' ++ ['\r']) ++ ['\n']

theorem length_utf8_padded (n : ℕ) :
    (utf8 ("a.b".toList ++ List.replicate n ' ')).length = n + 3 := by
  induction n with
  | zero => rfl
  | succ n ih =>
    rw [replicate_succ', ← append_assoc, utf8, flatMap_append, length_append, ← utf8, ih]
    rfl

theorem trim_padded (n : ℕ) : trim ("a.b".toList ++ List.replicate n ' ') = "a.b".toList := by
  induction n with
  | zero => decide
  | succ n ih => rw [replicate_succ', ← append_assoc, trim_concat (by decide), ih]

/-- The preview and the byte loop on a line that fills the cap. -/
theorem paddedLine_spec (n : ℕ) (hfull : n + 3 = maxLineBytes) :
    previewText (paddedLine n) = (1, ["a.b".toList]) ∧ domainsOf (utf8 (paddedLine n)) = [] := by
  have hnot : '\n' ∉ "a.b".toList ++ replicate n ' ' ++ ['\r'] := by
    simp [mem_replicate]
  have hcut : (paddedLine n).splitOn '\n' =
      ["a.b".toList ++ replicate n ' ' ++ ['\r'], []] := by
    rw [paddedLine, splitOn_append_cons_self, splitOn_eq_singleton hnot]
    rfl
  have hparse : parseLine ("a.b".toList ++ replicate n ' ') = some "a.b".toList := by
    rw [parseLine, trim_padded]
    decide
  have hstrip : stripCr ("a.b".toList ++ replicate n ' ' ++ ['\r']) =
      "a.b".toList ++ replicate n ' ' := by
    rw [stripCr, getLast?_concat, if_pos rfl, dropLast_concat]
  constructor
  · have hdomain : textDomain ("a.b".toList ++ replicate n ' ') = some "a.b".toList := by
      rw [textDomain, length_utf8_padded, if_pos hfull.le, hparse]
    have hlines : lines (paddedLine n) = ["a.b".toList ++ replicate n ' '] := by
      rw [lines, hcut]
      change [stripCr _] = _
      rw [hstrip]
    rw [previewText_eq, previewDomains, hlines, filterMap_cons, hdomain]
    rfl
  · have hlong : ¬(utf8 ("a.b".toList ++ replicate n ' ' ++ ['\r'])).length ≤
        maxLineBytes := by
      rw [utf8, flatMap_append, length_append, ← utf8, length_utf8_padded, hfull]
      exact Nat.not_succ_le_self _
    rw [domainsOf_utf8, hcut, filterMap_cons, textDomain, if_neg hlong]
    rfl

/-- A line of 8192 bytes before its line end is previewed, and not compiled. -/
theorem full_line_is_previewed_only :
    previewText (paddedLine 8189) = (1, ["a.b".toList]) ∧
      domainsOf (utf8 (paddedLine 8189)) = [] :=
  paddedLine_spec 8189 rfl

end Blocklist
end TortaCore
