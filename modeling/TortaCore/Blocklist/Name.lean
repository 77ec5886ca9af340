import TortaCore.Text.Slice
import TortaCore.Text.Utf8

/-!
# Canonical domain names

`blocklist.rs` has two canonicalisations of a domain name.  `normalize`, on the
insert side, lowercases the whole string and then cuts it into labels.
`walk_labels`, on the lookup side, cuts first and lowercases each label by
itself, so that the common lower-case name needs no copy.

Lowercasing looks across the label separator: a capital sigma is word-final when
a cased letter precedes it and none follows, and a dot is skipped in both
directions.  The two functions therefore agree on a name exactly when no capital
sigma in it sees a different answer across a dot.
-/

namespace TortaCore
namespace Blocklist

open Text List

/-- `domain.trim().trim_end_matches('.')`. -/
def stem (domain : Str) : Str := trimEndMatches '.' (trim domain)

/-- The canonical form of a name: trimmed, lowercased as a whole, without empty labels. -/
def normalize (domain : Str) : Str :=
  ['.'].intercalate (nonEmpty ((toLowercase (stem domain)).splitOn '.'))

/-- `str::rsplit('.')`. -/
def rsplitDots (name : Str) : List Str := (name.splitOn '.').reverse

/-- `b.is_ascii() && !b.is_ascii_uppercase()`. -/
def plainByte (b : UInt8) : Bool := b.toNat < 0x80 && !(0x41 ≤ b.toNat && b.toNat ≤ 0x5A)

/-- The labels of a name in walk order, each lowercased only when it has to be. -/
def walkLabels (domain : Str) : List Str :=
  (nonEmpty (rsplitDots (stem domain))).map fun l =>
    if (utf8 l).all plainByte then l else toLowercase l

/-- The labels of the normalised name; none when nothing is left of it. -/
def canonicalLabels (domain : Str) : List Str :=
  if (normalize domain).isEmpty then [] else (normalize domain).splitOn '.'

/-! ### Labels of the normalised name -/

theorem canonicalLabels_eq (d : Str) :
    canonicalLabels d = nonEmpty ((toLowercase (stem d)).splitOn '.') := by
  simp only [canonicalLabels, List.isEmpty_iff, normalize]
  by_cases h : nonEmpty ((toLowercase (stem d)).splitOn '.') = []
  · rw [if_pos (intercalate_nonEmpty_eq_nil.mpr h), h]
  · rw [if_neg (fun hn => h (intercalate_nonEmpty_eq_nil.mp hn)), splitOn_intercalate_nonEmpty h]

theorem canonicalLabels_eq_nil {d : Str} : canonicalLabels d = [] ↔ normalize d = [] := by
  rw [canonicalLabels_eq, normalize, intercalate_nonEmpty_eq_nil]

theorem splitOn_normalize {d : Str} (h : normalize d ≠ []) :
    (normalize d).splitOn '.' = canonicalLabels d := by
  rw [canonicalLabels, if_neg (by simpa using h)]

/-- What makes a list of labels canonical: no label is empty, has a dot, or changes
under lowercasing. -/
def Canonical (ls : List Str) : Prop :=
  ∀ l ∈ ls, l ≠ [] ∧ '.' ∉ l ∧ ∀ x ∈ l, toLower x = [x] ∧ x ≠ 'Σ'

theorem canonical_canonicalLabels (d : Str) : Canonical (canonicalLabels d) := by
  intro l hl
  rw [canonicalLabels_eq] at hl
  refine ⟨(mem_nonEmpty.mp hl).2, dot_notMem_nonEmpty_splitOn hl, fun x hx => ?_⟩
  exact toLower_of_mem_lowerIn (mem_of_mem_splitOn (mem_nonEmpty.mp hl).1 hx)

/-- A canonical name without white space is its own canonical name. -/
theorem canonicalLabels_intercalate {ls : List Str} (h : Canonical ls)
    (hws : ∀ l ∈ ls, ∀ x ∈ l, isWhitespace x = false) :
    canonicalLabels (['.'].intercalate ls) = ls := by
  have hmem : ∀ x ∈ ['.'].intercalate ls, x = '.' ∨ ∃ l ∈ ls, x ∈ l := by
    intro x hx
    exact mem_intercalate hx
  have hclean : ∀ x ∈ ['.'].intercalate ls, isWhitespace x = false := by
    intro x hx
    rcases hmem x hx with rfl | ⟨l, hl, hxl⟩
    · exact isWhitespace_dot
    · exact hws l hl x hxl
  have hfixed : ∀ x ∈ ['.'].intercalate ls, toLower x = [x] ∧ x ≠ 'Σ' := by
    intro x hx
    rcases hmem x hx with rfl | ⟨l, hl, hxl⟩
    · exact ⟨toLower_dot, by decide⟩
    · exact (h l hl).2.2 x hxl
  have hstem : stem (['.'].intercalate ls) = trimEndMatches '.' (['.'].intercalate ls) := by
    rw [stem, trim_of_clean hclean]
  have hlower : toLowercase (stem (['.'].intercalate ls)) = stem (['.'].intercalate ls) := by
    refine lowerIn_of_fixed (fun x hx => hfixed x ?_) [] []
    rw [hstem] at hx
    exact (List.rdropWhile_prefix _ _).subset hx
  rw [canonicalLabels_eq, hlower, hstem, nonEmpty_splitOn_trimEndMatches]
  cases ls with
  | nil => rfl
  | cons l ls =>
    rw [splitOn_intercalate_labels (by simp) fun m hm => (h m hm).2.1,
      nonEmpty_eq_self fun m hm => (h m hm).1]

theorem length_normalize_le (d : Str) : (normalize d).length ≤ 2 * d.length := by
  have hjoin := length_intercalate_nonEmpty_le ((toLowercase (stem d)).splitOn '.')
  rw [intercalate_splitOn] at hjoin
  have hlower := length_lowerIn_le (stem d) [] []
  have hstem : (stem d).length ≤ d.length := by
    have h1 := (List.rdropWhile_prefix (· == '.') (trim d)).length_le
    have h2 := (List.rdropWhile_prefix isWhitespace (trimStart d)).length_le
    have h3 := (dropWhile_suffix isWhitespace (l := d)).length_le
    exact Nat.le_trans h1 (Nat.le_trans h2 h3)
  rw [normalize]
  rw [toLowercase] at hjoin ⊢
  omega

/-! ### Labels of the walk -/

theorem toLower_of_plainByte {c : Char} (h : (String.utf8EncodeChar c).all plainByte = true) :
    toLower c = [c] ∧ c ≠ 'Σ' := by
  -- a byte below 0x80 is a whole character
  obtain ⟨hlt, hplain⟩ := toNat_eq_of_head_ascii h fun b hb => by
    simp only [plainByte, Bool.and_eq_true, decide_eq_true_eq] at hb
    exact hb.1
  have hfacts : ∀ c : Char, c.toNat < 0x80 → plainByte (UInt8.ofNat c.toNat) = true →
      asciiLower c = c ∧ c ≠ 'Σ' := forall_ascii (by decide)
  have hfixed := hfacts c hlt hplain
  exact ⟨by rw [toLower_of_ascii hlt, hfixed.1], hfixed.2⟩

/-- The shortcut for plain labels changes nothing. -/
theorem foldLabel_eq (l : Str) :
    (if (utf8 l).all plainByte then l else toLowercase l) = toLowercase l := by
  split
  · next h =>
    refine (lowerIn_of_fixed (fun x hx => toLower_of_plainByte ?_) [] []).symm
    rw [all_eq_true] at h ⊢
    exact fun b hb => h b (mem_flatMap.mpr ⟨x, hx, hb⟩)
  · rfl

theorem nonEmpty_map_toLowercase (ls : List Str) :
    (nonEmpty ls).map toLowercase = nonEmpty (ls.map toLowercase) := by
  rw [nonEmpty, nonEmpty, filter_map]
  congr 1
  refine filter_congr fun l _ => ?_
  show (!l.isEmpty) = !(toLowercase l).isEmpty
  rw [Bool.eq_iff_iff]
  simp [toLowercase, lowerIn_eq_nil]

theorem walkLabels_eq (d : Str) :
    walkLabels d = (nonEmpty (((stem d).splitOn '.').map toLowercase)).reverse := by
  simp only [walkLabels, foldLabel_eq]
  rw [nonEmpty_map_toLowercase, rsplitDots, map_reverse, nonEmpty, filter_reverse]
  rfl

theorem length_walkLabels (d : Str) : (walkLabels d).length = (canonicalLabels d).length := by
  rw [walkLabels_eq, length_reverse, canonicalLabels_eq, length_nonEmpty_lowerLabels]

/-- **The lookup walks the labels of the normalised name exactly when the answer to
the word-final test at each capital sigma does not depend on other labels.** -/
theorem walkLabels_eq_reverse_iff (d : Str) :
    walkLabels d = (canonicalLabels d).reverse ↔ sigmaLocal [] (stem d) = true := by
  rw [walkLabels_eq, canonicalLabels_eq, reverse_inj, eq_comm, nonEmpty_lowerLabels_eq_iff]

theorem map_toLowercase_of_canonical {ls : List Str} (h : Canonical ls) :
    ls.map toLowercase = ls := by
  induction ls with
  | nil => rfl
  | cons l ls ih =>
    rw [map_cons, ih fun m hm => h m (mem_cons_of_mem _ hm), toLowercase,
      lowerIn_of_fixed (h l mem_cons_self).2.2]

/-- Every list of canonical labels is walked by some query; dots around the joined
name keep its own white space. -/
theorem walkLabels_intercalate {ls : List Str} (h : Canonical ls) (hne : ls ≠ []) :
    walkLabels ('.' :: (['.'].intercalate ls ++ ['.'])) = ls.reverse := by
  have hcut : ('.' :: (['.'].intercalate ls ++ ['.'])).splitOn '.' = [] :: (ls ++ [[]]) := by
    rw [← nil_append ('.' :: _), splitOn_append_cons_self,
      splitOn_append_cons_self, splitOn_intercalate_labels hne fun l hl => (h l hl).2.1]
    rfl
  have hkeep : nonEmpty ([] :: (ls ++ [[]])) = ls := by
    have hls := nonEmpty_eq_self fun l hl => (h l hl).1
    simpa [nonEmpty] using hls
  rw [walkLabels_eq, stem, trim_between_dots, ← nonEmpty_map_toLowercase,
    nonEmpty_splitOn_trimEndMatches, hcut, hkeep, map_toLowercase_of_canonical h]

end Blocklist
end TortaCore
