import TortaCore.Text.Casing
import Mathlib.Data.List.DropRight

/-!
# Trimming and cutting strings

The slicing functions of Rust's `str` on lists of characters: trimming white
space or one character, and cutting at dots into labels.
-/

namespace TortaCore
namespace Text

open List

def trimStart (s : Str) : Str := s.dropWhile isWhitespace

def trimEnd (s : Str) : Str := s.rdropWhile isWhitespace

/-- `str::trim`. -/
def trim (s : Str) : Str := trimEnd (trimStart s)

/-- `str::trim_end_matches` with a single character. -/
def trimEndMatches (c : Char) (s : Str) : Str := s.rdropWhile (· == c)

/-- `split_once`: cut at the first occurrence of a character. -/
def splitOnce (c : Char) (s : Str) : Option (Str × Str) :=
  match s.dropWhile (· != c) with
  | [] => none
  | _ :: rest => some (s.takeWhile (· != c), rest)

/-- The line before a line feed, without the carriage return of a Windows line end. -/
def stripCr (l : Str) : Str := if l.getLast? = some '\r' then l.dropLast else l

/-- `str::lines`: what follows the last line feed is a line only if it is not empty. -/
def lines (s : Str) : List Str :=
  let parts := s.splitOn '\n'
  parts.dropLast.map stripCr ++ (parts.getLast?.toList.filter fun l => !l.isEmpty)

/-- `.filter(|l| !l.is_empty())`. -/
def nonEmpty (ls : List Str) : List Str := ls.filter fun l => !l.isEmpty

/-! ### Trimming -/

theorem isWhitespace_dot : isWhitespace '.' = false := by decide

/-- Marks at both ends protect the text between them from `trim`. -/
theorem trim_between {c : Char} (hc : isWhitespace c = false) (s : Str) :
    trim (c :: (s ++ [c])) = c :: (s ++ [c]) := by
  rw [trim, trimStart, dropWhile_cons_of_neg (by simp [hc]), trimEnd,
    ← cons_append, rdropWhile_concat_neg _ _ _ (by simp [hc])]

theorem trim_between_dots (s : Str) : trim ('.' :: (s ++ ['.'])) = '.' :: (s ++ ['.']) :=
  trim_between isWhitespace_dot s

variable {s : Str} {ls : List Str} {p : Char → Bool}

theorem trim_of_clean (h : ∀ x ∈ s, isWhitespace x = false) : trim s = s := by
  have hstart : trimStart s = s := by
    cases s with
    | nil => rfl
    | cons x s =>
      rw [trimStart, dropWhile_cons_of_neg (by simp [h x mem_cons_self])]
  rw [trim, hstart, trimEnd, rdropWhile_eq_self_iff]
  intro hne
  simp [h _ (getLast_mem hne)]

/-- Text with anything but white space in it is not trimmed away. -/
theorem trim_concat {c : Char} (hc : isWhitespace c = true) (s : Str) :
    trim (s ++ [c]) = trim s := by
  rw [trim, trim, trimStart, trimStart, dropWhile_append]
  split
  · next hnil =>
    rw [List.isEmpty_iff] at hnil
    rw [hnil, dropWhile_cons_of_pos hc, dropWhile_nil]
  · rw [trimEnd, trimEnd, rdropWhile_concat_pos _ _ _ hc]

theorem trim_trim (s : Str) : trim (trim s) = trim s := by
  have hstart : trimStart (trim s) = trim s := by
    rw [trimStart, dropWhile_eq_self_iff]
    intro hlen
    have hpre : trim s <+: trimStart s := rdropWhile_prefix _ _
    rw [IsPrefix.getElem hpre hlen]
    exact dropWhile_get_zero_not _ _ (Nat.lt_of_lt_of_le hlen hpre.length_le)
  rw [trim, hstart]
  exact rdropWhile_idempotent _ _

theorem trim_ne_nil {c : Char} (hc : c ∈ s) (h : isWhitespace c = false) :
    trim s ≠ [] := by
  intro hnil
  rw [trim, trimEnd, rdropWhile_eq_nil_iff, trimStart] at hnil
  -- the part behind the leading white space would begin with white space
  cases hs : s.dropWhile isWhitespace with
  | nil =>
    rw [dropWhile_eq_nil_iff] at hs
    exact absurd (hs c hc) (by simp [h])
  | cons x rest =>
    have hx := hnil x (by rw [hs]; exact mem_cons_self)
    have hhead := head_dropWhile_not isWhitespace (w := by rw [hs]; exact cons_ne_nil _ _)
    simp [hs, hx] at hhead

/-! ### Empty labels -/

theorem mem_nonEmpty {l : Str} : l ∈ nonEmpty ls ↔ l ∈ ls ∧ l ≠ [] := by
  simp [nonEmpty, mem_filter]

theorem nonEmpty_eq_self (h : ∀ l ∈ ls, l ≠ []) : nonEmpty ls = ls := by
  rw [nonEmpty, filter_eq_self]
  intro l hl
  simpa using h l hl

theorem intercalate_ne_nil (hne : ls ≠ []) (h : ∀ l ∈ ls, l ≠ []) :
    ['.'].intercalate ls ≠ [] := by
  cases ls with
  | nil => exact absurd rfl hne
  | cons l ls =>
    have hl := h l mem_cons_self
    cases ls with
    | nil => simpa using hl
    | cons m ls => simp [intercalate_cons_cons, hl]

/-- A character of a joined text is the separator or stands in a piece. -/
theorem mem_intercalate {d x : Char} (h : x ∈ [d].intercalate ls) :
    x = d ∨ ∃ l ∈ ls, x ∈ l := by
  induction ls with
  | nil => simp at h
  | cons l ls ih =>
    cases ls with
    | nil =>
      rw [intercalate_singleton] at h
      exact .inr ⟨l, mem_singleton_self l, h⟩
    | cons m ls =>
      rw [intercalate_cons_cons, mem_append, mem_append] at h
      rcases h with (h | h) | h
      · exact .inr ⟨l, mem_cons_self, h⟩
      · exact .inl (mem_singleton.mp h)
      · rcases ih h with hx | ⟨n, hn, hx⟩
        · exact .inl hx
        · exact .inr ⟨n, mem_cons_of_mem _ hn, hx⟩

theorem length_splitOnP (t : Str) : (t.splitOnP p).length = t.countP p + 1 := by
  induction t with
  | nil => rfl
  | cons x t ih =>
    rw [splitOnP_cons_eq_if_modifyHead, countP_cons]
    split
    · rw [length_cons, ih]
    · rw [length_modifyHead, ih, Nat.add_zero]

/-- A word stands in the text as it is. -/
theorem infix_of_mem_splitOnP {t w : Str} (h : w ∈ t.splitOnP p) : w <:+: t := by
  obtain ⟨i, hi, rfl⟩ := mem_iff_getElem.mp h
  -- the text is its words, each with the separator behind it
  have hlen : i < (zipWith (· ++ ·) (t.splitOnP p)
      ((t.filter p).map (fun x => [x]) ++ [[]])).length := by
    rwa [length_zipWith, length_append, length_map, ← countP_eq_length_filter,
      length_singleton, ← length_splitOnP, Nat.min_self]
  have hword := infix_of_mem_flatten (getElem_mem hlen)
  rw [splitOnP_spec, getElem_zipWith] at hword
  exact (prefix_append _ _).isInfix.trans hword

theorem mem_of_mem_splitOn {d x : Char} {s l : Str} (h : l ∈ s.splitOn d) (hx : x ∈ l) : x ∈ s :=
  (infix_of_mem_splitOnP h).subset hx

/-- A text without separators stays whole at the front of the first word. -/
theorem splitOnP_append_eq_cons (hs : ∀ x ∈ s, p x = false)
    (t : Str) : ∃ w ws, (s ++ t).splitOnP p = w :: ws ∧ s <+: w := by
  induction s with
  | nil =>
    obtain ⟨w, ws, hsplit⟩ := exists_cons_of_ne_nil (splitOnP_ne_nil p t)
    exact ⟨w, ws, hsplit, nil_prefix⟩
  | cons x s ih =>
    obtain ⟨w, ws, hsplit, hpre⟩ := ih fun y hy => hs y (mem_cons_of_mem _ hy)
    refine ⟨x :: w, ws, ?_, cons_prefix_cons.mpr ⟨rfl, hpre⟩⟩
    rw [cons_append, splitOnP_cons_eq_if_modifyHead, hsplit, if_neg (by simp [hs x mem_cons_self])]
    rfl

/-- A text without separators stands in another where it stands in one of its words. -/
theorem infix_iff_exists_mem_splitOnP (hs : ∀ x ∈ s, p x = false)
    (t : Str) : s <:+: t ↔ ∃ w ∈ t.splitOnP p, s <:+: w := by
  constructor
  · rintro ⟨a, b, rfl⟩
    rw [append_assoc]
    induction a with
    | nil =>
      obtain ⟨w, ws, hsplit, hpre⟩ := splitOnP_append_eq_cons hs b
      rw [nil_append, hsplit]
      exact ⟨w, mem_cons_self, hpre.isInfix⟩
    | cons x a ih =>
      obtain ⟨w, hw, hin⟩ := ih
      rw [cons_append, splitOnP_cons_eq_if_modifyHead]
      split
      · exact ⟨w, mem_cons_of_mem _ hw, hin⟩
      cases hsplit : (a ++ (s ++ b)).splitOnP p with
      | nil => exact absurd hsplit (splitOnP_ne_nil p _)
      | cons u us =>
        rw [hsplit] at hw
        rcases mem_cons.mp hw with rfl | hw
        · exact ⟨x :: w, mem_cons_self, infix_cons hin⟩
        · exact ⟨w, mem_cons_of_mem _ hw, hin⟩
  · rintro ⟨w, hw, hin⟩
    exact hin.trans (infix_of_mem_splitOnP hw)

/-- Labels without dots are recovered from their joined form. -/
theorem splitOn_intercalate_labels (hne : ls ≠ []) (h : ∀ l ∈ ls, '.' ∉ l) :
    (['.'].intercalate ls).splitOn '.' = ls :=
  splitOn_intercalate _ h hne

theorem dot_notMem_nonEmpty_splitOn {s l : Str} (h : l ∈ nonEmpty (s.splitOn '.')) : '.' ∉ l :=
  notMem_of_mem_splitOn (mem_nonEmpty.mp h).1

/-- Every character but a dot is in some label. -/
theorem exists_mem_splitOn {x : Char} (hx : x ∈ s) (hdot : x ≠ '.') :
    ∃ l ∈ nonEmpty (s.splitOn '.'), x ∈ l := by
  have hjoin : x ∈ ['.'].intercalate (s.splitOn '.') := by rwa [intercalate_splitOn]
  obtain rfl | ⟨l, hl, hxl⟩ := mem_intercalate hjoin
  · exact absurd rfl hdot
  · exact ⟨l, mem_nonEmpty.mpr ⟨hl, ne_nil_of_mem hxl⟩, hxl⟩

/-- Joining the labels that were kept and cutting again gives them back. -/
theorem splitOn_intercalate_nonEmpty (h : nonEmpty (s.splitOn '.') ≠ []) :
    (['.'].intercalate (nonEmpty (s.splitOn '.'))).splitOn '.' = nonEmpty (s.splitOn '.') :=
  splitOn_intercalate_labels h fun _ hl => dot_notMem_nonEmpty_splitOn hl

theorem intercalate_nonEmpty_eq_nil :
    ['.'].intercalate (nonEmpty (s.splitOn '.')) = [] ↔ nonEmpty (s.splitOn '.') = [] := by
  constructor
  · intro h
    by_contra hne
    exact intercalate_ne_nil hne (fun l hl => (mem_nonEmpty.mp hl).2) h
  · intro h
    rw [h]
    rfl

theorem length_intercalate_nonEmpty_le (ls : List Str) :
    (['.'].intercalate (nonEmpty ls)).length ≤ (['.'].intercalate ls).length := by
  induction ls with
  | nil => simp [nonEmpty]
  | cons l ls ih =>
    -- joining one more label costs its length and, between labels, a dot
    have hjoin : ∀ ms : List Str, (['.'].intercalate (l :: ms)).length =
        l.length + if ms = [] then 0 else 1 + (['.'].intercalate ms).length := by
      intro ms
      cases ms with
      | nil => simp
      | cons m ms =>
        rw [intercalate_cons_cons, length_append, length_append]
        simp only [length_singleton, reduceCtorEq, if_false]
        omega
    by_cases hl : l = []
    · have hdrop : nonEmpty (l :: ls) = nonEmpty ls := by simp [nonEmpty, hl]
      rw [hdrop, hjoin]
      split
      · next hls => simp [hls, nonEmpty]
      · omega
    · have hkeep : nonEmpty (l :: ls) = l :: nonEmpty ls := by simp [nonEmpty, hl]
      rw [hkeep, hjoin, hjoin]
      by_cases hls : ls = []
      · simp [hls, nonEmpty]
      · split <;> omega

/-- Trailing dots only make empty labels. -/
theorem nonEmpty_splitOn_trimEndMatches (s : Str) :
    nonEmpty ((trimEndMatches '.' s).splitOn '.') = nonEmpty (s.splitOn '.') := by
  induction s using reverseRecOn with
  | nil => rfl
  | append_singleton s c ih =>
    by_cases hc : c = '.'
    · rw [trimEndMatches, rdropWhile_concat_pos _ _ _ (by simp [hc]), ← trimEndMatches, ih,
        hc, splitOn_append_cons_self]
      simp [nonEmpty]
    · rw [trimEndMatches, rdropWhile_concat_neg _ _ _ (by simpa using hc)]

/-! ### Empty labels and case -/

/-- Two label lists of the same shape: empty labels at the same places. -/
def SameShape (ls ms : List Str) : Prop := List.Forall₂ (fun l m => l = [] ↔ m = []) ls ms

theorem sameShape_lowerLabels (ls : List Str) (b a : Str) :
    SameShape (lowerLabels b ls a) (ls.map toLowercase) := by
  induction ls generalizing b a with
  | nil => exact .nil
  | cons l ls ih =>
    cases ls with
    | nil => exact .cons (by rw [lowerIn_eq_nil, toLowercase, lowerIn_eq_nil]) .nil
    | cons m ls => exact .cons (by rw [lowerIn_eq_nil, toLowercase, lowerIn_eq_nil]) (ih _ a)

theorem SameShape.length_nonEmpty {ls ms : List Str} (h : SameShape ls ms) :
    (nonEmpty ls).length = (nonEmpty ms).length := by
  induction h with
  | nil => rfl
  | @cons l m ls ms hlm _ ih =>
    by_cases hl : l = []
    · simpa [nonEmpty, hl, hlm.mp hl] using ih
    · have hm : m ≠ [] := fun hm => hl (hlm.mpr hm)
      simpa [nonEmpty, hl, hm] using ih

/-- Lists of the same shape that keep the same labels were the same. -/
theorem SameShape.nonEmpty_eq_iff {ls ms : List Str} (h : SameShape ls ms) :
    nonEmpty ls = nonEmpty ms ↔ ls = ms := by
  induction h with
  | nil => simp
  | @cons l m ls ms hlm _ ih =>
    by_cases hl : l = []
    · have hm := hlm.mp hl
      simpa [nonEmpty, hl, hm] using ih
    · have hm : m ≠ [] := fun hm => hl (hlm.mpr hm)
      simpa [nonEmpty, hl, hm] using fun _ => ih

/-- Dropping empty labels hides no difference between lowercasing a name as a whole
and label by label. -/
theorem nonEmpty_lowerLabels_eq_iff (s : Str) :
    nonEmpty ((toLowercase s).splitOn '.') = nonEmpty ((s.splitOn '.').map toLowercase) ↔
      sigmaLocal [] s = true := by
  rw [← splitOn_toLowercase_iff, toLowercase, splitOn_lowerIn]
  exact (sameShape_lowerLabels _ [] []).nonEmpty_eq_iff

theorem length_nonEmpty_lowerLabels (s : Str) :
    (nonEmpty ((toLowercase s).splitOn '.')).length =
      (nonEmpty ((s.splitOn '.').map toLowercase)).length := by
  rw [toLowercase, splitOn_lowerIn]
  exact (sameShape_lowerLabels _ [] []).length_nonEmpty

end Text
end TortaCore
