import TortaCore.Text.Number
import TortaCore.Text.Slice

/-!
# Tab-separated ledgers

A ledger is a text of lines: a title behind `#`, the totals behind `#meta `, and one row for
each entry, its fields separated by tabs.  Nothing is escaped.  The reader skips the lines
that begin with `#` or are blank, and the rows that it cannot make an entry of.

## Main definitions

* `printLedger`, `readLedger`: the two directions, over what a token of the totals and what
  the fields of a row mean.

## Main results

* `lines_unlines`: the lines of a text that was put together from pieces.
* `splitOn_tabbed`: the fields of a row.
* `fst_readLedger_printLedger`, `snd_readLedger_printLedger`: as long as no field holds a line
  feed, a ledger is read row by row as it was printed.
-/

namespace TortaCore
namespace Text

open List

/-- `str::split_whitespace`. -/
def splitWhitespace (s : Str) : List Str := nonEmpty (s.splitOnP isWhitespace)

def unlines (ls : List Str) : Str := ls.flatMap fun l => l ++ ['\n']

def tabbed (fields : List Str) : Str := ['\t'].intercalate fields

/-- The mark in front of the totals. -/
def totalsMark : Str := "#meta ".toList

def printLedger (title : Str) (tokens : List Str) (rows : List (List Str)) : Str :=
  unlines (('#' :: title) :: (totalsMark ++ [' '].intercalate tokens) :: rows.map tabbed)

section Reader

variable {ε μ : Type*} (onToken : μ → Str → μ) (onRow : List Str → Option ε)

/-- What one line does to the totals. -/
def totalsOf (m : μ) (line : Str) : μ :=
  match line.dropPrefix? totalsMark with
  | some tokens => (splitWhitespace tokens).foldl onToken m
  | none => m

/-- The entry of one line. -/
def rowOf (line : Str) : Option ε :=
  if line.head? = some '#' ∨ trim line = [] then none else onRow (line.splitOn '\t')

/-- One turn of the reader's loop. -/
def readLine (acc : List ε × μ) (line : Str) : List ε × μ :=
  match line.dropPrefix? totalsMark with
  | some tokens => (acc.1, (splitWhitespace tokens).foldl onToken acc.2)
  | none =>
    if line.head? = some '#' ∨ trim line = [] then acc
    else match onRow (line.splitOn '\t') with
      | some e => (acc.1 ++ [e], acc.2)
      | none => acc

def readLedger (m : μ) (body : Str) : List ε × μ :=
  (lines body).foldl (readLine onToken onRow) ([], m)

end Reader

/-! ### Cutting at a character -/

/-- A text that was put together from pieces has the lines of the pieces. -/
theorem lines_unlines (ls : List Str) :
    lines (unlines ls) = (ls.flatMap fun l => l.splitOn '\n').map stripCr := by
  have hsplit : (unlines ls).splitOn '\n' = (ls.flatMap fun l => l.splitOn '\n') ++ [[]] := by
    induction ls with
    | nil => rfl
    | cons l ls ih =>
      have hcons : unlines (l :: ls) = l ++ '\n' :: unlines ls := by simp [unlines]
      rw [hcons, splitOn_append_cons_self, ih, flatMap_cons, append_assoc]
  simp [lines, hsplit]

theorem lines_unlines_of_notMem {ls : List Str} (h : ∀ l ∈ ls, '\n' ∉ l) :
    lines (unlines ls) = ls.map stripCr := by
  have hsplit : (ls.flatMap fun l => l.splitOn '\n') = ls := by
    induction ls with
    | nil => rfl
    | cons l ls ih =>
      rw [flatMap_cons, splitOn_eq_singleton (h l mem_cons_self),
        ih fun m hm => h m (mem_cons_of_mem _ hm), singleton_append]
  rw [lines_unlines, hsplit]

theorem notMem_of_mem_lines {s l : Str} (h : l ∈ lines s) : '\n' ∉ l := by
  have hparts : ∀ p ∈ s.splitOn '\n', '\n' ∉ p := fun p hp => notMem_of_mem_splitOn hp
  rw [lines, mem_append] at h
  rcases h with h | h
  · obtain ⟨p, hp, rfl⟩ := mem_map.mp h
    have hp' := hparts p (dropLast_subset _ hp)
    rw [stripCr]
    split
    · exact fun hmem => hp' (dropLast_subset _ hmem)
    · exact hp'
  · have hlast := (mem_filter.mp h).1
    rw [Option.mem_toList] at hlast
    exact hparts l (mem_of_getLast? hlast)

theorem splitOn_tabbed {fields : List Str} (hne : fields ≠ []) :
    (tabbed fields).splitOn '\t' = fields.flatMap fun f => f.splitOn '\t' := by
  induction fields with
  | nil => exact absurd rfl hne
  | cons f fields ih =>
    cases fields with
    | nil => simp [tabbed]
    | cons g fields =>
      have hjoin : tabbed (f :: g :: fields) = f ++ '\t' :: tabbed (g :: fields) := by
        simp [tabbed, intercalate_cons_cons]
      rw [hjoin, splitOn_append_cons_self, ih (cons_ne_nil _ _)]
      rfl

theorem mem_tabbed {fields : List Str} {f : Str} {c : Char} (hf : f ∈ fields) (hc : c ∈ f) :
    c ∈ tabbed fields := by
  induction fields with
  | nil => cases hf
  | cons g fields ih =>
    cases fields with
    | nil =>
      rw [mem_singleton.mp hf] at hc
      simpa [tabbed] using hc
    | cons h fields =>
      have hjoin : tabbed (g :: h :: fields) = g ++ '\t' :: tabbed (h :: fields) := by
        simp [tabbed, intercalate_cons_cons]
      rw [hjoin, mem_append, mem_cons]
      rcases mem_cons.mp hf with rfl | hf
      · exact .inl hc
      · exact .inr (.inr (ih hf))

theorem head?_tabbed {f : Str} (hne : f ≠ []) (fields : List Str) :
    (tabbed (f :: fields)).head? = f.head? := by
  cases fields with
  | nil => simp [tabbed]
  | cons g fields =>
    rw [tabbed, intercalate_cons_cons, append_assoc, head?_append_of_ne_nil _ hne]

/-! ### Tokens -/

theorem splitWhitespace_intercalate {tokens : List Str} (hne : ∀ t ∈ tokens, t ≠ [])
    (h : ∀ t ∈ tokens, ∀ x ∈ t, isWhitespace x = false) :
    splitWhitespace ([' '].intercalate tokens) = tokens := by
  have hspace : isWhitespace ' ' = true := by decide
  cases tokens with
  | nil => rfl
  | cons t tokens =>
    have hsplit : ([' '].intercalate (t :: tokens)).splitOnP isWhitespace = t :: tokens := by
      induction tokens generalizing t with
      | nil =>
        rw [intercalate_singleton]
        exact splitOnP_eq_singleton (h t mem_cons_self)
      | cons u tokens ih =>
        have hjoin : [' '].intercalate (t :: u :: tokens) =
            t ++ ' ' :: [' '].intercalate (u :: tokens) := by
          simp [intercalate_cons_cons]
        rw [hjoin, splitOnP_append_cons _ _ hspace, splitOnP_eq_singleton (h t mem_cons_self),
          ih u (fun v hv => hne v (mem_cons_of_mem _ hv))
            (fun v hv => h v (mem_cons_of_mem _ hv)), singleton_append]
    rw [splitWhitespace, hsplit, nonEmpty_eq_self hne]

/-! ### The reader -/

section Reader

variable {ε μ : Type*} {onToken : μ → Str → μ} {onRow : List Str → Option ε}

theorem head?_of_dropPrefix? {line tokens : Str}
    (h : line.dropPrefix? totalsMark = some tokens) : line.head? = some '#' := by
  obtain ⟨p, rfl, hp⟩ := dropPrefix?_eq_some_iff.mp h
  rw [eq_of_beq hp]
  rfl

theorem rowOf_eq_none {line : Str} (h : line.head? = some '#') : rowOf onRow line = none :=
  if_pos (.inl h)

theorem totalsOf_of_head? {line : Str} (h : line.head? ≠ some '#') (m : μ) :
    totalsOf onToken m line = m := by
  unfold totalsOf
  split
  · next tokens htokens => exact absurd (head?_of_dropPrefix? htokens) h
  · rfl

theorem readLine_eq (acc : List ε × μ) (line : Str) :
    readLine onToken onRow acc line =
      (acc.1 ++ (rowOf onRow line).toList, totalsOf onToken acc.2 line) := by
  unfold readLine totalsOf
  split
  · next tokens htokens => simp [rowOf_eq_none (head?_of_dropPrefix? htokens)]
  · unfold rowOf
    split
    · simp
    · cases onRow (line.splitOn '\t') <;> simp

/-- The rows and the totals are read independently of each other. -/
theorem readLedger_eq (m : μ) (body : Str) :
    readLedger onToken onRow m body =
      ((lines body).filterMap (rowOf onRow), (lines body).foldl (totalsOf onToken) m) := by
  have hfold : ∀ (ls : List Str) (acc : List ε × μ),
      ls.foldl (readLine onToken onRow) acc =
        (acc.1 ++ ls.filterMap (rowOf onRow), ls.foldl (totalsOf onToken) acc.2) := by
    intro ls
    induction ls with
    | nil => intro acc; simp
    | cons l ls ih =>
      intro acc
      rw [foldl_cons, ih, readLine_eq, foldl_cons, filterMap_cons]
      cases rowOf onRow l <;> simp
  rw [readLedger, hfold, nil_append]

/-- A text that is one line and is read as it stands. -/
def OneLine (l : Str) : Prop := '\n' ∉ l ∧ l.getLast? ≠ some '\r'

instance (l : Str) : Decidable (OneLine l) := inferInstanceAs (Decidable (_ ∧ _))

theorem OneLine.stripCr {l : Str} (h : OneLine l) : stripCr l = l := if_neg h.2

/-- Tokens can stand among the totals. -/
def Tokens (tokens : List Str) : Prop :=
  ∀ t ∈ tokens, t ≠ [] ∧ ∀ x ∈ t, isWhitespace x = false

/-- A key without white space and a number. -/
theorem token_decimal {key : Str} (hkey : (key.all fun x => !isWhitespace x) = true) (n : ℕ) :
    key ++ decimal n ≠ [] ∧ ∀ x ∈ key ++ decimal n, isWhitespace x = false := by
  refine ⟨append_ne_nil_of_right_ne_nil _ (decimal_ne_nil n), fun x hx => ?_⟩
  rcases mem_append.mp hx with hx | hx
  · simpa using all_eq_true.mp hkey x hx
  · exact isWhitespace_of_mem_decimal hx

theorem oneLine_totals {tokens : List Str} (h : Tokens tokens) :
    OneLine (totalsMark ++ [' '].intercalate tokens) := by
  have hchars : ∀ x ∈ totalsMark ++ [' '].intercalate tokens, x ≠ '\n' ∧ x ≠ '\r' := by
    intro x hx
    rcases mem_append.mp hx with hx | hx
    · have hmark : (totalsMark.all fun x => x != '\n' && x != '\r') = true := by decide +kernel
      simpa using all_eq_true.mp hmark x hx
    rcases mem_intercalate hx with rfl | ⟨t, ht, hxt⟩
    · exact ⟨by decide, by decide⟩
    -- a token holds no white space at all
    have hclean := (h t ht).2 x hxt
    constructor
    · rintro rfl
      exact absurd hclean (by decide)
    · rintro rfl
      exact absurd hclean (by decide)
  exact ⟨fun hmem => (hchars _ hmem).1 rfl, fun hlast =>
    (hchars _ (mem_of_getLast? hlast)).2 rfl⟩

theorem oneLine_tabbed (fields : List Str) (final : Str) (hfields : ∀ f ∈ fields, '\n' ∉ f)
    (hne : final ≠ []) (hfinal : OneLine final) : OneLine (tabbed (fields ++ [final])) := by
  have hend : ∃ front, tabbed (fields ++ [final]) = front ++ final := by
    induction fields with
    | nil => exact ⟨[], by simp [tabbed]⟩
    | cons f fields ih =>
      obtain ⟨front, hfront⟩ := ih fun g hg => hfields g (mem_cons_of_mem _ hg)
      refine ⟨f ++ '\t' :: front, ?_⟩
      have hcons : tabbed (f :: (fields ++ [final])) = f ++ '\t' :: tabbed (fields ++ [final]) := by
        cases fields <;> simp [tabbed, intercalate_cons_cons]
      rw [cons_append, hcons, hfront, append_assoc, cons_append]
  constructor
  · intro hmem
    rcases mem_intercalate hmem with h | ⟨f, hf, h⟩
    · exact absurd h (by decide)
    · rcases mem_append.mp hf with hf | hf
      · exact hfields f hf h
      · exact hfinal.1 (mem_singleton.mp hf ▸ h)
  · obtain ⟨front, hfront⟩ := hend
    rw [hfront, getLast?_append_of_ne_nil _ hne]
    exact hfinal.2

variable {title : Str} {tokens : List Str} {rows : List (List Str)}

theorem lines_printLedger (htitle : OneLine ('#' :: title)) (htokens : Tokens tokens)
    (hrows : ∀ r ∈ rows, OneLine (tabbed r)) :
    lines (printLedger title tokens rows) =
      ('#' :: title) :: (totalsMark ++ [' '].intercalate tokens) :: rows.map tabbed := by
  have hall : ∀ l ∈ ('#' :: title) :: (totalsMark ++ [' '].intercalate tokens) ::
      rows.map tabbed, OneLine l := by
    intro l hl
    rcases mem_cons.mp hl with rfl | hl
    · exact htitle
    rcases mem_cons.mp hl with rfl | hl
    · exact oneLine_totals htokens
    · obtain ⟨r, hr, rfl⟩ := mem_map.mp hl
      exact hrows r hr
  rw [printLedger, lines_unlines_of_notMem fun l hl => (hall l hl).1]
  exact (map_congr_left fun l hl => (hall l hl).stripCr).trans (map_id _)

/-- The rows of a printed ledger are read one by one. -/
theorem fst_readLedger_printLedger (htitle : OneLine ('#' :: title)) (htokens : Tokens tokens)
    (hrows : ∀ r ∈ rows, OneLine (tabbed r)) (m : μ) :
    (readLedger onToken onRow m (printLedger title tokens rows)).1 =
      rows.filterMap fun r => rowOf onRow (tabbed r) := by
  have hmark : (totalsMark ++ [' '].intercalate tokens).head? = some '#' := rfl
  rw [readLedger_eq, lines_printLedger htitle htokens hrows,
    filterMap_cons_none (rowOf_eq_none rfl), filterMap_cons_none (rowOf_eq_none hmark),
    filterMap_map]
  rfl

/-- Rows that are not comments leave the totals as they were printed. -/
theorem snd_readLedger_printLedger (htitle : OneLine ('#' :: title))
    (hmark : ('#' :: title).dropPrefix? totalsMark = none) (htokens : Tokens tokens)
    (hrows : ∀ r ∈ rows, OneLine (tabbed r) ∧ (tabbed r).head? ≠ some '#') (m : μ) :
    (readLedger onToken onRow m (printLedger title tokens rows)).2 = tokens.foldl onToken m := by
  have htitle' : totalsOf onToken m ('#' :: title) = m := by rw [totalsOf, hmark]
  have htotals : totalsOf onToken m (totalsMark ++ [' '].intercalate tokens) =
      tokens.foldl onToken m := by
    have hdrop : (totalsMark ++ [' '].intercalate tokens).dropPrefix? totalsMark =
        some ([' '].intercalate tokens) :=
      dropPrefix?_eq_some_iff.mpr ⟨totalsMark, rfl, by simp⟩
    rw [totalsOf, hdrop]
    exact congrArg (foldl onToken m)
      (splitWhitespace_intercalate (fun t ht => (htokens t ht).1) fun t ht => (htokens t ht).2)
  have hrest : ∀ (rs : List (List Str)) (n : μ), (∀ r ∈ rs, (tabbed r).head? ≠ some '#') →
      (rs.map tabbed).foldl (totalsOf onToken) n = n := by
    intro rs
    induction rs with
    | nil => intro n _; rfl
    | cons r rs ih =>
      intro n h
      rw [map_cons, foldl_cons, totalsOf_of_head? (h r mem_cons_self)]
      exact ih n fun q hq => h q (mem_cons_of_mem _ hq)
  rw [readLedger_eq, lines_printLedger htitle htokens fun r hr => (hrows r hr).1,
    foldl_cons, foldl_cons, htitle', htotals]
  exact hrest rows _ fun r hr => (hrows r hr).2

end Reader

end Text
end TortaCore
