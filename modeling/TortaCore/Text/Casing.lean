import TortaCore.Text.Unicode

/-!
# Lowercasing a string

`toLowercase` maps a string to lowercase with the full Unicode mapping.  The
mapping is per character except for one rule: a capital sigma becomes the final
form `ς` when it ends a word — when the nearest character before it that is not
case-ignorable is cased and the nearest one after it is not — and `σ` otherwise.
The context of a sigma is the whole string, so lowercasing is not compatible
with cutting a string into pieces; `lowerIn` lowers a piece in the context it was
cut from.

## Main results

* `splitOn_lowerIn` — the labels of the lowercased string are its labels
  lowercased in context.
* `lowerIn_eq_lowerIn_iff` — two contexts lower a string alike exactly when they
  agree on every capital sigma.
* `splitOn_toLowercase_iff` — **lowercasing commutes with cutting into labels
  exactly when no label boundary changes a word-final test.**
-/

namespace TortaCore
namespace Text

open List

/-- The nearest character that is not case-ignorable is cased. -/
def caseIgnorableThenCased (s : Str) : Bool :=
  match s.dropWhile caseIgnorable with
  | [] => false
  | c :: _ => cased c

/-- The word-final test for a capital sigma: `before` is what precedes it, nearest
character first, and `after` is what follows. -/
def finalSigma (before after : Str) : Bool :=
  caseIgnorableThenCased before && !caseIgnorableThenCased after

/-- The lowercase form of `c` in its context. -/
def lowerAt (before : Str) (c : Char) (after : Str) : Str :=
  if c = 'Σ' then [if finalSigma before after then 'ς' else 'σ'] else toLower c

/-- Lowercase the piece `s` of a string, given what precedes it (nearest character
first) and what follows it. -/
def lowerIn (before : Str) : Str → Str → Str
  | [], _ => []
  | c :: cs, after => lowerAt before c (cs ++ after) ++ lowerIn (c :: before) cs after

/-- `str::to_lowercase`. -/
def toLowercase (s : Str) : Str := lowerIn [] s []

@[simp] theorem lowerIn_nil (b a : Str) : lowerIn b [] a = [] := rfl

theorem lowerIn_cons (b : Str) (c : Char) (cs a : Str) :
    lowerIn b (c :: cs) a = lowerAt b c (cs ++ a) ++ lowerIn (c :: b) cs a := rfl

theorem lowerIn_append (s t : Str) (b a : Str) :
    lowerIn b (s ++ t) a = lowerIn b s (t ++ a) ++ lowerIn (s.reverse ++ b) t a := by
  induction s generalizing b a with
  | nil => rfl
  | cons c s ih =>
    simp only [cons_append, lowerIn_cons, ih, append_assoc, reverse_cons, nil_append]

/-! ### The characters of a lowercased string -/

theorem lowerAt_ne_nil (b : Str) (c : Char) (a : Str) : lowerAt b c a ≠ [] := by
  unfold lowerAt
  split
  · simp
  · exact toLower_ne_nil c

theorem toLower_of_mem_lowerAt {b a : Str} {c x : Char} (h : x ∈ lowerAt b c a) :
    toLower x = [x] ∧ x ≠ 'Σ' := by
  unfold lowerAt at h
  split at h
  · rw [mem_singleton] at h
    subst h
    split <;> exact ⟨by decide +kernel, by decide⟩
  · exact toLower_of_mem_toLower h

theorem eq_of_mem_lowerAt {b a : Str} {c x : Char} (h : x ∈ lowerAt b c a)
    (hx : x = '.' ∨ isWhitespace x = true) : x = c := by
  unfold lowerAt at h
  split at h
  · rw [mem_singleton] at h
    subst h
    exact absurd hx (by split <;> decide +kernel)
  · exact eq_of_mem_toLower h hx

theorem mem_lowerIn {x : Char} {s b a : Str} (h : x ∈ lowerIn b s a) :
    ∃ c ∈ s, ∃ b' a', x ∈ lowerAt b' c a' := by
  induction s generalizing b with
  | nil => simp at h
  | cons c s ih =>
    rw [lowerIn_cons, mem_append] at h
    rcases h with h | h
    · exact ⟨c, mem_cons_self, _, _, h⟩
    · obtain ⟨c', hc', h'⟩ := ih h
      exact ⟨c', mem_cons_of_mem _ hc', h'⟩

theorem toLower_of_mem_lowerIn {x : Char} {s b a : Str} (h : x ∈ lowerIn b s a) :
    toLower x = [x] ∧ x ≠ 'Σ' := by
  obtain ⟨c, -, b', a', hx⟩ := mem_lowerIn h
  exact toLower_of_mem_lowerAt hx

/-- Dots and white space in a lowercased string were there before. -/
theorem mem_of_mem_lowerIn {x : Char} {s b a : Str} (h : x ∈ lowerIn b s a)
    (hx : x = '.' ∨ isWhitespace x = true) : x ∈ s := by
  obtain ⟨c, hc, b', a', hxc⟩ := mem_lowerIn h
  rwa [eq_of_mem_lowerAt hxc hx]

theorem lowerIn_of_fixed : ∀ {s : Str}, (∀ x ∈ s, toLower x = [x] ∧ x ≠ 'Σ') →
    ∀ b a : Str, lowerIn b s a = s := by
  intro s
  induction s with
  | nil => intro _ b a; rfl
  | cons c s ih =>
    intro h b a
    obtain ⟨hc, hs⟩ := h c mem_cons_self
    rw [lowerIn_cons, ih (fun x hx => h x (mem_cons_of_mem _ hx)), lowerAt, if_neg hs, hc]
    rfl

theorem lowerIn_eq_nil {s b a : Str} : lowerIn b s a = [] ↔ s = [] := by
  cases s with
  | nil => simp
  | cons c s => simp [lowerIn_cons, lowerAt_ne_nil]

theorem length_lowerAt_le (b : Str) (c : Char) (a : Str) : (lowerAt b c a).length ≤ 2 := by
  unfold lowerAt
  split
  · simp
  · rcases toLower_cases c with ⟨-, h⟩ | ⟨-, h⟩ | ⟨-, _, -, -, h⟩ | ⟨-, -, -, h⟩ <;> simp [h]

/-- Lowercasing at most doubles a string. -/
theorem length_lowerIn_le (s b a : Str) : (lowerIn b s a).length ≤ 2 * s.length := by
  induction s generalizing b a with
  | nil => simp
  | cons c s ih =>
    have hc := length_lowerAt_le b c (s ++ a)
    have hs := ih (c :: b) a
    rw [lowerIn_cons, length_append, length_cons]
    omega

/-! ### Labels -/

theorem lowerAt_dot (b a : Str) : lowerAt b '.' a = ['.'] := by
  rw [lowerAt, if_neg (by decide), toLower_dot]

theorem dot_notMem_lowerIn {s : Str} (h : '.' ∉ s) (b a : Str) : '.' ∉ lowerIn b s a :=
  fun hd => h (mem_of_mem_lowerIn hd (Or.inl rfl))

theorem notMem_of_mem_splitOn {α : Type*} [BEq α] [LawfulBEq α] {x : α} {s l : List α}
    (h : l ∈ s.splitOn x) : x ∉ l := by
  induction s generalizing l with
  | nil =>
    rw [splitOn_nil, mem_singleton] at h
    simp [h]
  | cons y s ih =>
    rw [splitOn_cons_eq_if_modifyHead] at h
    split at h
    · rcases mem_cons.mp h with rfl | h
      · simp
      · exact ih h
    next hy =>
    cases hs : s.splitOn x with
    | nil => exact absurd hs (splitOn_ne_nil _ _)
    | cons m ms =>
      rw [hs, modifyHead_cons, mem_cons] at h
      rcases h with rfl | h
      · have hyx : x ≠ y := fun hyx => hy (by simp [hyx])
        simp [hyx, ih (hs ▸ mem_cons_self)]
      · exact ih (hs ▸ mem_cons_of_mem _ h)

/-- The labels of a dotted string, each lowercased in the context the others make. -/
def lowerLabels (before : Str) : List Str → Str → List Str
  | [], _ => []
  | [l], after => [lowerIn before l after]
  | l :: m :: ls, after =>
      lowerIn before l ('.' :: ['.'].intercalate (m :: ls) ++ after) ::
        lowerLabels ('.' :: l.reverse ++ before) (m :: ls) after

/-- The labels of a lowercased string are its labels lowercased in context. -/
theorem splitOn_lowerIn_intercalate : ∀ (ls : List Str), ls ≠ [] → (∀ l ∈ ls, '.' ∉ l) →
    ∀ b a : Str,
      (lowerIn b (['.'].intercalate ls) a).splitOn '.' = lowerLabels b ls a := by
  intro ls
  induction ls with
  | nil => intro h; exact absurd rfl h
  | cons l ls ih =>
    intro _ hd b a
    cases ls with
    | nil =>
      rw [intercalate_singleton, lowerLabels,
        splitOn_eq_singleton (dot_notMem_lowerIn (hd l mem_cons_self) b a)]
    | cons m ls =>
      rw [intercalate_cons_cons, append_assoc, lowerIn_append, lowerLabels, singleton_append,
        lowerIn_cons, lowerAt_dot, singleton_append, splitOn_append_cons_self_of_not_mem
          (dot_notMem_lowerIn (hd l mem_cons_self) _ _)]
      rw [ih (by simp) (fun l' hl' => hd l' (mem_cons_of_mem _ hl'))]
      rfl

theorem splitOn_lowerIn (s b a : Str) :
    (lowerIn b s a).splitOn '.' = lowerLabels b (s.splitOn '.') a := by
  have h := splitOn_lowerIn_intercalate (s.splitOn '.') (splitOn_ne_nil _ _)
    (fun l hl => notMem_of_mem_splitOn hl) b a
  rwa [intercalate_splitOn] at h

/-! ### Comparing contexts -/

/-- Two contexts give the same word-final test at every capital sigma of the
string. -/
def SigmaAgree (b a b' a' : Str) : Str → Prop
  | [] => True
  | c :: cs => (c = 'Σ' → finalSigma b (cs ++ a) = finalSigma b' (cs ++ a')) ∧
      SigmaAgree (c :: b) a (c :: b') a' cs

theorem length_lowerAt (b b' a a' : Str) (c : Char) :
    (lowerAt b c a).length = (lowerAt b' c a').length := by
  unfold lowerAt
  split <;> rfl

theorem lowerAt_eq_lowerAt_iff {b b' a a' : Str} {c : Char} :
    lowerAt b c a = lowerAt b' c a' ↔ (c = 'Σ' → finalSigma b a = finalSigma b' a') := by
  unfold lowerAt
  split
  · next h =>
    simp only [h, forall_const, cons.injEq, and_true]
    cases finalSigma b a <;> cases finalSigma b' a' <;> decide
  · next h => simp [h]

/-- Lowercasing is the same in two contexts exactly when they agree on every
capital sigma: the pieces have the same lengths, so they can be compared one
character at a time. -/
theorem lowerIn_eq_lowerIn_iff {s b a b' a' : Str} :
    lowerIn b s a = lowerIn b' s a' ↔ SigmaAgree b a b' a' s := by
  induction s generalizing b b' with
  | nil => simp [SigmaAgree]
  | cons c s ih =>
    rw [lowerIn_cons, lowerIn_cons, SigmaAgree, ← ih, ← lowerAt_eq_lowerAt_iff]
    constructor
    · intro h
      exact append_inj h (length_lowerAt _ _ _ _ _)
    · rintro ⟨h1, h2⟩
      rw [h1, h2]

/-- At every capital sigma of a dotted string the word-final test answers the
same on the whole string as on the label the sigma stands in. -/
def sigmaLocal (before : Str) : Str → Bool
  | [] => true
  | c :: cs =>
      (c != 'Σ' || finalSigma before cs ==
        finalSigma (before.takeWhile (· != '.')) (cs.takeWhile (· != '.'))) &&
      sigmaLocal (c :: before) cs

/-- A context that ends at a label boundary. -/
def AtBoundary (s : Str) : Prop := s = [] ∨ ∃ t, s = '.' :: t

theorem takeWhile_of_atBoundary {l r : Str} (hl : '.' ∉ l) (hr : AtBoundary r) :
    (l ++ r).takeWhile (· != '.') = l := by
  induction l with
  | nil =>
    rcases hr with rfl | ⟨t, rfl⟩ <;> rfl
  | cons c l ih =>
    rw [mem_cons, not_or] at hl
    have hc : c ≠ '.' := Ne.symm hl.1
    simp [hc, ih hl.2]

/-- Inside one label the local test compares the whole context with the label's
own; `m` is the part of the label already read, in reverse. -/
theorem sigmaLocal_append {l m b r : Str} (hl : '.' ∉ l) (hm : '.' ∉ m) (hb : AtBoundary b)
    (hr : AtBoundary r) :
    (sigmaLocal (m ++ b) (l ++ r) = true ↔
      SigmaAgree (m ++ b) r m [] l ∧ sigmaLocal (l.reverse ++ (m ++ b)) r = true) := by
  induction l generalizing m b r with
  | nil => simp [SigmaAgree]
  | cons c l ih =>
    rw [mem_cons, not_or] at hl
    have hcm : '.' ∉ c :: m := by simp [hl.1, hm]
    rw [cons_append, sigmaLocal, Bool.and_eq_true, takeWhile_of_atBoundary hm hb,
      takeWhile_of_atBoundary hl.2 hr, SigmaAgree, ← cons_append, ih hl.2 hcm hb hr, append_nil,
      reverse_cons, append_assoc, singleton_append, and_assoc]
    refine and_congr ?_ Iff.rfl
    by_cases hc : c = 'Σ' <;> simp [hc]

theorem lowerLabels_eq_map_iff : ∀ {ls : List Str}, ls ≠ [] → (∀ l ∈ ls, '.' ∉ l) →
    ∀ {b : Str}, AtBoundary b →
      (lowerLabels b ls [] = ls.map toLowercase ↔
        sigmaLocal b (['.'].intercalate ls) = true) := by
  intro ls
  induction ls with
  | nil => intro h; exact absurd rfl h
  | cons l ls ih =>
    intro _ hd b hb
    have hl := hd l mem_cons_self
    cases ls with
    | nil =>
      have h := sigmaLocal_append (l := l) (m := []) (r := []) hl (by simp) hb (Or.inl rfl)
      rw [nil_append, append_nil] at h
      rw [intercalate_singleton, h, lowerLabels, map_singleton, cons.injEq,
        toLowercase, lowerIn_eq_lowerIn_iff]
      simp [sigmaLocal]
    | cons m ls =>
      have hrest := ih (by simp) (fun l' hl' => hd l' (mem_cons_of_mem _ hl'))
        (b := '.' :: l.reverse ++ b) (Or.inr ⟨_, rfl⟩)
      have h := sigmaLocal_append (l := l) (m := []) (b := b)
        (r := '.' :: ['.'].intercalate (m :: ls)) hl (by simp) hb (Or.inr ⟨_, rfl⟩)
      rw [nil_append] at h
      rw [intercalate_cons_cons, append_assoc, singleton_append, h, lowerLabels, map_cons,
        cons.injEq, toLowercase, lowerIn_eq_lowerIn_iff, append_nil, hrest]
      refine and_congr Iff.rfl ?_
      rw [sigmaLocal]
      simp

theorem sigmaLocal_of_notMem {s b : Str} (h : 'Σ' ∉ s) : sigmaLocal b s = true := by
  induction s generalizing b with
  | nil => rfl
  | cons c s ih =>
    obtain ⟨hne, hrest⟩ := ne_and_not_mem_of_not_mem_cons h
    rw [sigmaLocal, ih hrest, Bool.and_true, Bool.or_eq_true]
    exact .inl (bne_iff_ne.mpr hne.symm)

/-- A capital sigma leaves a small one behind. -/
theorem sigma_mem_lowerIn {s b a : Str} (h : 'Σ' ∈ s) :
    'ς' ∈ lowerIn b s a ∨ 'σ' ∈ lowerIn b s a := by
  induction s generalizing b with
  | nil => cases h
  | cons c s ih =>
    rw [lowerIn_cons, mem_append, mem_append]
    obtain rfl | h := mem_cons.mp h
    · rw [lowerAt, if_pos rfl]
      split
      · exact .inl (.inl mem_cons_self)
      · exact .inr (.inl mem_cons_self)
    · exact (ih h).imp .inr .inr

/-- **Lowercasing commutes with cutting into labels exactly when no label boundary
changes a word-final test.** -/
theorem splitOn_toLowercase_iff (s : Str) :
    (toLowercase s).splitOn '.' = (s.splitOn '.').map toLowercase ↔ sigmaLocal [] s = true := by
  rw [toLowercase, splitOn_lowerIn, lowerLabels_eq_map_iff (splitOn_ne_nil _ _)
    (fun l hl => notMem_of_mem_splitOn hl) (Or.inl rfl), intercalate_splitOn]

end Text
end TortaCore
