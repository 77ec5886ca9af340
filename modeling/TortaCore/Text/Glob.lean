import TortaCore.Machine.Loop
import Mathlib.Data.List.Infix

/-!
# Globs

A glob is a word with stars in it; it stands for the words that arise when each star is
replaced by some word.  A text is matched in one pass over both words, with one point to come
back to: the last star passed, and the text from there on.

That one point is enough.  Between it and the place reached there are only letters, so what an
earlier star could still take up, the last one can take up as well.
-/

namespace TortaCore
namespace Text
namespace Glob

open Machine List Option

variable {α : Type*}

section Denotation

variable (star : α) (eqv : α → α → Bool)

/-- The words of a glob: each star replaced by some word. -/
inductive Expands : List α → List α → Prop where
  | nil : Expands [] []
  | star (u : List α) {p s} : Expands p s → Expands (star :: p) (u ++ s)
  | lit {a p s} : a ≠ star → Expands p s → Expands (a :: p) (a :: s)

/-- The text is a word of the glob, letter by letter up to `eqv`. -/
def Denotes (p t : List α) : Prop :=
  ∃ s, Expands star p s ∧ List.Forall₂ (fun a b => eqv a b = true) s t

variable {star eqv}

@[simp] theorem denotes_nil {t : List α} : Denotes star eqv [] t ↔ t = [] := by
  constructor
  · rintro ⟨s, hs, hst⟩
    cases hs
    exact forall₂_nil_left_iff.mp hst
  · rintro rfl
    exact ⟨[], .nil, .nil⟩

theorem denotes_lit {a : α} {p t : List α} (ha : a ≠ star) :
    Denotes star eqv (a :: p) t ↔
      ∃ c t', t = c :: t' ∧ eqv a c = true ∧ Denotes star eqv p t' := by
  constructor
  · rintro ⟨s, hs, hst⟩
    cases hs with
    | star u h => exact absurd rfl ha
    | lit _ h =>
      obtain ⟨c, t', hac, hst', rfl⟩ := forall₂_cons_left_iff.mp hst
      exact ⟨c, t', rfl, hac, _, h, hst'⟩
  · rintro ⟨c, t', rfl, hac, s, hs, hst⟩
    exact ⟨a :: s, .lit ha hs, .cons hac hst⟩

/-- A star takes up the text before some suffix. -/
theorem denotes_star (hrefl : ∀ a, eqv a a = true) {p t : List α} :
    Denotes star eqv (star :: p) t ↔ ∃ v, v <:+ t ∧ Denotes star eqv p v := by
  constructor
  · rintro ⟨s, hs, hst⟩
    cases hs with
    | lit h => exact absurd rfl h
    | star u h =>
      have hdrop := forall₂_drop u.length hst
      rw [drop_left] at hdrop
      exact ⟨t.drop u.length, drop_suffix _ _, _, h, hdrop⟩
  · rintro ⟨v, ⟨u, rfl⟩, s, hs, hsv⟩
    exact ⟨u ++ s, .star u hs, rel_append (forall₂_same.mpr fun a _ => hrefl a) hsv⟩

/-- Letters in front of a glob are matched one by one. -/
theorem Denotes.drop {lits p : List α} (hlits : star ∉ lits) {t : List α}
    (h : Denotes star eqv (lits ++ p) t) :
    lits.length ≤ t.length ∧ Denotes star eqv p (t.drop lits.length) := by
  induction lits generalizing t with
  | nil => exact ⟨Nat.zero_le _, h⟩
  | cons a lits ih =>
    obtain ⟨hne, hrest⟩ := ne_and_not_mem_of_not_mem_cons hlits
    rw [cons_append, denotes_lit (Ne.symm hne)] at h
    obtain ⟨c, t', rfl, -, h⟩ := h
    obtain ⟨hle, hdrop⟩ := ih hrest h
    exact ⟨Nat.succ_le_succ hle, hdrop⟩

/-- Without stars a glob is read letter by letter. -/
theorem denotes_of_notMem {p : List α} (hp : star ∉ p) {t : List α} :
    Denotes star eqv p t ↔ List.Forall₂ (fun a b => eqv a b = true) p t := by
  induction p generalizing t with
  | nil => rw [denotes_nil, forall₂_nil_left_iff]
  | cons a p ih =>
    obtain ⟨hne, hrest⟩ := ne_and_not_mem_of_not_mem_cons hp
    rw [denotes_lit (Ne.symm hne), forall₂_cons_left_iff]
    constructor
    · rintro ⟨c, t', rfl, hac, hden⟩
      exact ⟨c, t', hac, (ih hrest).mp hden, rfl⟩
    · rintro ⟨c, t', hac, hall, rfl⟩
      exact ⟨c, t', rfl, hac, (ih hrest).mpr hall⟩

end Denotation

/-! ### The pass -/

/-- The text and the glob that are left, and the point to come back to: what follows the last
star, and the text from where it stood on. -/
structure State (α : Type*) where
  text : List α
  pat : List α
  back : Option (List α × List α)

variable [DecidableEq α] (star : α) (eqv : α → α → Bool)

/-- Let the last star take up one letter more. -/
def retreat : Option (List α × List α) → Turn (State α) (Option (List α))
  | none => .halt none
  | some (pat, text) => .next ⟨text.tail, pat, some (pat, text.tail)⟩

/-- One turn.  At the end of the text the rest of the glob is returned. -/
def step (s : State α) : Turn (State α) (Option (List α)) :=
  match s.text, s.pat with
  | [], _ => .halt (some s.pat)
  | c :: text, b :: pat =>
    if b = star then .next ⟨c :: text, pat, some (pat, c :: text)⟩
    else if eqv b c then .next ⟨text, pat, s.back⟩
    else retreat s.back
  | _ :: _, [] => retreat s.back

/-- Whether the pass ends with nothing but stars left. -/
def scan (text pat : List α) : Bool :=
  (loop (step star eqv) ((text.length + 1) * (pat.length + 1)) ⟨text, pat, none⟩).join.any
    fun rest => (rest.dropWhile (· = star)).isEmpty

variable {star eqv}

/-- Since the last star as many letters were passed in the glob as in the text. -/
def Aligned (star : α) (s : State α) : Prop :=
  ∀ pat text, s.back = some (pat, text) → ∃ lits seg, pat = lits ++ s.pat ∧
    text = seg ++ s.text ∧ lits.length = seg.length ∧ star ∉ lits

/-- What is still to try: the place reached, or the last star with more letters. -/
def Open (star : α) (eqv : α → α → Bool) (s : State α) : Prop :=
  Denotes star eqv s.pat s.text ∨
    ∃ pat text, s.back = some (pat, text) ∧ ∃ v, v <:+ text.tail ∧ Denotes star eqv pat v

omit [DecidableEq α] in
theorem exists_suffix_iff {D : List α → Prop} {l : List α} :
    (∃ v, v <:+ l ∧ D v) ↔ D l ∨ ∃ v, v <:+ l.tail ∧ D v := by
  cases l with
  | nil => exact ⟨.inr, Or.rec (fun hD => ⟨[], suffix_rfl, hD⟩) id⟩
  | cons a l => simp only [suffix_cons_iff, or_and_right, exists_or, exists_eq_left, tail_cons]

/-- What a turn that goes on does: it passes a star, passes a letter, or comes back to the last
star because the place reached cannot match. -/
theorem step_eq_next {s s' : State α} (h : step star eqv s = .next s') :
    ∃ c text, s.text = c :: text ∧
      ((∃ pat, s.pat = star :: pat ∧ s' = ⟨s.text, pat, some (pat, s.text)⟩) ∨
        (∃ b pat, s.pat = b :: pat ∧ b ≠ star ∧ eqv b c = true ∧ s' = ⟨text, pat, s.back⟩) ∨
        (¬ Denotes star eqv s.pat s.text ∧ ∃ pat tx, s.back = some (pat, tx) ∧
          s' = ⟨tx.tail, pat, some (pat, tx.tail)⟩)) := by
  obtain ⟨text, pat, back⟩ := s
  have hretreat : ∀ {back : Option (List α × List α)}, retreat back = .next s' →
      ∃ pat tx, back = some (pat, tx) ∧ s' = ⟨tx.tail, pat, some (pat, tx.tail)⟩ := by
    intro back h
    cases back with
    | none => cases h
    | some b => cases h; exact ⟨b.1, b.2, rfl, rfl⟩
  cases text with
  | nil => cases h
  | cons c text =>
    refine ⟨c, text, rfl, ?_⟩
    cases pat with
    | nil => exact .inr (.inr ⟨by simp, hretreat h⟩)
    | cons b pat =>
      simp only [step] at h
      split at h
      · next hb =>
        cases h
        exact .inl ⟨pat, by rw [hb], rfl⟩
      next hb =>
      split at h
      · next hbc =>
        cases h
        exact .inr (.inl ⟨b, pat, rfl, hb, hbc, rfl⟩)
      · next hbc =>
        refine .inr (.inr ⟨fun hden => ?_, hretreat h⟩)
        obtain ⟨c', t', heq, hbc', -⟩ := (denotes_lit hb).mp hden
        cases heq
        exact hbc hbc'

theorem step_eq_halt {s : State α} {r : Option (List α)} (h : step star eqv s = .halt r) :
    (s.text = [] ∧ r = some s.pat) ∨
      (s.back = none ∧ r = none ∧ ¬ Denotes star eqv s.pat s.text) := by
  obtain ⟨text, pat, back⟩ := s
  have hretreat : ∀ {back : Option (List α × List α)}, retreat back = .halt r →
      back = none ∧ r = none := by
    intro back h
    cases back with
    | none => cases h; exact ⟨rfl, rfl⟩
    | some b => cases h
  cases text with
  | nil => cases h; exact .inl ⟨rfl, rfl⟩
  | cons c text =>
    cases pat with
    | nil =>
      obtain ⟨hback, hr⟩ := hretreat h
      exact .inr ⟨hback, hr, by simp⟩
    | cons b pat =>
      simp only [step] at h
      split at h
      · cases h
      next hb =>
      split at h
      · cases h
      next hbc =>
      obtain ⟨hback, hr⟩ := hretreat h
      refine .inr ⟨hback, hr, fun hden => ?_⟩
      obtain ⟨c', t', heq, hbc', -⟩ := (denotes_lit hb).mp hden
      cases heq
      exact hbc hbc'

theorem Aligned.step {s s' : State α} (ha : Aligned star s) (h : step star eqv s = .next s') :
    Aligned star s' := by
  obtain ⟨c, text, htext, ⟨p, hp, rfl⟩ | ⟨b, p, hp, hb, -, rfl⟩ | ⟨-, p, tx, -, rfl⟩⟩ :=
    step_eq_next h
  · intro pat tx hback
    cases hback
    exact ⟨[], [], rfl, rfl, rfl, not_mem_nil⟩
  · intro pat tx hback
    obtain ⟨lits, seg, rfl, rfl, hlen, hstar⟩ := ha pat tx hback
    refine ⟨lits ++ [b], seg ++ [c], by simp [hp], by simp [htext], by simp [hlen], ?_⟩
    simp [hstar, Ne.symm hb]
  · intro pat tx' hback
    cases hback
    exact ⟨[], [], rfl, rfl, rfl, not_mem_nil⟩

omit [DecidableEq α] in
/-- An earlier star has nothing to offer that the star at the place reached has not. -/
theorem Aligned.denotes_of_back (hrefl : ∀ a, eqv a a = true) {s : State α}
    (ha : Aligned star s) {p pat tx v : List α} (hp : s.pat = star :: p)
    (hback : s.back = some (pat, tx)) (hv : v <:+ tx.tail) (hden : Denotes star eqv pat v) :
    Denotes star eqv s.pat s.text := by
  obtain ⟨lits, seg, rfl, rfl, hlen, hstar⟩ := ha pat tx hback
  obtain ⟨hle, hrest⟩ := hden.drop hstar
  rw [hp, denotes_star hrefl] at hrest ⊢
  obtain ⟨w, hw, hden'⟩ := hrest
  refine ⟨w, hw.trans ?_, hden'⟩
  -- both are suffixes of the text at the earlier star, and this one is not longer
  refine suffix_of_suffix_length_le
    ((drop_suffix _ _).trans (hv.trans (tail_suffix _))) (suffix_append _ _) ?_
  have hvlen := hv.length_le
  rw [length_tail, length_append] at hvlen
  rw [length_drop]
  omega

theorem Aligned.open_iff (hrefl : ∀ a, eqv a a = true) {s s' : State α} (ha : Aligned star s)
    (h : Glob.step star eqv s = .next s') : Open star eqv s' ↔ Open star eqv s := by
  obtain ⟨c, text, htext, ⟨p, hp, rfl⟩ | ⟨b, p, hp, hb, hbc, rfl⟩ | ⟨hnot, p, tx, hback, rfl⟩⟩ :=
    step_eq_next h
  · have hnew : Open star eqv ⟨s.text, p, some (p, s.text)⟩ ↔
        Denotes star eqv s.pat s.text := by
      rw [hp, denotes_star hrefl, exists_suffix_iff]
      simp [Open]
    rw [hnew]
    constructor
    · exact .inl
    · rintro (hden | ⟨pat, tx, hback, v, hv, hden⟩)
      · exact hden
      · exact ha.denotes_of_back hrefl hp hback hv hden
  · have hhead : Denotes star eqv s.pat s.text ↔ Denotes star eqv p text := by
      rw [hp, htext, denotes_lit hb]
      simp [hbc]
    rw [Open, Open, hhead]
  · have hnew : Open star eqv ⟨tx.tail, p, some (p, tx.tail)⟩ ↔
        ∃ v, v <:+ tx.tail ∧ Denotes star eqv p v := by
      rw [exists_suffix_iff]
      simp [Open]
    rw [hnew, Open, or_iff_right hnot, hback]
    simp

omit [DecidableEq α] in
/-- At the end of the text a star to come back to is of no use. -/
theorem Aligned.open_iff_of_nil {s : State α} (ha : Aligned star s) (htext : s.text = []) :
    Open star eqv s ↔ Denotes star eqv s.pat [] := by
  rw [Open, htext, or_iff_left_iff_imp]
  rintro ⟨pat, tx, hback, v, hv, hden⟩
  obtain ⟨lits, seg, rfl, rfl, hlen, hstar⟩ := ha pat tx hback
  obtain ⟨hle, hrest⟩ := hden.drop hstar
  have hvlen := hv.length_le
  rw [htext, append_nil, length_tail] at hvlen
  have hdrop : v.drop lits.length = [] := drop_eq_nil_of_le (by omega)
  rwa [hdrop] at hrest

theorem denotes_nil_iff (hrefl : ∀ a, eqv a a = true) : ∀ {p : List α},
    Denotes star eqv p [] ↔ (p.dropWhile (· = star)).isEmpty = true := by
  intro p
  induction p with
  | nil => simp
  | cons a p ih =>
    by_cases ha : a = star
    · subst ha
      rw [denotes_star hrefl, dropWhile_cons_of_pos (by simp), ← ih]
      simp [suffix_nil]
    · rw [denotes_lit ha, dropWhile_cons_of_neg (by simpa using ha)]
      simp

/-- Letters of the text behind the last star, each worth a pass over the glob. -/
def cost (n : ℕ) (s : State α) : ℕ :=
  ((s.back.map Prod.snd).getD s.text).length * (n + 1) + s.pat.length

/-- The globs of a state are not longer than the first one. -/
def Within (n : ℕ) (s : State α) : Prop :=
  s.pat.length ≤ n ∧ ∀ pat text, s.back = some (pat, text) → pat.length ≤ n

theorem Within.step {n : ℕ} {s s' : State α} (hw : Within n s) (ha : Aligned star s)
    (h : Glob.step star eqv s = .next s') : Within n s' ∧ cost n s' < cost n s := by
  obtain ⟨c, text, htext, ⟨p, hp, rfl⟩ | ⟨b, p, hp, -, -, rfl⟩ | ⟨-, p, tx, hback, rfl⟩⟩ :=
    step_eq_next h
  · have hplen : p.length + 1 = s.pat.length := by rw [hp, length_cons]
    have hle : s.text.length ≤ ((s.back.map Prod.snd).getD s.text).length := by
      cases hback : s.back with
      | none => exact Nat.le_refl _
      | some b =>
        obtain ⟨lits, seg, -, htx, -, -⟩ := ha b.1 b.2 hback
        simp [htx]
    have hple : p.length ≤ n := Nat.le_trans (by omega) hw.1
    refine ⟨⟨hple, ?_⟩, ?_⟩
    · intro pat tx hback
      cases hback
      exact hple
    · have hmul := Nat.mul_le_mul_right (n + 1) hle
      simp only [cost, map_some, getD_some]
      omega
  · have hplen : p.length + 1 = s.pat.length := by rw [hp, length_cons]
    refine ⟨⟨Nat.le_trans (by omega : p.length ≤ s.pat.length) hw.1, hw.2⟩, ?_⟩
    have hle : ((s.back.map Prod.snd).getD text).length ≤
        ((s.back.map Prod.snd).getD s.text).length := by
      cases s.back with
      | none => simp [htext]
      | some b => exact Nat.le_refl _
    have hmul := Nat.mul_le_mul_right (n + 1) hle
    simp only [cost]
    omega
  · have hplen := hw.2 p tx hback
    refine ⟨⟨hplen, ?_⟩, ?_⟩
    · intro pat tx' hback'
      cases hback'
      exact hplen
    · -- the star stood before a letter, so one letter fewer is left
      obtain ⟨lits, seg, -, rfl, -, -⟩ := ha p tx hback
      have hlen : (seg ++ s.text).length = (seg ++ s.text).tail.length + 1 := by
        rw [length_tail, length_append, htext, length_cons]
        omega
      simp only [cost, hback, map_some, getD_some]
      rw [hlen, Nat.add_mul]
      omega

/-- What holds at every turn of the pass of a text over a glob. -/
structure Invariant (star : α) (eqv : α → α → Bool) (text pat : List α) (s : State α) : Prop where
  aligned : Aligned star s
  within : Within pat.length s
  isOpen : Open star eqv s ↔ Denotes star eqv pat text

omit [DecidableEq α] in
theorem Invariant.start (text pat : List α) :
    Invariant star eqv text pat ⟨text, pat, none⟩ where
  aligned := fun _ _ h => by cases h
  within := ⟨Nat.le_refl _, fun _ _ h => by cases h⟩
  isOpen := by simp [Open]

theorem Invariant.step (hrefl : ∀ a, eqv a a = true) {text pat : List α} {s s' : State α}
    (hI : Invariant star eqv text pat s) (h : Glob.step star eqv s = .next s') :
    Invariant star eqv text pat s' ∧ cost pat.length s' < cost pat.length s := by
  obtain ⟨hwithin, hlt⟩ := hI.within.step hI.aligned h
  exact ⟨⟨hI.aligned.step h, hwithin, (hI.aligned.open_iff hrefl h).trans hI.isOpen⟩, hlt⟩

/-- What the pass halts with says whether the text matches. -/
theorem Invariant.halt (hrefl : ∀ a, eqv a a = true) {text pat : List α} {s : State α}
    {r : Option (List α)} (hI : Invariant star eqv text pat s)
    (h : Glob.step star eqv s = .halt r) :
    (r.any fun rest => (rest.dropWhile (· = star)).isEmpty) = true ↔
      Denotes star eqv pat text := by
  rw [← hI.isOpen]
  obtain ⟨htext, rfl⟩ | ⟨hback, rfl, hnot⟩ := step_eq_halt h
  · rw [hI.aligned.open_iff_of_nil htext, denotes_nil_iff hrefl, any_some]
  · simp [Open, hnot, hback]

/-- The pass halts within the product of the lengths, the stars that are left over at its end
included, and it decides the denotation. -/
theorem scan_spec (hrefl : ∀ a, eqv a a = true) (text pat : List α) :
    (scan star eqv text pat = true ↔ Denotes star eqv pat text) ∧
      ∃ k rest, (∀ fuel, k < fuel → loop (step star eqv) fuel ⟨text, pat, none⟩ = some rest) ∧
        k + 1 + (rest.getD []).length ≤ (text.length + 1) * (pat.length + 1) := by
  obtain ⟨k, s, r, hI, hhalt, hcost, hloop⟩ := exists_halt_of_invariant (cost pat.length)
    (fun s s' hI h => hI.step hrefl h) (Invariant.start text pat)
  have hstart : cost pat.length (⟨text, pat, none⟩ : State α) + 1 =
      (text.length + 1) * (pat.length + 1) := by
    rw [cost, Nat.add_mul, Nat.one_mul]
    rfl
  have hrest : (r.getD []).length ≤ cost pat.length s := by
    obtain ⟨-, rfl⟩ | ⟨-, rfl, -⟩ := step_eq_halt hhalt
    · exact Nat.le_add_left _ _
    · exact Nat.zero_le _
  refine ⟨?_, k, r, hloop, by omega⟩
  rw [scan, hloop _ (by omega), join_some, hI.halt hrefl hhalt]

end Glob
end Text
end TortaCore
