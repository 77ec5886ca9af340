import TortaCore.Text.Number
import Mathlib.Algebra.Group.Nat.Defs
import Mathlib.Data.List.MinMax
import Mathlib.Data.List.TakeWhile
import Mathlib.Data.Prod.Lex

/-!
# Choosing a bundled version

A page asks for one version of a library and the device holds a few (`mirror/localcdn.rs`).
The version asked for is served if it is held; else the nearest newer one of the same
major; else the nearest older one.

The code compares versions by the triple that `parseVersion` reads, in which every
component that is no number counts as zero.  The documentation compares releases by
number, stops reading at the first component that is none, and keeps `exact` for the same
text.

## Main definitions

* `parseVersion`, `substitution`, `bestBundledVersion`: the code.
-/

namespace TortaCore
namespace Mirror

open Text List Option

/-! ### The code -/

/-- Major, minor and patch, in the order of the tuple. -/
abbrev Number := ℕ ×ₗ (ℕ ×ₗ ℕ)

def Number.major (n : Number) : ℕ := (ofLex n).1

/-- Minor and patch. -/
def Number.rest (n : Number) : ℕ ×ₗ ℕ := (ofLex n).2

/-- The first three components; one that is missing or no number is zero. -/
def triple (parts : List (Option ℕ)) : Number :=
  let part (i : ℕ) := parts[i]?.join.getD 0
  toLex (part 0, toLex (part 1, part 2))

def parseVersion (v : Str) : Number :=
  triple ((v.splitOn '.').map (parseUnsigned 10 (2 ^ 32 - 1)))

inductive Substitution where
  | exact
  | safeNewer
  | riskyOlder
  | incompatible
  deriving DecidableEq

/-- Whether a bundled version may stand in for the one requested. -/
def substitution (requested bundled : Str) : Substitution :=
  let r := parseVersion requested
  let a := parseVersion bundled
  if a.major ≠ r.major then .incompatible
  else if a.rest = r.rest then .exact
  else if a.rest ≥ r.rest then .safeNewer
  else .riskyOlder

/-- The scan over the bundled versions, with the best newer and the best older so far. -/
def bestLoop (requested : Str) (bestNewer bestOlder : Option Str) :
    List Str → Option (Str × Substitution)
  | [] => (bestNewer.map (·, .safeNewer)).or (bestOlder.map (·, .riskyOlder))
  | cand :: rest =>
    match substitution requested cand with
    | .exact => some (cand, .exact)
    | .safeNewer =>
      if bestNewer.all fun b => parseVersion cand < parseVersion b then
        bestLoop requested (some cand) bestOlder rest
      else bestLoop requested bestNewer bestOlder rest
    | .riskyOlder =>
      if bestOlder.all fun b => parseVersion cand > parseVersion b then
        bestLoop requested bestNewer (some cand) rest
      else bestLoop requested bestNewer bestOlder rest
    | .incompatible => bestLoop requested bestNewer bestOlder rest

def bestBundledVersion (requested : Str) (bundled : List Str) : Option (Str × Substitution) :=
  bestLoop requested none none bundled

/-! ### The documented choice -/

section Nearest

variable (num : Str → Number) (r : Str)

def Newer (v : Str) : Prop := (num v).major = (num r).major ∧ num r < num v

def Older (v : Str) : Prop := (num v).major = (num r).major ∧ num v < num r

/-- The lowest newer version of the same major; if there is none, the highest older one. -/
inductive Nearest (l : List Str) : Option (Str × Substitution) → Prop
  | newer {v : Str} (hv : v ∈ l) (hnewer : Newer num r v)
      (hlowest : ∀ w ∈ l, Newer num r w → num v ≤ num w) : Nearest l (some (v, .safeNewer))
  | older {v : Str} (hnone : ∀ w ∈ l, ¬ Newer num r w) (hv : v ∈ l) (holder : Older num r v)
      (hhighest : ∀ w ∈ l, Older num r w → num w ≤ num v) : Nearest l (some (v, .riskyOlder))
  | none (hnone : ∀ w ∈ l, ¬ Newer num r w ∧ ¬ Older num r w) : Nearest l none

end Nearest

/-- A number written in decimal digits. -/
def decimal? (s : Str) : Option ℕ :=
  if s.isEmpty || !(s.all fun c => (toDigit 10 c).isSome) then none else some (digitsValue 10 s)

/-- The number of a release: missing components are zero, and a component that is no
number ends the reading. -/
def releaseNumber (v : Str) : Number :=
  triple (((v.splitOn '.').map decimal?).takeWhile Option.isSome)

/-- The requested version if it is bundled, and else the nearest release. -/
def DocumentedBest (r : Str) (l : List Str) (c : Option (Str × Substitution)) : Prop :=
  (r ∈ l ∧ c = some (r, .exact)) ∨ (r ∉ l ∧ Nearest releaseNumber r l c)

/-- The same choice, up to versions of one number. -/
def SameChoice (c c' : Option (Str × Substitution)) : Prop :=
  c.map (fun p => (releaseNumber p.1, p.2)) = c'.map fun p => (releaseNumber p.1, p.2)

/-! ### One candidate -/

theorem Number.eq_iff {a b : Number} : a = b ↔ a.major = b.major ∧ a.rest = b.rest := by
  rw [← ofLex_inj, Prod.ext_iff]
  rfl

theorem Number.lt_iff {a b : Number} (h : a.major = b.major) : a < b ↔ a.rest < b.rest := by
  rw [Prod.Lex.lt_iff]
  constructor
  · rintro (hlt | ⟨-, hlt⟩)
    · exact absurd h (Nat.ne_of_lt hlt)
    · exact hlt
  · exact fun hlt => Or.inr ⟨h, hlt⟩

/-- The four verdicts are the four ways in which the triples can lie. -/
theorem substitution_cases (r v : Str) :
    (substitution r v = .exact ∧ parseVersion v = parseVersion r) ∨
    (substitution r v = .safeNewer ∧ Newer parseVersion r v) ∨
    (substitution r v = .riskyOlder ∧ Older parseVersion r v) ∨
    (substitution r v = .incompatible ∧ (parseVersion v).major ≠ (parseVersion r).major) := by
  simp only [substitution]
  by_cases hmajor : (parseVersion v).major = (parseVersion r).major
  · rw [if_neg (not_not_intro hmajor)]
    rcases lt_trichotomy (parseVersion v).rest (parseVersion r).rest with hlt | heq | hgt
    · rw [if_neg hlt.ne, if_neg hlt.not_ge]
      exact .inr (.inr (.inl ⟨rfl, hmajor, (Number.lt_iff hmajor).mpr hlt⟩))
    · rw [if_pos heq]
      exact .inl ⟨rfl, Number.eq_iff.mpr ⟨hmajor, heq⟩⟩
    · rw [if_neg hgt.ne', if_pos hgt.le]
      exact .inr (.inl ⟨rfl, hmajor, (Number.lt_iff hmajor.symm).mpr hgt⟩)
  · rw [if_pos hmajor]
    exact .inr (.inr (.inr ⟨rfl, hmajor⟩))

variable {r v : Str} {l : List Str} {c : Option (Str × Substitution)}

theorem substitution_eq_exact_iff :
    substitution r v = .exact ↔ parseVersion v = parseVersion r := by
  rcases substitution_cases r v with ⟨h, heq⟩ | ⟨h, -, hlt⟩ | ⟨h, -, hlt⟩ | ⟨h, hne⟩
  · exact iff_of_true h heq
  · exact iff_of_false (by simp [h]) hlt.ne'
  · exact iff_of_false (by simp [h]) hlt.ne
  · exact iff_of_false (by simp [h]) fun heq => hne (congrArg Number.major heq)

theorem substitution_eq_safeNewer_iff :
    substitution r v = .safeNewer ↔ Newer parseVersion r v := by
  rcases substitution_cases r v with ⟨h, heq⟩ | ⟨h, hnew⟩ | ⟨h, -, hlt⟩ | ⟨h, hne⟩
  · exact iff_of_false (by simp [h]) fun hnew => hnew.2.ne' heq
  · exact iff_of_true h hnew
  · exact iff_of_false (by simp [h]) fun hnew => lt_asymm hnew.2 hlt
  · exact iff_of_false (by simp [h]) fun hnew => hne hnew.1

theorem substitution_eq_riskyOlder_iff :
    substitution r v = .riskyOlder ↔ Older parseVersion r v := by
  rcases substitution_cases r v with ⟨h, heq⟩ | ⟨h, -, hlt⟩ | ⟨h, hold⟩ | ⟨h, hne⟩
  · exact iff_of_false (by simp [h]) fun hold => hold.2.ne heq
  · exact iff_of_false (by simp [h]) fun hold => lt_asymm hold.2 hlt
  · exact iff_of_true h hold
  · exact iff_of_false (by simp [h]) fun hold => hne hold.1

/-! ### The scan -/

/-- The first version with the triple of the one requested ends the scan. -/
theorem bestLoop_of_find {l : List Str} (newer older : Option Str)
    (h : l.find? (fun w => parseVersion w = parseVersion r) = some v) :
    bestLoop r newer older l = some (v, .exact) := by
  induction l generalizing newer older with
  | nil => simp at h
  | cons cand rest ih =>
    by_cases hcand : parseVersion cand = parseVersion r
    · rw [find?_cons_of_pos (by simpa using hcand), some.injEq] at h
      subst h
      simp only [bestLoop, substitution_eq_exact_iff.mpr hcand]
    rw [find?_cons_of_neg (by simpa using hcand)] at h
    have hne := mt substitution_eq_exact_iff.mp hcand
    unfold bestLoop
    cases hsub : substitution r cand with
    | exact => exact absurd hsub hne
    | safeNewer => dsimp only; split <;> exact ih _ _ h
    | riskyOlder => dsimp only; split <;> exact ih _ _ h
    | incompatible => exact ih _ _ h

theorem bestBundledVersion_of_find
    (h : l.find? (fun w => parseVersion w = parseVersion r) = some v) :
    bestBundledVersion r l = some (v, .exact) := bestLoop_of_find none none h

def newers (r : Str) (l : List Str) : List Str := l.filter fun v => substitution r v = .safeNewer

def olders (r : Str) (l : List Str) : List Str := l.filter fun v => substitution r v = .riskyOlder

theorem mem_newers :
    v ∈ newers r l ↔ v ∈ l ∧ Newer parseVersion r v := by
  rw [newers, mem_filter, decide_eq_true_iff, substitution_eq_safeNewer_iff]

theorem mem_olders :
    v ∈ olders r l ↔ v ∈ l ∧ Older parseVersion r v := by
  rw [olders, mem_filter, decide_eq_true_iff, substitution_eq_riskyOlder_iff]

/-- Without such a version the scan keeps two running extremes, each over its own part of
the list. -/
theorem bestLoop_of_forall {r : Str} {l : List Str} (newer older : Option Str)
    (h : ∀ v ∈ l, parseVersion v ≠ parseVersion r) :
    bestLoop r newer older l =
      (((newers r l).foldl (List.argAux fun b c => parseVersion b < parseVersion c) newer).map
        (·, .safeNewer)).or
      (((olders r l).foldl (List.argAux fun b c => parseVersion c < parseVersion b) older).map
        (·, .riskyOlder)) := by
  induction l generalizing newer older with
  | nil => rfl
  | cons cand rest ih =>
    obtain ⟨hcand, hrest⟩ := forall_mem_cons.mp h
    unfold bestLoop newers olders
    cases hsub : substitution r cand with
    | exact => exact absurd (substitution_eq_exact_iff.mp hsub) hcand
    | safeNewer =>
      rw [filter_cons_of_pos (by simpa using hsub), filter_cons_of_neg (by simp [hsub]), foldl_cons]
      cases newer with
      | none => exact ih _ _ hrest
      | some b =>
        simp only [all_some, decide_eq_true_eq, argAux]
        split <;> exact ih _ _ hrest
    | riskyOlder =>
      rw [filter_cons_of_neg (by simp [hsub]), filter_cons_of_pos (by simpa using hsub), foldl_cons]
      cases older with
      | none => exact ih _ _ hrest
      | some b =>
        simp only [all_some, gt_iff_lt, decide_eq_true_eq, argAux]
        split <;> exact ih _ _ hrest
    | incompatible =>
      rw [filter_cons_of_neg (by simp [hsub]), filter_cons_of_neg (by simp [hsub])]
      exact ih _ _ hrest

theorem bestBundledVersion_of_forall {r : Str} (h : ∀ v ∈ l, parseVersion v ≠ parseVersion r) :
    bestBundledVersion r l =
      (((newers r l).argmin parseVersion).map (·, .safeNewer)).or
        (((olders r l).argmax parseVersion).map (·, .riskyOlder)) :=
  bestLoop_of_forall none none h

/-- **The scan finds a nearest version, by the triples.** -/
theorem nearest_bestBundledVersion {r : Str} (h : ∀ v ∈ l, parseVersion v ≠ parseVersion r) :
    Nearest parseVersion r l (bestBundledVersion r l) := by
  rw [bestBundledVersion_of_forall h]
  cases hmin : (newers r l).argmin parseVersion with
  | some v =>
    obtain ⟨hv, hnewer⟩ := mem_newers.mp (argmin_mem hmin)
    exact .newer hv hnewer fun w hw hwnew =>
      le_of_mem_argmin (mem_newers.mpr ⟨hw, hwnew⟩) hmin
  | none =>
    have hnone : ∀ w ∈ l, ¬ Newer parseVersion r w := fun w hw hwnew =>
      ne_nil_of_mem (mem_newers.mpr ⟨hw, hwnew⟩) (argmin_eq_none.mp hmin)
    cases hmax : (olders r l).argmax parseVersion with
    | some v =>
      obtain ⟨hv, holder⟩ := mem_olders.mp (argmax_mem hmax)
      exact .older hnone hv holder fun w hw hwold =>
        le_of_mem_argmax (mem_olders.mpr ⟨hw, hwold⟩) hmax
    | none =>
      exact .none fun w hw => ⟨hnone w hw, fun hwold =>
        ne_nil_of_mem (mem_olders.mpr ⟨hw, hwold⟩) (argmax_eq_none.mp hmax)⟩

theorem argmin_filter {α β : Type*} [LinearOrder β] {f : α → β} {p : α → Bool} {l : List α} {v : α}
    (h : l.argmin f = some v) (hp : p v = true) : (l.filter p).argmin f = some v := by
  induction l generalizing v with
  | nil => cases h
  | cons a l ih =>
    rw [argmin_cons] at h
    cases hmin : l.argmin f with
    | none =>
      rw [hmin] at h
      cases h
      rw [argmin_eq_none.mp hmin, filter_cons_of_pos hp]
      rfl
    | some c =>
      rw [hmin] at h
      dsimp only at h
      split at h
      · next hlt =>
        cases h
        rw [filter_cons]
        split
        · rw [argmin_cons, ih hmin hp]
          exact if_pos hlt
        · exact ih hmin hp
      · next hge =>
        cases h
        rw [filter_cons_of_pos hp, argmin_cons]
        cases hmin' : (l.filter p).argmin f with
        | none => rfl
        | some d =>
          have hle := le_of_mem_argmin (mem_of_mem_filter (argmin_mem hmin')) hmin
          exact if_neg (not_lt_of_ge ((not_lt.mp hge).trans hle))

/-- **The choice is the same among a part of the versions that has it.** -/
theorem bestBundledVersion_filter {p : Str → Bool} {best : Str × Substitution}
    (h : bestBundledVersion r l = some best) (hp : p best.1 = true) :
    bestBundledVersion r (l.filter p) = some best := by
  cases hfind : l.find? (fun w => parseVersion w = parseVersion r) with
  | some v =>
    cases h.symm.trans (bestBundledVersion_of_find hfind)
    obtain ⟨hv, before, after, rfl, hbefore⟩ := find?_eq_some_iff_append.mp hfind
    apply bestBundledVersion_of_find
    rw [filter_append, filter_cons_of_pos hp]
    exact find?_eq_some_iff_append.mpr ⟨hv, _, _, rfl, fun w hw => hbefore w (mem_of_mem_filter hw)⟩
  | none =>
    have hne : ∀ v ∈ l, parseVersion v ≠ parseVersion r := fun v hv => by
      simpa using find?_eq_none.mp hfind v hv
    have hnewers : newers r (l.filter p) = (newers r l).filter p := filter_comm ..
    have holders : olders r (l.filter p) = (olders r l).filter p := filter_comm ..
    rw [bestBundledVersion_of_forall hne] at h
    rw [bestBundledVersion_of_forall fun v hv => hne v (mem_of_mem_filter hv), hnewers, holders]
    cases hmin : (newers r l).argmin parseVersion with
    | some v =>
      rw [hmin] at h
      cases h
      rw [argmin_filter hmin hp]
      rfl
    | none =>
      rw [hmin] at h
      obtain ⟨v, hmax, rfl⟩ := Option.map_eq_some_iff.mp h
      have hmax' : ((olders r l).filter p).argmax parseVersion = some v :=
        argmin_filter (f := fun w => OrderDual.toDual (parseVersion w)) hmax hp
      rw [argmin_eq_none.mp hmin, filter_nil, hmax']
      rfl

/-- Every nearest version is found for some order of the list. -/
theorem Nearest.exists_perm {r : Str}
    (hc : Nearest parseVersion r l c) (h : ∀ v ∈ l, parseVersion v ≠ parseVersion r) :
    ∃ l', l'.Perm l ∧ bestBundledVersion r l' = c := by
  -- the version to be found goes first, and nothing that follows is strictly nearer
  cases hc with
  | @newer v hv hnewer hlowest =>
    have hperm : (v :: l.erase v).Perm l := (perm_cons_erase hv).symm
    refine ⟨_, hperm, ?_⟩
    rw [bestBundledVersion_of_forall fun w hw => h w (hperm.mem_iff.mp hw), newers,
      filter_cons_of_pos (by simpa using substitution_eq_safeNewer_iff.mpr hnewer), argmin_cons]
    cases hmin : argmin parseVersion
      ((l.erase v).filter fun w => substitution r w = .safeNewer) with
    | none => rfl
    | some w =>
      obtain ⟨hw, hwnew⟩ := mem_newers.mp (argmin_mem hmin)
      dsimp only
      rw [if_neg (not_lt_of_ge (hlowest w (mem_of_mem_erase hw) hwnew))]
      rfl
  | @older v hnone hv holder hhighest =>
    have hperm : (v :: l.erase v).Perm l := (perm_cons_erase hv).symm
    refine ⟨_, hperm, ?_⟩
    have hnil : newers r (v :: l.erase v) = [] := eq_nil_iff_forall_not_mem.mpr fun w hw =>
      hnone w (hperm.mem_iff.mp (mem_newers.mp hw).1) (mem_newers.mp hw).2
    rw [bestBundledVersion_of_forall fun w hw => h w (hperm.mem_iff.mp hw), hnil, olders,
      filter_cons_of_pos (by simpa using substitution_eq_riskyOlder_iff.mpr holder), argmax_cons]
    cases hmax : argmax parseVersion
      ((l.erase v).filter fun w => substitution r w = .riskyOlder) with
    | none => rfl
    | some w =>
      obtain ⟨hw, hwold⟩ := mem_olders.mp (argmax_mem hmax)
      dsimp only
      rw [if_neg (not_lt_of_ge (hhighest w (mem_of_mem_erase hw) hwold))]
      rfl
  | none hnone =>
    refine ⟨l, .refl l, ?_⟩
    cases hbest : bestBundledVersion r l with
    | none => rfl
    | some p =>
      have hnear := nearest_bestBundledVersion h
      rw [hbest] at hnear
      cases hnear with
      | newer hv hnewer => exact absurd hnewer (hnone _ hv).1
      | older _ hv holder => exact absurd holder (hnone _ hv).2

/-! ### The documentation -/

theorem Nearest.of_perm {num : Str → Number} {r : Str} {l l' : List Str}
    (h : Nearest num r l c) (hperm : l'.Perm l) :
    Nearest num r l' c := by
  have hmem : ∀ {w}, w ∈ l' ↔ w ∈ l := hperm.mem_iff
  cases h with
  | newer hv hnewer hlowest =>
    exact .newer (hmem.mpr hv) hnewer fun w hw => hlowest w (hmem.mp hw)
  | older hnone hv holder hhighest =>
    exact .older (fun w hw => hnone w (hmem.mp hw)) (hmem.mpr hv) holder
      fun w hw => hhighest w (hmem.mp hw)
  | none hnone => exact .none fun w hw => hnone w (hmem.mp hw)

theorem DocumentedBest.of_perm {r : Str} {l l' : List Str}
    (h : DocumentedBest r l c) (hperm : l'.Perm l) : DocumentedBest r l' c := by
  rcases h with ⟨hr, hc⟩ | ⟨hr, hnear⟩
  · exact .inl ⟨hperm.mem_iff.mpr hr, hc⟩
  · exact .inr ⟨mt hperm.mem_iff.mp hr, hnear.of_perm hperm⟩

/-- What is documented leaves a choice between versions of one number only. -/
theorem DocumentedBest.sameChoice {r : Str} {c c' : Option (Str × Substitution)}
    (h : DocumentedBest r l c) (h' : DocumentedBest r l c') : SameChoice c c' := by
  rcases h with ⟨hr, rfl⟩ | ⟨hr, hnear⟩
  · rcases h' with ⟨-, rfl⟩ | ⟨hr', -⟩
    · rfl
    · exact absurd hr hr'
  rcases h' with ⟨hr', -⟩ | ⟨-, hnear'⟩
  · exact absurd hr' hr
  cases hnear with
  | newer hv hnewer hlowest =>
    cases hnear' with
    | newer hv' hnewer' hlowest' =>
      simp only [SameChoice, map_some, le_antisymm (hlowest _ hv' hnewer') (hlowest' _ hv hnewer)]
    | older hnone => exact absurd hnewer (hnone _ hv)
    | none hnone => exact absurd hnewer (hnone _ hv).1
  | older hnone hv holder hhighest =>
    cases hnear' with
    | newer hv' hnewer' => exact absurd hnewer' (hnone _ hv')
    | older _ hv' holder' hhighest' =>
      simp only [SameChoice, map_some, le_antisymm (hhighest' _ hv holder) (hhighest _ hv' holder')]
    | none hnone' => exact absurd holder (hnone' _ hv).2
  | none hnone =>
    cases hnear' with
    | newer hv' hnewer' => exact absurd hnewer' (hnone _ hv').1
    | older _ hv' holder' => exact absurd holder' (hnone _ hv').2
    | none => rfl

/-! ### Plain releases -/

/-- Decimal components, all within 32 bits. -/
def PlainRelease (v : Str) : Prop :=
  ∀ p ∈ v.splitOn '.', ∃ n ≤ 2 ^ 32 - 1, decimal? p = some n

theorem parseUnsigned_of_decimal {p : Str} {n bound : ℕ} (h : decimal? p = some n)
    (hn : n ≤ bound) : parseUnsigned 10 bound p = some n := by
  unfold decimal? at h
  split at h
  · simp at h
  next hdigits =>
  obtain rfl : digitsValue 10 p = n := by simpa using h
  simp only [parseUnsigned]
  split
  · -- a sign is no digit
    simp [toDigit] at hdigits
  · rw [if_neg hdigits, if_pos hn]

/-- **A plain release is read as documented.** -/
theorem parseVersion_eq_releaseNumber {v : Str} (h : PlainRelease v) :
    parseVersion v = releaseNumber v := by
  have hall : ((v.splitOn '.').map decimal?).takeWhile isSome =
      (v.splitOn '.').map (parseUnsigned 10 (2 ^ 32 - 1)) := by
    rw [takeWhile_eq_self_iff.mpr]
    · refine map_congr_left fun p hp => ?_
      obtain ⟨n, hn, hdec⟩ := h p hp
      rw [hdec, parseUnsigned_of_decimal hdec hn]
    · intro o ho
      obtain ⟨p, hp, rfl⟩ := mem_map.mp ho
      obtain ⟨n, -, hdec⟩ := h p hp
      rw [hdec]
      rfl
  rw [parseVersion, releaseNumber, hall]

/-- **When the scan returns what is documented.**  No other text may read as the triple of
the version requested, and what is nearest by the triples has to be nearest by number. -/
theorem documentedBest_iff (r : Str) (bundled : List Str) :
    (∀ l, l.Perm bundled → DocumentedBest r l (bestBundledVersion r l) ∧
      SameChoice (bestBundledVersion r l) (bestBundledVersion r bundled)) ↔
    (∀ v ∈ bundled, parseVersion v = parseVersion r → v = r) ∧
    (r ∉ bundled → ∀ c, Nearest parseVersion r bundled c → Nearest releaseNumber r bundled c) := by
  constructor
  · intro h
    have hsame : ∀ v ∈ bundled, parseVersion v = parseVersion r → v = r := by
      intro v hv heq
      -- with `v` in front, `v` is what the scan returns
      have hperm : (v :: bundled.erase v).Perm bundled := (perm_cons_erase hv).symm
      have hfirst : bestBundledVersion r (v :: bundled.erase v) = some (v, .exact) :=
        bestBundledVersion_of_find (find?_cons_of_pos (by simpa using heq))
      rcases (h _ hperm).1 with ⟨-, hbest⟩ | ⟨-, hnear⟩
      · rw [hfirst] at hbest
        simpa using hbest
      · rw [hfirst] at hnear
        cases hnear
    refine ⟨hsame, fun hr c hc => ?_⟩
    have hne : ∀ v ∈ bundled, parseVersion v ≠ parseVersion r := fun v hv heq =>
      hr (hsame v hv heq ▸ hv)
    obtain ⟨l, hperm, rfl⟩ := hc.exists_perm hne
    rcases (h l hperm).1 with ⟨hrl, -⟩ | ⟨-, hnear⟩
    · exact absurd (hperm.mem_iff.mp hrl) hr
    · exact hnear.of_perm hperm.symm
  · rintro ⟨hsame, hnearest⟩
    have hbest : ∀ l, l.Perm bundled → DocumentedBest r l (bestBundledVersion r l) := by
      intro l hperm
      by_cases hr : r ∈ bundled
      · left
        have hrl : r ∈ l := hperm.mem_iff.mpr hr
        obtain ⟨v, hv⟩ : ∃ v, l.find? (fun w => parseVersion w = parseVersion r) = some v :=
          isSome_iff_exists.mp (find?_isSome.mpr ⟨r, hrl, by simp⟩)
        have heq : v = r := hsame v (hperm.mem_iff.mp (mem_of_find?_eq_some hv))
          (by simpa using find?_some hv)
        refine ⟨hrl, ?_⟩
        rw [bestBundledVersion_of_find hv, heq]
      · have hne : ∀ v ∈ l, parseVersion v ≠ parseVersion r := fun v hv heq =>
          hr (hsame v (hperm.mem_iff.mp hv) heq ▸ hperm.mem_iff.mp hv)
        have hnear := (nearest_bestBundledVersion hne).of_perm hperm.symm
        exact .inr ⟨mt hperm.mem_iff.mp hr, (hnearest hr _ hnear).of_perm hperm⟩
    exact fun l hperm => ⟨hbest l hperm,
      (hbest l hperm).sameChoice ((hbest bundled (.refl _)).of_perm hperm)⟩

/-- A release candidate is answered with the release, as if the two were the same, and the
version that is asked for can be passed over for another spelling of it. -/
theorem candidate_answered_as_exact :
    bestBundledVersion "3.0.0-rc1".toList ["2.3.2".toList, "3.0.0".toList, "3.3.7".toList] =
      some ("3.0.0".toList, .exact) ∧
    ¬ DocumentedBest "3.0.0-rc1".toList ["2.3.2".toList, "3.0.0".toList, "3.3.7".toList]
      (some ("3.0.0".toList, .exact)) ∧
    bestBundledVersion "3.6.0".toList ["3.6".toList, "3.6.0".toList] =
      some ("3.6".toList, .exact) := by
  refine ⟨by decide +kernel, ?_, by decide +kernel⟩
  rintro (⟨hmem, -⟩ | ⟨-, hnear⟩)
  · exact absurd hmem (by decide)
  · cases hnear

end Mirror
end TortaCore
