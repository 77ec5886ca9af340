import Mathlib.Data.List.Sort

/-!
# Rankings

A list that is sorted by falling rank, and the search for its first entry with a property:
the sort is stable, so the search finds the entry of the highest rank, and among those of
one rank the one that came first before the sort.

## Main results

* `foremost_of_find?_rankSort`: what the search in a sorted list finds.
* `find?_rankSort_append`: entries that are appended before the sort change what the search
  finds to one of them, or not at all.
* `SameForemost.append`, `SameForemost.sort`: appending and sorting keep the order at
  each rank.
-/

namespace TortaCore
namespace Store

open List

variable {α : Type*} (rank : α → ℕ)

/-- The stable sort by falling rank. -/
def rankSort (l : List α) : List α := l.insertionSort fun a b => rank b ≤ rank a

/-- The first entry of the highest rank. -/
def Foremost (l : List α) (x : α) : Prop :=
  (l.filter fun y => rank y = rank x).head? = some x ∧ ∀ y ∈ l, rank y ≤ rank x

/-- A test that picks entries of one rank only. -/
def OneRank (q : α → Bool) : Prop := ∀ a b, q a = true → q b = true → rank a = rank b

/-- The lists have the same entries, and the same first one for each test within a rank. -/
def SameForemost (b c : List α) : Prop :=
  (∀ y, y ∈ b ↔ y ∈ c) ∧ ∀ q, OneRank rank q → (b.filter q).head? = (c.filter q).head?

variable {rank}

variable {l : List α} {x : α} {p : α → Bool}

@[simp] theorem mem_rankSort : x ∈ rankSort rank l ↔ x ∈ l :=
  mem_insertionSort _

theorem pairwise_rankSort (l : List α) :
    (rankSort rank l).Pairwise fun a b => rank b ≤ rank a := by
  exact pairwise_insertionSort _ l

/-! ### Stability -/

theorem filter_orderedInsert {q : α → Bool} (hq : OneRank rank q) (a : α) (s : List α) :
    (s.orderedInsert (fun a b => rank b ≤ rank a) a).filter q = (a :: s).filter q := by
  induction s with
  | nil => rfl
  | cons b s ih =>
    by_cases hle : rank b ≤ rank a
    · rw [orderedInsert, if_pos hle]
    -- an entry that outranks `a` is not one the test picks beside `a`
    rw [orderedInsert, if_neg hle, filter_cons, ih]
    by_cases ha : q a = true
    · have hb : ¬ q b = true := fun hb => hle (hq b a hb ha).le
      simp [ha, hb]
    · simp [ha, filter_cons]

/-- The sort keeps the order of the entries of one rank. -/
theorem filter_rankSort {q : α → Bool} (hq : OneRank rank q) (l : List α) :
    (rankSort rank l).filter q = l.filter q := by
  induction l with
  | nil => rfl
  | cons a l ih =>
    calc (rankSort rank (a :: l)).filter q
        = (a :: rankSort rank l).filter q := filter_orderedInsert hq a _
      _ = (a :: l).filter q := by rw [filter_cons, filter_cons, ih]

namespace SameForemost

theorem refl (b : List α) : SameForemost rank b b := ⟨fun _ => Iff.rfl, fun _ _ => rfl⟩

theorem sort {b c : List α} (h : SameForemost rank b c) :
    SameForemost rank (rankSort rank b) c := by
  refine ⟨fun y => mem_rankSort.trans (h.1 y), fun q hq => ?_⟩
  rw [filter_rankSort hq, h.2 q hq]

theorem append {b c : List α} (h : SameForemost rank b c) (x : α) :
    SameForemost rank (b ++ [x]) (c ++ [x]) := by
  refine ⟨fun y => ?_, fun q hq => ?_⟩
  · rw [mem_append, mem_append, h.1 y]
  · rw [filter_append, filter_append, head?_append, head?_append, h.2 q hq]

/-- An entry that is there already changes nothing when it comes again. -/
theorem append_of_mem {b c : List α} (h : SameForemost rank b c) {x : α} (hx : x ∈ b) :
    SameForemost rank b (c ++ [x]) := by
  have hxc : x ∈ c := (h.1 x).mp hx
  refine ⟨fun y => ?_, fun q hq => ?_⟩
  · rw [mem_append, mem_singleton, h.1 y]
    constructor
    · exact Or.inl
    · rintro (hy | rfl)
      · exact hy
      · exact hxc
  · rw [filter_append, head?_append, h.2 q hq]
    cases hc : c.filter q with
    | cons y ys => rfl
    | nil =>
      have hqx : ¬ q x = true := filter_eq_nil_iff.mp hc x hxc
      simp [hqx]

end SameForemost

/-! ### The search -/

theorem findSome?_eq_bind_find? {β : Type*} (f : α → Option β) (l : List α) :
    l.findSome? f = (l.find? fun a => (f a).isSome).bind f := by
  induction l with
  | nil => rfl
  | cons a l ih =>
    cases hf : f a with
    | none => simpa [hf] using ih
    | some v => simp [hf]

/-- In a list of falling ranks nothing that passes the test outranks the first that does. -/
theorem rank_le_of_find? {s : List α} (hs : s.Pairwise fun a b => rank b ≤ rank a)
    (hx : s.find? p = some x) : ∀ y ∈ s, p y = true → rank y ≤ rank x := by
  obtain ⟨_, pre, post, rfl, hpre⟩ := find?_eq_some_iff_append.mp hx
  intro y hy hpy
  rcases mem_append.mp hy with hy | hy
  · exact absurd hpy (by simpa using hpre y hy)
  · rcases mem_cons.mp hy with rfl | hy
    · exact le_rfl
    · exact rel_of_pairwise_cons (pairwise_append.mp hs).2.1 hy

/-- The search in a sorted list finds the first entry of the highest rank among those that
pass the test, in the order from before the sort. -/
theorem foremost_of_find?_rankSort {b c : List α} (h : SameForemost rank b c)
    (hx : (rankSort rank b).find? p = some x) : Foremost rank (c.filter p) x := by
  constructor
  · -- the entries of the rank of `x` that pass are in the same order on both sides
    have hone : OneRank rank fun y => decide (rank y = rank x) && p y := by
      intro a b ha hb
      simp only [Bool.and_eq_true, decide_eq_true_eq] at ha hb
      rw [ha.1, hb.1]
    have hhead : ((rankSort rank b).filter p).head? = some x := by rwa [head?_filter]
    obtain ⟨rest, hrest⟩ : ∃ rest, (rankSort rank b).filter p = x :: rest := by
      cases hf : (rankSort rank b).filter p with
      | nil => simp [hf] at hhead
      | cons y ys =>
        rw [hf, head?_cons, Option.some.injEq] at hhead
        exact ⟨ys, by rw [hhead]⟩
    rw [filter_filter, ← h.2 _ hone, ← filter_rankSort hone, ← filter_filter, hrest]
    simp
  · intro y hy
    obtain ⟨hyc, hpy⟩ := mem_filter.mp hy
    exact rank_le_of_find? (pairwise_rankSort b) hx y (mem_rankSort.mpr ((h.1 y).mpr hyc)) hpy

theorem Foremost.mem (h : Foremost rank l x) : x ∈ l :=
  (mem_filter.mp (mem_of_head? h.1)).1

theorem Foremost.unique {y : α} (hx : Foremost rank l x) (hy : Foremost rank l y) : x = y := by
  have hrank : rank x = rank y := le_antisymm (hy.2 x hx.mem) (hx.2 y hy.mem)
  have hhead := hx.1
  rw [hrank, hy.1, Option.some.injEq] at hhead
  exact hhead.symm

/-- A search in a sorted list finds what it found before entries were appended, or one of
these. -/
theorem find?_rankSort_append {y : α} {new : List α}
    (hy : (rankSort rank (l ++ new)).find? p = some y) :
    y ∈ new ∨ (rankSort rank l).find? p = some y := by
  obtain ⟨hhead, hmax⟩ := foremost_of_find?_rankSort (SameForemost.refl (l ++ new)) hy
  rw [filter_append, filter_append, head?_append, Option.or_eq_some_iff] at hhead
  rcases hhead with hhead | ⟨-, hhead⟩
  · -- `y` comes first at its rank among the old entries, so it is what was found there
    right
    have hold : Foremost rank (l.filter p) y := by
      refine ⟨hhead, fun z hz => hmax z ?_⟩
      rw [filter_append]
      exact mem_append_left _ hz
    cases hfind : (rankSort rank l).find? p with
    | some x =>
      rw [(foremost_of_find?_rankSort (SameForemost.refl l) hfind).unique hold]
    | none =>
      have hnone : ¬ p y = true :=
        find?_eq_none.mp hfind y (mem_rankSort.mpr (mem_filter.mp hold.mem).1)
      exact absurd (mem_filter.mp hold.mem).2 hnone
  · left
    exact (mem_filter.mp (mem_filter.mp (mem_of_head? hhead)).1).1

theorem find?_rankSort_eq_none {b c : List α} (h : SameForemost rank b c) :
    (rankSort rank b).find? p = none ↔ c.filter p = [] := by
  rw [find?_eq_none, filter_eq_nil_iff]
  exact forall_congr' fun y => by rw [mem_rankSort, h.1 y]

end Store
end TortaCore
