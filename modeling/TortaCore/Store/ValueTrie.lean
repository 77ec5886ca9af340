import TortaCore.Store.PathTrie

/-!
# Tries with values

A trie in which any node may carry a value, without pruning: insertion overwrites the value at its
path and touches nothing else, and the lookup along a path returns the value met last.

## Main definitions

* `ValueTrie`, `ValueTrie.insert`, `ValueTrie.get?`: the trie, insertion, the value at a path.
* `ValueTrie.deepest`: the value met last along a path.

## Main results

* `ValueTrie.get?_insert`: insertion is an update at its path.
* `ValueTrie.deepest_eq_of_longest`, `ValueTrie.deepest_eq_of_none`: the lookup finds the value at
  the longest prefix that has one.
-/

namespace TortaCore
namespace Store

open List Option

/-- A node: its value, if any, and its edges. -/
inductive ValueTrie (κ α : Type*) where
  | node (value : Option α) (children : List (κ × ValueTrie κ α))

namespace ValueTrie

variable {κ α : Type*} [DecidableEq κ]

def value : ValueTrie κ α → Option α
  | node v _ => v

def children : ValueTrie κ α → List (κ × ValueTrie κ α)
  | node _ cs => cs

def empty : ValueTrie κ α := node none []

def child? (t : ValueTrie κ α) (k : κ) : Option (ValueTrie κ α) := assocGet k t.children

def setChild (t : ValueTrie κ α) (k : κ) (c : ValueTrie κ α) : ValueTrie κ α :=
  node t.value (assocSet k c t.children)

/-- Put a value at a path; nodes that are missing on the way are created. -/
def insert (v : α) : List κ → ValueTrie κ α → ValueTrie κ α
  | [], t => node (some v) t.children
  | k :: ks, t => t.setChild k (insert v ks ((t.child? k).getD empty))

/-- The value at a path. -/
def get? : List κ → ValueTrie κ α → Option α
  | [], t => t.value
  | k :: ks, t => (t.child? k).bind (get? ks)

/-- The last value met below the start of a path, or `best` when there is none. -/
def deepest (best : Option α) : List κ → ValueTrie κ α → Option α
  | [], _ => best
  | k :: ks, t =>
    match t.child? k with
    | some c => deepest (c.value <|> best) ks c
    | none => best

@[simp] theorem get?_nil (t : ValueTrie κ α) : get? [] t = t.value := rfl

@[simp] theorem get?_cons (k : κ) (ks : List κ) (t : ValueTrie κ α) :
    get? (k :: ks) t = (t.child? k).bind (get? ks) := rfl

theorem child?_setChild (t c : ValueTrie κ α) (k j : κ) :
    (t.setChild k c).child? j = if k = j then some c else t.child? j :=
  assocGet_assocSet k j c t.children

@[simp] theorem get?_empty (p : List κ) : get? p (empty : ValueTrie κ α) = none := by
  cases p with
  | nil => rfl
  | cons k ks => rfl

/-- A missing child behaves like the empty node that insertion puts in its place. -/
theorem get?_cons_getD (k : κ) (ks : List κ) (t : ValueTrie κ α) :
    get? (k :: ks) t = get? ks ((t.child? k).getD empty) := by
  rw [get?_cons]
  cases t.child? k with
  | none => exact (get?_empty ks).symm
  | some c => rfl

/-- **Insertion is an update at its path.** -/
theorem get?_insert (v : α) (p q : List κ) (t : ValueTrie κ α) :
    get? q (insert v p t) = if p = q then some v else get? q t := by
  induction p generalizing q t with
  | nil =>
    cases q with
    | nil => rfl
    | cons k ks => rfl
  | cons k ks ih =>
    cases q with
    | nil => rfl
    | cons j js =>
      rw [insert, get?_cons, child?_setChild]
      by_cases hk : k = j
      · rw [if_pos hk, bind_some, ih, get?_cons_getD j, hk]
        simp
      · rw [if_neg hk, if_neg (by simp [hk]), get?_cons]

theorem deepest_eq_of_none {p : List κ} {t : ValueTrie κ α} {best : Option α}
    (h : ∀ q, q ≠ [] → q <+: p → get? q t = none) : deepest best p t = best := by
  induction p generalizing t best with
  | nil => rfl
  | cons k ks ih =>
    rw [deepest]
    cases hc : t.child? k with
    | none => rfl
    | some c =>
      have hbelow : ∀ q, q <+: ks → get? q c = none := by
        intro q hq
        simpa [hc] using h (k :: q) (by simp) (cons_prefix_cons.mpr ⟨rfl, hq⟩)
      have hvalue : c.value = none := hbelow [] nil_prefix
      dsimp only
      rw [hvalue, ih fun q _ hq => hbelow q hq]
      rfl

/-- **The lookup finds the value at the longest prefix that has one.** -/
theorem deepest_eq_of_longest : ∀ {p q : List κ} {t : ValueTrie κ α} {best : Option α} {a : α},
    q ≠ [] → q <+: p → get? q t = some a →
      (∀ r, q.length < r.length → r <+: p → get? r t = none) → deepest best p t = some a := by
  intro p
  induction p with
  | nil =>
    intro q t best a hne hq
    exact absurd (prefix_nil.mp hq) hne
  | cons k ks ih =>
    intro q t best a hne hq hget hlong
    cases q with
    | nil => exact absurd rfl hne
    | cons j q =>
      obtain ⟨rfl, htail⟩ := cons_prefix_cons.mp hq
      obtain ⟨c, hc, hget⟩ := bind_eq_some_iff.mp hget
      have hlong' : ∀ r, q.length < r.length → r <+: ks → get? r c = none := by
        intro r hlen hr
        simpa [hc] using hlong (j :: r) (by simpa using hlen) (cons_prefix_cons.mpr ⟨rfl, hr⟩)
      rw [deepest, hc]
      dsimp only
      cases q with
      | nil =>
        -- the child's own value, and nothing below it
        rw [get?_nil] at hget
        rw [hget, deepest_eq_of_none fun r hr => hlong' r (length_pos_iff.mpr hr)]
        rfl
      | cons i q => exact ih (by simp) htail hget hlong'

end ValueTrie
end Store
end TortaCore
