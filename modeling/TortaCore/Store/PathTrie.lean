import Mathlib.Data.List.Nodup
import Mathlib.Order.WellFounded

/-!
# Tries of covering paths

A trie whose terminal nodes *cover* everything beneath them: a path is covered
when one of its prefixes ends at a terminal.  Insertion stops at a covering
terminal and prunes what a new terminal covers, so that the terminals are at
any time the prefix-minimal paths of all that was inserted.

The edges of a node form an association list with one row per key, in some
order; no result below depends on that order.

## Main definitions

* `PathTrie`, `PathTrie.insert`, `PathTrie.covers`: the trie, insertion, lookup.
* `PathTrie.subtree?`, `PathTrie.Ends`: the node a path leads to.
* `PathTrie.Tidy`: one row per key, terminals are leaves, leaves are terminals.
* `PathTrie.walk`, `PathTrie.terminals`: the traversal of the terminals.

## Main results

* `PathTrie.tidy_insert`: insertion keeps a trie tidy.
* `PathTrie.ends_foldl_insert`: the terminals after any run of insertions are
  the minimal paths of the inserted set.
* `PathTrie.covers_iff`: lookup finds exactly the paths with a terminal prefix.
* `PathTrie.covers_insert`: what is covered stays covered.
* `PathTrie.mem_terminals_iff`, `PathTrie.nodup_terminals`: the traversal
  visits every terminal exactly once.
-/

namespace TortaCore
namespace Store

open List

/-! ### Association lists -/

section Assoc

variable {κ ν : Type*} [DecidableEq κ]

/-- The value in the first row of key `k`. -/
def assocGet (k : κ) : List (κ × ν) → Option ν
  | [] => none
  | (k', v) :: rows => if k' = k then some v else assocGet k rows

/-- Overwrite the row of key `k`, or append one. -/
def assocSet (k : κ) (v : ν) : List (κ × ν) → List (κ × ν)
  | [] => [(k, v)]
  | (k', v') :: rows => if k' = k then (k, v) :: rows else (k', v') :: assocSet k v rows

theorem assocGet_assocSet (k j : κ) (v : ν) : ∀ rows : List (κ × ν),
    assocGet j (assocSet k v rows) = if k = j then some v else assocGet j rows := by
  intro rows
  induction rows with
  | nil => simp [assocSet, assocGet]
  | cons row rows ih =>
    rw [assocSet]
    by_cases hk : row.1 = k
    · rw [if_pos hk]
      by_cases hj : k = j
      · simp [assocGet, hj]
      · have hrow : row.1 ≠ j := fun h => hj (hk ▸ h)
        simp [assocGet, hj, hrow]
    · rw [if_neg hk, assocGet, ih, assocGet]
      by_cases hj : k = j
      · have hrow : row.1 ≠ j := fun h => hk (h.trans hj.symm)
        simp [hj, hrow]
      · simp [hj]

theorem assocSet_ne_nil (k : κ) (v : ν) (rows : List (κ × ν)) : assocSet k v rows ≠ [] := by
  cases rows with
  | nil => simp [assocSet]
  | cons row rows =>
    rw [assocSet]
    split <;> simp

theorem length_assocSet_le (k : κ) (v : ν) : ∀ rows : List (κ × ν),
    (assocSet k v rows).length ≤ rows.length + 1 := by
  intro rows
  induction rows with
  | nil => exact le_rfl
  | cons row rows ih =>
    rw [assocSet]
    split
    · exact Nat.le_succ _
    · rw [length_cons, length_cons]
      omega

variable {rows : List (κ × ν)} {v : ν}

theorem length_assocSet_of_get_eq_none {k : κ}
    (h : assocGet k rows = none) : (assocSet k v rows).length = rows.length + 1 := by
  induction rows with
  | nil => rfl
  | cons row rows ih =>
    rw [assocGet] at h
    split at h
    · cases h
    · next hk => rw [assocSet, if_neg hk, length_cons, ih h, length_cons]

theorem mem_keys_assocSet {k j : κ} :
    j ∈ (assocSet k v rows).map Prod.fst ↔ j = k ∨ j ∈ rows.map Prod.fst := by
  induction rows with
  | nil => simp [assocSet]
  | cons row rows ih =>
    rw [assocSet]
    by_cases hk : row.1 = k
    · simp [hk]
    · simp only [if_neg hk, map_cons, mem_cons, ih]
      exact or_left_comm

theorem nodup_keys_assocSet {k : κ}
    (h : (rows.map Prod.fst).Nodup) : ((assocSet k v rows).map Prod.fst).Nodup := by
  induction rows with
  | nil => simp [assocSet]
  | cons row rows ih =>
    obtain ⟨hrow, hrows⟩ := nodup_cons.mp h
    rw [assocSet]
    by_cases hk : row.1 = k
    · simpa [if_pos hk, ← hk] using h
    rw [if_neg hk]
    refine nodup_cons.mpr ⟨?_, ih hrows⟩
    rw [mem_keys_assocSet]
    rintro (h' | h')
    · exact hk h'
    · exact hrow h'

theorem mem_of_assocGet {k : κ} (h : assocGet k rows = some v) :
    (k, v) ∈ rows := by
  induction rows with
  | nil => simp [assocGet] at h
  | cons row rows ih =>
    rw [assocGet] at h
    split at h
    · next hk =>
      cases h
      cases hk
      exact mem_cons_self
    · exact mem_cons_of_mem _ (ih h)

theorem assocGet_of_mem {k : κ}
    (hnd : (rows.map Prod.fst).Nodup) (h : (k, v) ∈ rows) : assocGet k rows = some v := by
  induction rows with
  | nil => simp at h
  | cons row rows ih =>
    obtain ⟨hrow, hrows⟩ := nodup_cons.mp hnd
    rcases mem_cons.mp h with rfl | h
    · simp [assocGet]
    · have hk : row.1 ≠ k := fun e => hrow (e ▸ mem_map_of_mem h)
      simpa [assocGet, hk] using ih hrows h

end Assoc

/-! ### The trie -/

/-- A node: whether a path ends here, what is attached to it, and the edges. -/
inductive PathTrie (κ σ : Type*) where
  | node (terminal : Bool) (tag : σ) (children : List (κ × PathTrie κ σ))

namespace PathTrie

variable {κ σ β : Type*}

def terminal : PathTrie κ σ → Bool
  | node b _ _ => b

def tag : PathTrie κ σ → σ
  | node _ s _ => s

def children : PathTrie κ σ → List (κ × PathTrie κ σ)
  | node _ _ cs => cs

/-- A node without edges at which nothing ends. -/
def leaf (s : σ) : PathTrie κ σ := node false s []

def mapTag (f : σ → σ) : PathTrie κ σ → PathTrie κ σ
  | node b s cs => node b (f s) cs

@[simp] theorem terminal_node (b : Bool) (s : σ) (cs : List (κ × PathTrie κ σ)) :
    (node b s cs).terminal = b := rfl

@[simp] theorem children_node (b : Bool) (s : σ) (cs : List (κ × PathTrie κ σ)) :
    (node b s cs).children = cs := rfl

@[simp] theorem terminal_leaf (s : σ) : (leaf s : PathTrie κ σ).terminal = false := rfl

@[simp] theorem children_leaf (s : σ) : (leaf s : PathTrie κ σ).children = [] := rfl

@[simp] theorem terminal_mapTag (f : σ → σ) (t : PathTrie κ σ) :
    (t.mapTag f).terminal = t.terminal := by
  cases t; rfl

@[simp] theorem children_mapTag (f : σ → σ) (t : PathTrie κ σ) :
    (t.mapTag f).children = t.children := by
  cases t; rfl

variable [DecidableEq κ]

def child? (t : PathTrie κ σ) (k : κ) : Option (PathTrie κ σ) := assocGet k t.children

def setChild (t : PathTrie κ σ) (k : κ) (c : PathTrie κ σ) : PathTrie κ σ :=
  node t.terminal t.tag (assocSet k c t.children)

/-- Insert a path: create the missing nodes on the way, stop at a terminal that
covers the path already, and let the last node become a terminal without edges.
`mark` is applied to the tag of the terminal that covers the path afterwards. -/
def insert (mark : σ → σ) (fresh : σ) : List κ → PathTrie κ σ → PathTrie κ σ
  | [], t => if t.terminal then t.mapTag mark else node true (mark t.tag) []
  | k :: ks, t =>
    let c := (t.child? k).getD (leaf fresh)
    t.setChild k (if c.terminal then c.mapTag mark else insert mark fresh ks c)

/-- Whether the walk along a path meets a terminal: the start itself counts only
when the path is empty. -/
def covers : List κ → PathTrie κ σ → Bool
  | [], t => t.terminal
  | k :: ks, t =>
    match t.child? k with
    | some c => c.terminal || covers ks c
    | none => false

/-- The node that a path leads to. -/
def subtree? : List κ → PathTrie κ σ → Option (PathTrie κ σ)
  | [], t => some t
  | k :: ks, t => (t.child? k).bind (subtree? ks)

/-- The path ends at a terminal. -/
def Ends (p : List κ) (t : PathTrie κ σ) : Prop :=
  ∃ s, t.subtree? p = some s ∧ s.terminal = true

@[simp] theorem ends_nil (t : PathTrie κ σ) : Ends [] t ↔ t.terminal = true := by
  simp [Ends, subtree?]

theorem ends_cons (k : κ) (ks : List κ) (t : PathTrie κ σ) :
    Ends (k :: ks) t ↔ ∃ c, t.child? k = some c ∧ Ends ks c := by
  simp only [Ends, subtree?, Option.bind_eq_some_iff]
  constructor
  · rintro ⟨s, ⟨c, hc, hs⟩, ht⟩
    exact ⟨c, hc, s, hs, ht⟩
  · rintro ⟨c, hc, s, hs, ht⟩
    exact ⟨s, ⟨c, hc, hs⟩, ht⟩

@[simp] theorem child?_leaf (s : σ) (k : κ) : (leaf s : PathTrie κ σ).child? k = none := rfl

theorem child?_setChild (t c : PathTrie κ σ) (k j : κ) :
    (t.setChild k c).child? j = if k = j then some c else t.child? j :=
  assocGet_assocSet k j c t.children

@[simp] theorem terminal_setChild (t c : PathTrie κ σ) (k : κ) :
    (t.setChild k c).terminal = t.terminal := rfl

/-- A missing child behaves like the fresh leaf that insertion puts in its place. -/
theorem ends_cons_getD (k : κ) (ks : List κ) (t : PathTrie κ σ) (s : σ) :
    Ends (k :: ks) t ↔ Ends ks ((t.child? k).getD (leaf s)) := by
  rw [ends_cons]
  cases h : t.child? k with
  | some c => simp
  | none =>
    cases ks with
    | nil => simp
    | cons k' ks => simp [ends_cons]

theorem ends_cons_setChild (t c : PathTrie κ σ) (k j : κ) (ks : List κ) :
    Ends (j :: ks) (t.setChild k c) ↔ if k = j then Ends ks c else Ends (j :: ks) t := by
  rw [ends_cons, child?_setChild]
  split
  · simp
  · rw [ends_cons]

theorem ends_mapTag (f : σ → σ) (p : List κ) (t : PathTrie κ σ) :
    Ends p (t.mapTag f) ↔ Ends p t := by
  cases p with
  | nil => simp
  | cons k ks => simp [ends_cons, child?]

/-! ### Terminals after an insertion -/

/-- Some prefix of the path ends at a terminal. -/
def Covered (p : List κ) (t : PathTrie κ σ) : Prop := ∃ q, q <+: p ∧ Ends q t

theorem covered_nil (t : PathTrie κ σ) : Covered [] t ↔ t.terminal = true := by
  simp [Covered]

theorem covered_cons (k : κ) (ks : List κ) (t : PathTrie κ σ) (s : σ) :
    Covered (k :: ks) t ↔ t.terminal = true ∨ Covered ks ((t.child? k).getD (leaf s)) := by
  constructor
  · rintro ⟨q, hq, he⟩
    cases q with
    | nil => exact .inl ((ends_nil t).mp he)
    | cons j q =>
      obtain ⟨rfl, hqs⟩ := cons_prefix_cons.mp hq
      exact .inr ⟨q, hqs, (ends_cons_getD _ _ _ s).mp he⟩
  · rintro (h | ⟨q, hq, he⟩)
    · exact ⟨[], nil_prefix, (ends_nil t).mpr h⟩
    · exact ⟨k :: q, cons_prefix_cons.mpr ⟨rfl, hq⟩, (ends_cons_getD _ _ _ s).mpr he⟩

theorem covered_of_terminal {t : PathTrie κ σ} (h : t.terminal = true) (p : List κ) :
    Covered p t :=
  ⟨[], nil_prefix, (ends_nil t).mpr h⟩

/-- What one insertion does to the terminals: nothing when the path is covered
already; otherwise the path becomes one and replaces those beneath it. -/
theorem ends_insert (mark : σ → σ) (fresh : σ) (l : List κ) (t : PathTrie κ σ) (p : List κ)
    (ht : t.terminal = false) :
    (Ends p (insert mark fresh l t) ↔
        (Ends p t ∧ (¬ l <+: p ∨ Covered l t)) ∨ (p = l ∧ ¬ Covered l t)) := by
  induction l generalizing t p with
  | nil =>
    have hnew : Ends p (insert mark fresh [] t) ↔ p = [] := by
      cases p <;> simp [insert, ht, ends_cons, child?, assocGet]
    rw [hnew, covered_nil, ht]
    simp
  | cons k ks ih =>
    rw [covered_cons k ks t fresh, ht]
    cases p with
    | nil => simp [insert, ht]
    | cons j js =>
      rw [insert, ends_cons_setChild]
      by_cases hkj : k = j
      · subst hkj
        rw [if_pos rfl, ends_cons_getD k js t fresh]
        generalize (t.child? k).getD (leaf fresh) = c
        cases hc : c.terminal with
        | true => simp [ends_mapTag, covered_of_terminal hc ks]
        | false =>
          have hstep := ih c js hc
          simpa [cons_prefix_cons] using hstep
      · simp [cons_prefix_cons, hkj, Ne.symm hkj]

theorem terminal_insert_of_ne_nil (mark : σ → σ) (fresh : σ) {l : List κ} (hl : l ≠ [])
    (t : PathTrie κ σ) : (insert mark fresh l t).terminal = t.terminal := by
  cases l with
  | nil => exact absurd rfl hl
  | cons k ks => rfl

theorem covers_iff (p : List κ) (t : PathTrie κ σ) (ht : t.terminal = false) :
    (covers p t = true ↔ Covered p t) := by
  induction p generalizing t with
  | nil => rw [covered_nil, covers]
  | cons k ks ih =>
    rw [covered_cons k ks t t.tag, ht, covers]
    cases h : t.child? k with
    | none =>
      -- nothing lies beneath a missing child
      have hleaf : ¬ Covered ks (leaf t.tag : PathTrie κ σ) := by
        rintro ⟨q, -, he⟩
        cases q <;> simp [ends_cons] at he
      simp [hleaf]
    | some c =>
      cases hc : c.terminal with
      | true => simp [hc, covered_of_terminal hc ks]
      | false => simp [hc, ih c hc]

/-! ### Insertion uncovers nothing -/

theorem covers_insert_cons {mark : σ → σ} {fresh : σ} {ks : List κ}
    (h : ∀ (c : PathTrie κ σ) (p : List κ), (c.terminal || covers p c) = true →
      ((insert mark fresh ks c).terminal || covers p (insert mark fresh ks c)) = true)
    (k : κ) (t : PathTrie κ σ) (p : List κ) (hp : covers p t = true) :
    covers p (insert mark fresh (k :: ks) t) = true := by
  cases p with
  | nil => exact hp
  | cons j js =>
    rw [covers] at hp ⊢
    rw [insert, child?_setChild]
    by_cases hkj : k = j
    · subst hkj
      cases hc : t.child? k with
      | none => simp [hc] at hp
      | some c =>
        simp only [hc] at hp
        cases hterm : c.terminal with
        | true => simp [hterm]
        | false => simpa [hterm] using h c js hp
    · rw [if_neg hkj]
      exact hp

/-- The start is a terminal or the walk meets one: that is so after an insertion too. -/
theorem reached_insert (mark : σ → σ) (fresh : σ) (l : List κ) (t : PathTrie κ σ) (p : List κ)
    (hp : (t.terminal || covers p t) = true) :
    ((insert mark fresh l t).terminal || covers p (insert mark fresh l t)) = true := by
  induction l generalizing t p with
  | nil =>
    rw [insert]
    cases hterm : t.terminal with
    | true => simp [hterm]
    | false => rfl
  | cons k ks ih =>
    rw [Bool.or_eq_true] at hp ⊢
    exact hp.imp id (covers_insert_cons ih k t p)

theorem covers_insert (mark : σ → σ) (fresh : σ) {l : List κ} (hl : l ≠ [])
    {t : PathTrie κ σ} {p : List κ} (hp : covers p t = true) :
    covers p (insert mark fresh l t) = true := by
  cases l with
  | nil => exact absurd rfl hl
  | cons k ks => exact covers_insert_cons (reached_insert mark fresh ks) k t p hp

end PathTrie

/-! ### Minimal paths -/

section Minimal

variable {κ : Type*}

/-- The members of a set of paths that have no proper prefix in the set. -/
def minimalPaths (S : Set (List κ)) : Set (List κ) :=
  {p | p ∈ S ∧ ∀ q ∈ S, q <+: p → q = p}

variable {S : Set (List κ)}

theorem exists_minimal_prefix {p : List κ} (hp : p ∈ S) :
    ∃ m ∈ minimalPaths S, m <+: p := by
  -- the shortest prefix in the set
  obtain ⟨m, ⟨hm, hmp⟩, hmin⟩ := (measure length).wf.has_min {q | q ∈ S ∧ q <+: p}
    ⟨p, hp, prefix_rfl⟩
  refine ⟨m, ⟨hm, fun q hq hqm => hqm.eq_of_length_le ?_⟩, hmp⟩
  exact Nat.not_lt.mp (hmin q ⟨hq, hqm.trans hmp⟩)

theorem minimal_prefix_iff {p : List κ} :
    (∃ q, q <+: p ∧ q ∈ minimalPaths S) ↔ ∃ q ∈ S, q <+: p := by
  constructor
  · rintro ⟨q, hq, hm⟩
    exact ⟨q, hm.1, hq⟩
  · rintro ⟨q, hq, hqp⟩
    obtain ⟨m, hm, hmq⟩ := exists_minimal_prefix hq
    exact ⟨m, hmq.trans hqp, hm⟩

theorem mem_minimalPaths_insert {l p : List κ} :
    p ∈ minimalPaths (insert l S) ↔
      (p ∈ minimalPaths S ∧ (¬ l <+: p ∨ ∃ q ∈ S, q <+: l)) ∨
        (p = l ∧ ¬ ∃ q ∈ S, q <+: l) := by
  constructor
  · rintro ⟨hp, hmin⟩
    by_cases hcov : ∃ q ∈ S, q <+: l
    · obtain ⟨q, hq, hql⟩ := hcov
      refine .inl ⟨⟨?_, fun r hr => hmin r (.inr hr)⟩, .inr ⟨q, hq, hql⟩⟩
      rcases hp with rfl | hp
      · exact hmin q (.inr hq) hql ▸ hq
      · exact hp
    · rcases hp with rfl | hp
      · exact .inr ⟨rfl, hcov⟩
      · refine .inl ⟨⟨hp, fun r hr => hmin r (.inr hr)⟩, .inl fun hlp => hcov ?_⟩
        exact ⟨p, hp, hmin l (.inl rfl) hlp ▸ prefix_rfl⟩
  · rintro (⟨⟨hp, hmin⟩, hl⟩ | ⟨rfl, hcov⟩)
    · refine ⟨.inr hp, ?_⟩
      rintro r (rfl | hr) hrp
      · rcases hl with hl | ⟨q, hq, hql⟩
        · exact absurd hrp hl
        · -- `q` lies below `r` and `r` below the minimal `p`, so all three agree
          have hqp := hmin q hq (hql.trans hrp)
          exact hrp.eq_of_length_le (hqp ▸ hql.length_le)
      · exact hmin r hr hrp
    · refine ⟨.inl rfl, ?_⟩
      rintro r (rfl | hr) hrp
      · rfl
      · exact absurd ⟨r, hr, hrp⟩ hcov

/-- Two sets that cover each other have the same minimal paths. -/
theorem minimalPaths_eq_of_cover {S T : Set (List κ)}
    (hST : ∀ p ∈ S, ∃ q ∈ T, q <+: p) (hTS : ∀ p ∈ T, ∃ q ∈ S, q <+: p) :
    minimalPaths S = minimalPaths T := by
  have key : ∀ {A B : Set (List κ)}, (∀ p ∈ A, ∃ q ∈ B, q <+: p) →
      (∀ p ∈ B, ∃ q ∈ A, q <+: p) → minimalPaths A ⊆ minimalPaths B := by
    intro A B hAB hBA p hp
    obtain ⟨q, hq, hqp⟩ := hAB p hp.1
    obtain ⟨r, hr, hrq⟩ := hBA q hq
    have hrp := hp.2 r hr (hrq.trans hqp)
    have hpq : q = p := hqp.eq_of_length_le (hrp ▸ hrq.length_le)
    refine ⟨hpq ▸ hq, fun s hs hsp => ?_⟩
    obtain ⟨u, hu, hus⟩ := hBA s hs
    have hup := hp.2 u hu (hus.trans hsp)
    exact hsp.eq_of_length_le (hup ▸ hus.length_le)
  exact Set.Subset.antisymm (key hST hTS) (key hTS hST)

end Minimal

namespace PathTrie

variable {κ σ β : Type*} [DecidableEq κ]

/-! ### Runs of insertions -/

/-- Over a whole run of insertions the terminals are the minimal paths of what
was inserted so far, and the root is never one. -/
theorem ends_foldl_insert (mark : σ → σ) (fresh : σ) (ls : List (List κ)) :
    ∀ (t : PathTrie κ σ) (S : Set (List κ)), t.terminal = false →
      (∀ p, Ends p t ↔ p ∈ minimalPaths S) → (∀ l ∈ ls, l ≠ []) →
      let t' := ls.foldl (fun t l => insert mark fresh l t) t
      t'.terminal = false ∧ ∀ p, Ends p t' ↔ p ∈ minimalPaths (S ∪ {l | l ∈ ls}) := by
  induction ls with
  | nil =>
    intro t S ht hS _
    simpa using And.intro ht hS
  | cons l ls ih =>
    intro t S ht hS hne
    have hcov : Covered l t ↔ ∃ q ∈ S, q <+: l := by
      simp only [Covered, hS]
      exact minimal_prefix_iff
    have hstep : ∀ p, Ends p (insert mark fresh l t) ↔ p ∈ minimalPaths (Insert.insert l S) := by
      intro p
      rw [ends_insert mark fresh l t p ht, mem_minimalPaths_insert, hcov, hS]
    have hroot : (insert mark fresh l t).terminal = false := by
      rw [terminal_insert_of_ne_nil mark fresh (hne l mem_cons_self), ht]
    have hset : Insert.insert l S ∪ {x | x ∈ ls} = S ∪ {x | x ∈ l :: ls} := by
      ext x
      simp only [Set.mem_union, Set.mem_insert_iff, Set.mem_ofPred_eq, mem_cons]
      tauto
    have hrun := ih _ _ hroot hstep fun x hx => hne x (mem_cons_of_mem _ hx)
    rw [hset] at hrun
    exact hrun

theorem not_ends_leaf (s : σ) (p : List κ) : ¬ Ends p (leaf s : PathTrie κ σ) := by
  cases p <;> simp [ends_cons]

variable {ls : List (List κ)}

theorem insertAll_spec (mark : σ → σ) (fresh s : σ) (h : ∀ l ∈ ls, l ≠ []) :
    (ls.foldl (fun t l => insert mark fresh l t) (leaf s)).terminal = false ∧
      ∀ p, Ends p (ls.foldl (fun t l => insert mark fresh l t) (leaf s)) ↔
        p ∈ minimalPaths {l | l ∈ ls} := by
  have hrun := ends_foldl_insert mark fresh ls (leaf s) ∅ rfl
    (fun p => ⟨fun he => absurd he (not_ends_leaf s p), fun hp => hp.1.elim⟩) h
  simpa using hrun

/-- Lookup after a run of insertions: some inserted path is a prefix. -/
theorem covers_insertAll (mark : σ → σ) (fresh s : σ) (h : ∀ l ∈ ls, l ≠ []) (p : List κ) :
    covers p (ls.foldl (fun t l => insert mark fresh l t) (leaf s)) = true ↔
      ∃ l ∈ ls, l <+: p := by
  obtain ⟨hroot, hends⟩ := insertAll_spec mark fresh s h
  rw [covers_iff p _ hroot]
  simp only [Covered, hends]
  exact minimal_prefix_iff

/-! ### Tidy tries -/

/-- One row per key everywhere, terminals are leaves, and apart from the root
leaves are terminals. -/
structure Tidy (t : PathTrie κ σ) : Prop where
  nodup : ∀ p s, t.subtree? p = some s → (s.children.map Prod.fst).Nodup
  leaf_of_terminal : ∀ p s, t.subtree? p = some s → s.terminal = true → s.children = []
  terminal_of_leaf : ∀ p s, t.subtree? p = some s → p ≠ [] → s.children = [] → s.terminal = true

theorem tidy_leaf (s : σ) : Tidy (leaf s : PathTrie κ σ) := by
  have hsub : ∀ p r, (leaf s : PathTrie κ σ).subtree? p = some r → p = [] ∧ r = leaf s := by
    intro p r h
    cases p with
    | nil => simpa [subtree?, eq_comm] using h
    | cons k ks => simp [subtree?] at h
  refine ⟨?_, ?_, ?_⟩
  · intro p r h
    simp [(hsub p r h).2]
  · intro p r h
    simp [(hsub p r h).2]
  · intro p r h hp; exact absurd (hsub p r h).1 hp

theorem Tidy.child {t c : PathTrie κ σ} (h : Tidy t) {k : κ} (hc : t.child? k = some c) :
    Tidy c ∧ (c.children = [] → c.terminal = true) := by
  have hsub : ∀ p, t.subtree? (k :: p) = c.subtree? p := fun p => by simp [subtree?, hc]
  refine ⟨⟨?_, ?_, ?_⟩, ?_⟩
  · intro p s hs; exact h.nodup (k :: p) s ((hsub p).trans hs)
  · intro p s hs; exact h.leaf_of_terminal (k :: p) s ((hsub p).trans hs)
  · intro p s hs _; exact h.terminal_of_leaf (k :: p) s ((hsub p).trans hs) (by simp)
  · exact h.terminal_of_leaf [k] c (hsub []) (by simp)

theorem tidy_of_children {t : PathTrie κ σ} (hnd : (t.children.map Prod.fst).Nodup)
    (hleaf : t.terminal = true → t.children = [])
    (hch : ∀ k c, t.child? k = some c → Tidy c ∧ (c.children = [] → c.terminal = true)) :
    Tidy t := by
  have split : ∀ p s, t.subtree? p = some s → (p = [] ∧ s = t) ∨
      ∃ k q c, p = k :: q ∧ t.child? k = some c ∧ c.subtree? q = some s := by
    intro p s hs
    cases p with
    | nil => exact .inl ⟨rfl, by simpa [subtree?, eq_comm] using hs⟩
    | cons k q =>
      obtain ⟨c, hc, hs⟩ := Option.bind_eq_some_iff.mp hs
      exact .inr ⟨k, q, c, rfl, hc, hs⟩
  refine ⟨?_, ?_, ?_⟩
  · intro p s hs
    rcases split p s hs with ⟨-, rfl⟩ | ⟨k, q, c, -, hc, hs⟩
    · exact hnd
    · exact (hch k c hc).1.nodup q s hs
  · intro p s hs
    rcases split p s hs with ⟨-, rfl⟩ | ⟨k, q, c, -, hc, hs⟩
    · exact hleaf
    · exact (hch k c hc).1.leaf_of_terminal q s hs
  · intro p s hs hp
    rcases split p s hs with ⟨rfl, -⟩ | ⟨k, q, c, -, hc, hs⟩
    · exact absurd rfl hp
    cases q with
    | nil =>
      obtain rfl : c = s := by simpa [subtree?] using hs
      exact (hch k c hc).2
    | cons j q => exact (hch k c hc).1.terminal_of_leaf (j :: q) s hs (by simp)

theorem tidy_mapTag {f : σ → σ} {t : PathTrie κ σ} (h : Tidy t) : Tidy (t.mapTag f) := by
  refine tidy_of_children ?_ ?_ fun k c hc => h.child (k := k) (by simpa [child?] using hc)
  · simpa using h.nodup [] t rfl
  · simpa using h.leaf_of_terminal [] t rfl

theorem tidy_insert (mark : σ → σ) (fresh : σ) (l : List κ) (t : PathTrie κ σ)
    (ht : t.terminal = false) (h : Tidy t) :
    Tidy (insert mark fresh l t) ∧
        ((insert mark fresh l t).children = [] → (insert mark fresh l t).terminal = true) := by
  induction l generalizing t with
  | nil =>
    rw [insert, ht]
    refine ⟨tidy_of_children ?_ ?_ ?_, fun _ => rfl⟩
    · simp
    · simp
    · intro k c hc; simp [child?, assocGet] at hc
  | cons k ks ih =>
    refine ⟨tidy_of_children ?_ ?_ ?_, fun h => absurd h (assocSet_ne_nil _ _ _)⟩
    · exact nodup_keys_assocSet (h.nodup [] t rfl)
    · intro hterm
      exact absurd hterm (by simp [insert, ht])
    · intro j d hd
      rw [insert, child?_setChild] at hd
      split at hd
      · cases hd
        -- the child on the way: either it was there already, or it is a fresh leaf
        cases hc : t.child? k with
        | none => exact ih (leaf fresh) rfl (tidy_leaf fresh)
        | some c =>
          obtain ⟨htidy, hlive⟩ := h.child hc
          cases hterm : c.terminal with
          | true => simpa [hterm] using tidy_mapTag htidy
          | false => simpa [hterm] using ih c hterm htidy
      · exact h.child hd

theorem tidy_insertAll (mark : σ → σ) (fresh s : σ) (h : ∀ l ∈ ls, l ≠ []) :
    Tidy (ls.foldl (fun t l => insert mark fresh l t) (leaf s)) := by
  suffices hgen : ∀ t : PathTrie κ σ, t.terminal = false → Tidy t →
      Tidy (ls.foldl (fun t l => insert mark fresh l t) t) from hgen _ rfl (tidy_leaf s)
  induction ls with
  | nil => exact fun t _ ht => ht
  | cons l ls ih =>
    intro t hterm ht
    refine ih (fun x hx => h x (mem_cons_of_mem _ hx)) _ ?_ (tidy_insert _ _ l t hterm ht).1
    rw [terminal_insert_of_ne_nil mark fresh (h l mem_cons_self), hterm]

/-! ### The traversal of the terminals -/

section Walk

omit [DecidableEq κ]

mutual

/-- Visit the terminals top-down, carrying a value that `extend` updates along
each edge; nothing beneath a terminal is visited. -/
def walk (extend : β → κ → β) (b : β) : PathTrie κ σ → List β
  | node true _ _ => [b]
  | node false _ cs => walkChildren extend b cs

def walkChildren (extend : β → κ → β) (b : β) : List (κ × PathTrie κ σ) → List β
  | [] => []
  | (k, c) :: cs => walk extend (extend b k) c ++ walkChildren extend b cs

end

mutual

/-- The paths of the terminals that `walk` visits, in its order. -/
def terminals : PathTrie κ σ → List (List κ)
  | node true _ _ => [[]]
  | node false _ cs => terminalsOf cs

def terminalsOf : List (κ × PathTrie κ σ) → List (List κ)
  | [] => []
  | (k, c) :: cs => (terminals c).map (k :: ·) ++ terminalsOf cs

end

mutual

/-- The traversal computes one value per terminal, from its path alone. -/
theorem walk_eq_map (extend : β → κ → β) (b : β) : ∀ t : PathTrie κ σ,
    walk extend b t = (terminals t).map (List.foldl extend b)
  | node true _ _ => rfl
  | node false _ cs => walkChildren_eq_map extend b cs

theorem walkChildren_eq_map (extend : β → κ → β) (b : β) : ∀ cs : List (κ × PathTrie κ σ),
    walkChildren extend b cs = (terminalsOf cs).map (List.foldl extend b)
  | [] => rfl
  | (k, c) :: cs => by
    rw [walkChildren, terminalsOf, map_append, map_map,
      walk_eq_map extend (extend b k) c, walkChildren_eq_map extend b cs]
    rfl

end

theorem mem_terminalsOf {p : List κ} : ∀ {cs : List (κ × PathTrie κ σ)},
    p ∈ terminalsOf cs ↔ ∃ k c q, (k, c) ∈ cs ∧ p = k :: q ∧ q ∈ terminals c := by
  intro cs
  induction cs with
  | nil => simp [terminalsOf]
  | cons row cs ih =>
    rw [terminalsOf, mem_append, ih, mem_map]
    constructor
    · rintro (⟨q, hq, rfl⟩ | ⟨k, c, q, hc, rfl, hq⟩)
      · exact ⟨row.1, row.2, q, mem_cons_self, rfl, hq⟩
      · exact ⟨k, c, q, mem_cons_of_mem _ hc, rfl, hq⟩
    · rintro ⟨k, c, q, hc, rfl, hq⟩
      rcases mem_cons.mp hc with rfl | hc
      · exact .inl ⟨q, hq, rfl⟩
      · exact .inr ⟨k, c, q, hc, rfl, hq⟩

theorem nodup_terminalsOf {cs : List (κ × PathTrie κ σ)} (hnd : (cs.map Prod.fst).Nodup)
    (hrows : ∀ row ∈ cs, (terminals row.2).Nodup) : (terminalsOf cs).Nodup := by
  induction cs with
  | nil => simp [terminalsOf]
  | cons row cs ih =>
    obtain ⟨hrow, hcs⟩ := nodup_cons.mp hnd
    refine Nodup.append ?_ (ih hcs fun r hr => hrows r (mem_cons_of_mem _ hr)) ?_
    · exact (hrows row mem_cons_self).map fun a b h => (cons.inj h).2
    · -- the two parts start with different keys
      intro p hp hp'
      obtain ⟨q, -, rfl⟩ := mem_map.mp hp
      obtain ⟨k, c, q', hc, heq, -⟩ := mem_terminalsOf.mp hp'
      exact hrow ((cons.inj heq).1 ▸ mem_map_of_mem hc)

end Walk

/-- In a tidy trie the traversal visits exactly the paths that end at a terminal. -/
theorem mem_terminals_iff : ∀ (p : List κ) {t : PathTrie κ σ}, Tidy t →
    (p ∈ terminals t ↔ Ends p t) := by
  intro p
  induction p with
  | nil =>
    rintro ⟨b, s, cs⟩ _
    cases b with
    | true => simp [terminals]
    | false => simp [terminals, mem_terminalsOf]
  | cons k ks ih =>
    rintro ⟨b, s, cs⟩ h
    rw [ends_cons]
    cases b with
    | true =>
      have hcs : cs = [] := h.leaf_of_terminal [] _ rfl rfl
      simp [terminals, child?, assocGet, hcs]
    | false =>
      have hnd : (cs.map Prod.fst).Nodup := h.nodup [] _ rfl
      rw [terminals, mem_terminalsOf]
      constructor
      · rintro ⟨j, c, q, hc, heq, hq⟩
        obtain ⟨rfl, rfl⟩ := cons.inj heq
        have hget : child? (node false s cs) k = some c := assocGet_of_mem hnd hc
        exact ⟨c, hget, (ih (h.child hget).1).mp hq⟩
      · rintro ⟨c, hc, he⟩
        exact ⟨k, c, ks, mem_of_assocGet hc, rfl, (ih (h.child hc).1).mpr he⟩

/-- In a tidy trie no terminal is visited twice. -/
theorem nodup_terminals : ∀ t : PathTrie κ σ, Tidy t → (terminals t).Nodup
  | node true _ _, _ => by simp [terminals]
  | node false s cs, h => by
    have hnd : (cs.map Prod.fst).Nodup := h.nodup [] _ rfl
    refine nodup_terminalsOf hnd fun row hrow => ?_
    exact nodup_terminals row.2 (h.child (k := row.1) (assocGet_of_mem hnd hrow)).1
termination_by t => sizeOf t
decreasing_by
  have hlt := List.sizeOf_lt_of_mem hrow
  obtain ⟨k, c⟩ := row
  simp only [Prod.mk.sizeOf_spec, node.sizeOf_spec] at hlt ⊢
  omega

/-- Tidy tries with the same terminals are traversed in the same way, up to order. -/
theorem terminals_perm {t u : PathTrie κ σ} (ht : Tidy t) (hu : Tidy u)
    (h : ∀ p, Ends p t ↔ Ends p u) : (terminals t).Perm (terminals u) := by
  rw [perm_ext_iff_of_nodup (nodup_terminals t ht) (nodup_terminals u hu)]
  intro p
  rw [mem_terminals_iff p ht, mem_terminals_iff p hu, h]

end PathTrie
end Store
end TortaCore
