import TortaCore.Store.PathTrie

/-!
# Tags of a trie of covering paths

Every insertion marks the tag of the terminal that covers its path afterwards.  A
terminal that is pruned takes its tag with it, so the tag at the end of a run depends
on the order of the insertions; this module says how.

## Main definitions

* `PathTrie.tagAt?`: the tag of the terminal at a path.
* `PathTrie.insertMarked`: a run of insertions, each with a mark of its own.
* `PathTrie.credit`: what one insertion does to the tag at a path.
-/

namespace TortaCore
namespace Store
namespace PathTrie

open List Option

variable {κ σ : Type*} [DecidableEq κ]

/-- The tag of the terminal at a path. -/
def tagAt? (p : List κ) (t : PathTrie κ σ) : Option σ :=
  (t.subtree? p).bind fun s => if s.terminal then some s.tag else none

/-- Nodes at which nothing ends carry the fresh tag. -/
def Plain (fresh : σ) (t : PathTrie κ σ) : Prop :=
  ∀ p s, t.subtree? p = some s → s.terminal = false → s.tag = fresh

/-- No terminal lies strictly above the path. -/
def Open (p : List κ) (t : PathTrie κ σ) : Prop := ∀ q, q <+: p → q ≠ p → ¬ Ends q t

/-- A run of insertions, each with its own mark. -/
def insertMarked (fresh : σ) (ls : List (List κ × (σ → σ))) (t : PathTrie κ σ) : PathTrie κ σ :=
  ls.foldl (fun t l => insert l.2 fresh l.1 t) t

/-- What the insertion of `l` does to the tag at `p`: a path beneath `p` marks it if it
is there, `p` itself also creates it. -/
def credit (fresh : σ) (p : List κ) (o : Option σ) (l : List κ × (σ → σ)) : Option σ :=
  if p <+: l.1 then
    match o with
    | some s => some (l.2 s)
    | none => if l.1 = p then some (l.2 fresh) else none
  else o

@[simp] theorem tagAt?_nil (t : PathTrie κ σ) :
    t.tagAt? [] = if t.terminal then some t.tag else none := rfl

theorem tagAt?_cons (k : κ) (ks : List κ) (t : PathTrie κ σ) :
    t.tagAt? (k :: ks) = (t.child? k).bind (tagAt? ks) := by
  rw [tagAt?, subtree?, bind_assoc]
  rfl

@[simp] theorem tagAt?_leaf (s : σ) (p : List κ) : (leaf s : PathTrie κ σ).tagAt? p = none := by
  cases p <;> simp [tagAt?_cons]

theorem tagAt?_cons_getD (k : κ) (ks : List κ) (t : PathTrie κ σ) (s : σ) :
    t.tagAt? (k :: ks) = ((t.child? k).getD (leaf s)).tagAt? ks := by
  rw [tagAt?_cons]
  cases t.child? k <;> simp

theorem plain_leaf (fresh : σ) : Plain fresh (leaf fresh : PathTrie κ σ) := by
  intro p s hs _
  cases p with
  | nil => cases hs; rfl
  | cons k ks => simp [subtree?] at hs

variable {fresh : σ} {t : PathTrie κ σ} {p : List κ}

theorem Plain.child_getD (h : Plain fresh t) (k : κ) :
    Plain fresh ((t.child? k).getD (leaf fresh)) := by
  cases hc : t.child? k with
  | none => exact plain_leaf fresh
  | some c => exact fun p s hs => h (k :: p) s (by simpa [subtree?, hc] using hs)

/-- A node is plain when its own tag and its children are. -/
theorem plain_of_children (hroot : t.terminal = false → t.tag = fresh)
    (hch : ∀ k c, t.child? k = some c → Plain fresh c) : Plain fresh t := by
  intro p s hs hterm
  cases p with
  | nil => cases hs; exact hroot hterm
  | cons k ks =>
    obtain ⟨c, hc, hs⟩ := bind_eq_some_iff.mp hs
    exact hch k c hc ks s hs hterm

theorem plain_insert (mark : σ → σ) (fresh : σ) (l : List κ) (t : PathTrie κ σ)
    (ht : t.terminal = false) (h : Plain fresh t) : Plain fresh (insert mark fresh l t) := by
  induction l generalizing t with
  | nil =>
    rw [insert, ht]
    exact plain_of_children (fun h => absurd h (by simp)) fun k c hc => by
      simp [child?, assocGet] at hc
  | cons k ks ih =>
    refine plain_of_children (fun _ => h [] t rfl ht) fun j d hd => ?_
    rw [insert, child?_setChild] at hd
    split at hd
    · cases hd
      have hc := h.child_getD k
      generalize (t.child? k).getD (leaf fresh) = c at hc ⊢
      cases hterm : c.terminal with
      | false => simpa [hterm] using ih c hterm hc
      | true =>
        -- only the tag of a terminal changes
        refine plain_of_children (fun hf => ?_) fun i e he => ?_
        · simp [hterm] at hf
        · have he' : c.child? i = some e := by simpa [hterm, child?] using he
          exact fun p s hs => hc (i :: p) s (by simpa [subtree?, he'] using hs)
    · exact fun p s hs => h (j :: p) s (by simpa [subtree?, hd] using hs)

theorem open_insert {mark : σ → σ} {l : List κ} (ht : t.terminal = false) (h : Open p t)
    (hl : l <+: p → l = p) : Open p (insert mark fresh l t) := by
  intro q hq hne he
  rcases (ends_insert mark fresh l t q ht).mp he with ⟨he, -⟩ | ⟨rfl, -⟩
  · exact h q hq hne he
  · exact hne (hl hq)

theorem Open.child_getD {k : κ} (h : Open (k :: p) t) (s : σ) :
    Open p ((t.child? k).getD (leaf s)) := by
  intro q hq hne he
  refine h (k :: q) (cons_prefix_cons.mpr ⟨rfl, hq⟩) (fun e => hne (cons.inj e).2) ?_
  exact (ends_cons_getD k q t s).mpr he

/-- **One insertion**, seen from a path that nothing above it covers before or after. -/
theorem tagAt?_insert (mark : σ → σ) (fresh : σ) (l p : List κ) (t : PathTrie κ σ)
    (ht : t.terminal = false) (hplain : Plain fresh t) (hopen : Open p t) (hl : l <+: p → l = p) :
    tagAt? p (insert mark fresh l t) = credit fresh p (tagAt? p t) (l, mark) := by
  induction l generalizing p t with
  | nil =>
    obtain rfl := hl nil_prefix
    simp [insert, credit, ht, tag, ← hplain [] t rfl ht]
  | cons k ks ih =>
    cases p with
    | nil => simp [insert, credit, ht]
    | cons j js =>
      by_cases hkj : k = j
      · subst hkj
        have hchild := hopen.child_getD fresh
        have hl' : ks <+: js → ks = js := fun h =>
          (cons.inj (hl (cons_prefix_cons.mpr ⟨rfl, h⟩))).2
        have hc := hplain.child_getD k
        rw [insert, tagAt?_cons, child?_setChild, if_pos rfl, tagAt?_cons_getD k js t fresh]
        generalize (t.child? k).getD (leaf fresh) = c at hchild hc ⊢
        cases hterm : c.terminal with
        | false =>
          have hstep := ih js c hterm hc hchild hl'
          simpa [credit, cons_prefix_cons, hterm] using hstep
        | true =>
          -- a terminal on the way is the path itself, as nothing above it is one
          obtain rfl : js = [] := by
            by_contra hne
            exact hchild [] nil_prefix (Ne.symm hne) ((ends_nil c).mpr hterm)
          cases c
          simp_all [credit, mapTag, tag]
      · have hpre : ¬ (j :: js) <+: (k :: ks) := fun h =>
          hkj (cons_prefix_cons.mp h).1.symm
        rw [insert, tagAt?_cons, child?_setChild, if_neg hkj, ← tagAt?_cons]
        simp [credit, hpre]

/-- **A run of insertions**: at a path with no proper prefix among the inserted ones,
the tag is that of the marks at and beneath it, in their order, from the first insertion
of the path itself. -/
theorem tagAt?_insertMarked (fresh : σ) (p : List κ) (ls : List (List κ × (σ → σ)))
    (t : PathTrie κ σ) (ht : t.terminal = false) (hplain : Plain fresh t) (hopen : Open p t)
    (hls : ∀ l ∈ ls, l.1 ≠ [] ∧ (l.1 <+: p → l.1 = p)) :
    tagAt? p (insertMarked fresh ls t) = ls.foldl (credit fresh p) (tagAt? p t) ∧
        Open p (insertMarked fresh ls t) := by
  induction ls generalizing t with
  | nil => exact ⟨rfl, hopen⟩
  | cons l ls ih =>
    obtain ⟨hne, hl⟩ := hls l mem_cons_self
    have hroot : (insert l.2 fresh l.1 t).terminal = false := by
      rw [terminal_insert_of_ne_nil l.2 fresh hne, ht]
    obtain ⟨htag, hopen'⟩ := ih (insert l.2 fresh l.1 t) hroot
      (plain_insert l.2 fresh l.1 t ht hplain) (open_insert ht hopen hl)
      fun x hx => hls x (mem_cons_of_mem _ hx)
    rw [tagAt?_insert l.2 fresh l.1 p t ht hplain hopen hl] at htag
    exact ⟨htag, hopen'⟩

theorem plain_insertMarked (fresh : σ) (ls : List (List κ × (σ → σ))) :
    ∀ t : PathTrie κ σ, t.terminal = false → Plain fresh t → (∀ l ∈ ls, l.1 ≠ []) →
      Plain fresh (insertMarked fresh ls t) := by
  induction ls with
  | nil => exact fun t _ hplain _ => hplain
  | cons l ls ih =>
    intro t ht hplain hls
    refine ih _ ?_ (plain_insert l.2 fresh l.1 t ht hplain) fun x hx => hls x (mem_cons_of_mem _ hx)
    rw [terminal_insert_of_ne_nil l.2 fresh (hls l mem_cons_self), ht]

/-- Only inserted paths become terminals. -/
theorem mem_of_ends_insertMarked (fresh : σ) (ls : List (List κ × (σ → σ))) :
    ∀ t : PathTrie κ σ, t.terminal = false → (∀ l ∈ ls, l.1 ≠ []) →
      Ends p (insertMarked fresh ls t) → Ends p t ∨ ∃ l ∈ ls, l.1 = p := by
  induction ls with
  | nil => exact fun t _ _ h => .inl h
  | cons l ls ih =>
    intro t ht hls h
    have hroot : (insert l.2 fresh l.1 t).terminal = false := by
      rw [terminal_insert_of_ne_nil l.2 fresh (hls l mem_cons_self), ht]
    rcases ih _ hroot (fun x hx => hls x (mem_cons_of_mem _ hx)) h with h | ⟨x, hx, rfl⟩
    · rcases (ends_insert l.2 fresh l.1 t p ht).mp h with ⟨h, -⟩ | ⟨rfl, -⟩
      · exact .inl h
      · exact .inr ⟨l, mem_cons_self, rfl⟩
    · exact .inr ⟨x, mem_cons_of_mem _ hx, rfl⟩

end PathTrie
end Store
end TortaCore
