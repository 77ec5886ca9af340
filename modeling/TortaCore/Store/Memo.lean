import TortaCore.Store.Lru
import Mathlib.Data.List.Perm.Subperm

/-!
# Memo tables

A bounded table of answers in front of a function.  A question is looked up by a key that
may forget some of it, in the slot of the key's hash; an answer counts only under the stamp
it was given under.  The table forgets at will: slots are overwritten by other keys with
the same hash, and the least recently used go when there are too many.

A table answers as the function does exactly when each question agrees with the last one
of its key that was asked under the same stamp: that is enough for every hash and every
capacity, and needed for a table that has room for all.

## Main definitions

* `MemoTable`, `MemoTable.get`, `MemoTable.insert`, `MemoTable.ask`.
* `MemoTable.Backed`, `MemoTable.Complete`: every slot comes from the last question of its
  key; every last question has its slot.
-/

namespace TortaCore
namespace Store

open List

variable {κ ν Q : Type*}

/-- A remembered answer: its key, and the stamp it was given under. -/
structure Memo (κ ν : Type*) where
  key : κ
  stamp : ℕ
  val : ν

theorem Lru.mem_order_bump {α : Type*} {k : ℕ} {d : Lru ℕ α} {r : ℕ × α} :
    r ∈ (d.bump k).order ↔ r ∈ d.order := by
  cases hget : d.get? k with
  | none => rw [Lru.bump, hget]
  | some v =>
    have hmem := Lru.get?_eq_some_iff.mp hget
    rw [Lru.order_bump hmem, mem_append, mem_singleton]
    constructor
    · rintro (hr | rfl)
      · exact mem_of_mem_filter hr
      · exact hmem
    · intro hr
      by_cases hk : r.1 = k
      · have hval := Lru.get?_eq_some_iff.mpr (show (k, r.2) ∈ d.order from hk ▸ hr)
        rw [hget] at hval
        cases hval
        exact .inr (Prod.ext hk rfl)
      · exact .inl (mem_filter.mpr ⟨hr, by simpa using hk⟩)

/-- A table of at most `cap` memos, each in the slot of its key's hash. -/
structure MemoTable (κ ν : Type*) (hash : κ → ℕ) where
  slots : Lru ℕ (Memo κ ν)
  cap : ℕ
  home : ∀ r ∈ slots.order, r.1 = hash r.2.key

namespace MemoTable

variable {hash : κ → ℕ}

/-- An empty table with room for one memo at least. -/
def new (hash : κ → ℕ) (cap : ℕ) : MemoTable κ ν hash :=
  ⟨Lru.empty, max cap 1, fun _ hr => nomatch hr⟩

/-- Write a memo, and drop the least recently used ones beyond the capacity. -/
def insert (t : MemoTable κ ν hash) (k : κ) (v : ν) (stamp : ℕ) : MemoTable κ ν hash where
  slots := (t.slots.put (hash k) ⟨k, stamp, v⟩).evictTo (fun _ => true) t.cap
  cap := t.cap
  home := fun r hr => by
    obtain rfl | hold := Lru.mem_order_put_evictTo hr
    · rfl
    · exact t.home r hold.1

/-- Forget the memo in the slot of a key. -/
def drop (t : MemoTable κ ν hash) (k : κ) : MemoTable κ ν hash where
  slots := t.slots.remove (hash k)
  cap := t.cap
  home := fun r hr => by
    rw [Lru.order_remove] at hr
    exact t.home r (List.mem_of_mem_filter hr)

/-- Make the memo in the slot of a key the most recently used. -/
def touch (t : MemoTable κ ν hash) (k : κ) : MemoTable κ ν hash where
  slots := t.slots.bump (hash k)
  cap := t.cap
  home := fun r hr => t.home r (Lru.mem_order_bump.mp hr)

/-- Forget everything. -/
def clear (t : MemoTable κ ν hash) : MemoTable κ ν hash :=
  { t with slots := t.slots.clear, home := fun _ hr => nomatch hr }

theorem eq_of_mem {t : MemoTable κ ν hash} {h : ℕ} {m m' : Memo κ ν}
    (hm : (h, m) ∈ t.slots.order) (hm' : (h, m') ∈ t.slots.order) : m = m' := by
  have hget := Lru.get?_eq_some_iff.mpr hm
  rw [Lru.get?_eq_some_iff.mpr hm'] at hget
  exact (Option.some.inj hget).symm

theorem mem_order_insert {t : MemoTable κ ν hash} {k : κ} {v : ν} {stamp : ℕ}
    {r : ℕ × Memo κ ν} (hr : r ∈ (t.insert k v stamp).slots.order) :
    r = (hash k, ⟨k, stamp, v⟩) ∨ r ∈ t.slots.order ∧ r.1 ≠ hash k :=
  Lru.mem_order_put_evictTo hr

/-- With room for one more, nothing but the old memo of the slot goes. -/
theorem order_insert_of_lt {t : MemoTable κ ν hash} (hroom : t.slots.order.length < t.cap)
    (k : κ) (v : ν) (stamp : ℕ) :
    (t.insert k v stamp).slots.order =
      (t.slots.order.filter fun r => r.1 ≠ hash k) ++ [(hash k, ⟨k, stamp, v⟩)] := by
  have hlen : ((t.slots.put (hash k) ⟨k, stamp, v⟩).order).length ≤ t.cap := by
    have hfilter := length_filter_le (fun r : ℕ × Memo κ ν => decide (r.1 ≠ hash k)) t.slots.order
    rw [Lru.order_put, length_append, length_singleton]
    omega
  rw [insert, Lru.order_evictTo, Nat.sub_eq_zero_of_le hlen]
  exact Lru.order_put _ _ _

/-! ### Questions -/

variable [DecidableEq κ]

/-- The answer under this stamp.  A memo of another key stays; one of another stamp goes. -/
def get (t : MemoTable κ ν hash) (k : κ) (stamp : ℕ) : Option ν × MemoTable κ ν hash :=
  match t.slots.get? (hash k) with
  | none => (none, t)
  | some m =>
    if m.key ≠ k then (none, t)
    else if m.stamp ≠ stamp then (none, t.drop k)
    else (some m.val, t.touch k)

/-- Look the question up; on a miss answer by the function and remember it. -/
def ask (f : Q → ν) (view : Q → κ) (t : MemoTable κ ν hash) (q : Q) (stamp : ℕ) :
    ν × MemoTable κ ν hash :=
  match t.get (view q) stamp with
  | (some v, t) => (v, t)
  | (none, t) => (f q, t.insert (view q) (f q) stamp)

/-- The questions one after the other, and their answers. -/
def askAll (f : Q → ν) (view : Q → κ) (t : MemoTable κ ν hash) :
    List (Q × ℕ) → List ν × MemoTable κ ν hash
  | [] => ([], t)
  | (q, stamp) :: rest =>
    let (v, t) := t.ask f view q stamp
    let (vs, t) := t.askAll f view rest
    (v :: vs, t)

/-- Everything a question can do to a table: the memo of its key and stamp answers it, or
the function does and the slot gets the new memo. -/
theorem ask_cases (f : Q → ν) (view : Q → κ) (t : MemoTable κ ν hash) (q : Q) (stamp : ℕ) :
    (∃ v, (hash (view q), (⟨view q, stamp, v⟩ : Memo κ ν)) ∈ t.slots.order ∧
      (t.ask f view q stamp).1 = v ∧ (t.ask f view q stamp).2.cap = t.cap ∧
      ∀ r, r ∈ (t.ask f view q stamp).2.slots.order ↔ r ∈ t.slots.order) ∨
    ((∀ v, (hash (view q), (⟨view q, stamp, v⟩ : Memo κ ν)) ∉ t.slots.order) ∧
      (t.ask f view q stamp).1 = f q ∧
      ∃ t' : MemoTable κ ν hash, t'.cap = t.cap ∧
        (t.ask f view q stamp).2 = t'.insert (view q) (f q) stamp ∧
        t'.slots.order.Sublist t.slots.order ∧
        ∀ r ∈ t.slots.order, r.1 ≠ hash (view q) → r ∈ t'.slots.order) := by
  cases hget : t.slots.get? (hash (view q)) with
  | none =>
    have hask : t.ask f view q stamp = (f q, t.insert (view q) (f q) stamp) := by
      simp only [ask, get, hget]
    rw [hask]
    refine .inr ⟨fun v hv => ?_, rfl, t, rfl, rfl, .refl _, fun r hr _ => hr⟩
    rw [Lru.get?_eq_some_iff.mpr hv] at hget
    cases hget
  | some m =>
    have hmem := Lru.get?_eq_some_iff.mp hget
    by_cases hkey : m.key = view q
    · by_cases hstamp : m.stamp = stamp
      · -- a hit
        obtain ⟨key, stamp', val⟩ := m
        obtain rfl : key = view q := hkey
        obtain rfl : stamp' = stamp := hstamp
        refine .inl ⟨val, hmem, ?_⟩
        simp only [ask, get, hget, ne_eq, not_true_eq_false, if_false, true_and]
        exact ⟨rfl, fun r => Lru.mem_order_bump⟩
      · -- a memo of another stamp is dropped
        have hask : t.ask f view q stamp =
            (f q, (t.drop (view q)).insert (view q) (f q) stamp) := by
          simp [ask, get, hget, hkey, hstamp]
        have hdrop : (t.drop (view q)).slots.order =
            t.slots.order.filter fun r => r.1 ≠ hash (view q) := Lru.order_remove _ _
        rw [hask]
        refine .inr ⟨fun v hv => ?_, rfl, t.drop (view q), rfl, rfl, ?_, fun r hr hne => ?_⟩
        · rw [eq_of_mem hmem hv] at hstamp
          exact hstamp rfl
        · rw [hdrop]
          exact filter_sublist
        · rw [hdrop]
          exact mem_filter.mpr ⟨hr, by simpa using hne⟩
    · -- a memo of another key with the same hash stays until it is overwritten
      have hask : t.ask f view q stamp = (f q, t.insert (view q) (f q) stamp) := by
        simp [ask, get, hget, hkey]
      rw [hask]
      refine .inr ⟨fun v hv => ?_, rfl, t, rfl, rfl, .refl _, fun r hr _ => hr⟩
      rw [eq_of_mem hmem hv] at hkey
      exact hkey rfl

end MemoTable

/-! ### The last question of a key -/

variable [DecidableEq κ]

/-- The last question of a key; the log has the latest question first. -/
def lastAsked (view : Q → κ) (k : κ) (log : List (Q × ℕ)) : Option (Q × ℕ) :=
  log.find? fun a => view a.1 = k

theorem lastAsked_cons_self (view : Q → κ) (q : Q) (stamp : ℕ) (log : List (Q × ℕ)) :
    lastAsked view (view q) ((q, stamp) :: log) = some (q, stamp) := by
  simp [lastAsked]

theorem lastAsked_cons_of_ne {view : Q → κ} {k : κ} {q : Q} (h : view q ≠ k) (stamp : ℕ)
    (log : List (Q × ℕ)) :
    lastAsked view k ((q, stamp) :: log) = lastAsked view k log := by
  simp [lastAsked, h]

theorem lastAsked_eq_some {view : Q → κ} {k : κ} {log : List (Q × ℕ)} {a : Q × ℕ}
    (h : lastAsked view k log = some a) : a ∈ log ∧ view a.1 = k :=
  ⟨mem_of_find?_eq_some h, by simpa using find?_some h⟩

/-- A question agrees with the last one of its key under the same stamp. -/
def AgreesWith (f : Q → ν) (view : Q → κ) (log : List (Q × ℕ)) (q : Q) (stamp : ℕ) : Prop :=
  ∀ q', lastAsked view (view q) log = some (q', stamp) → f q' = f q

/-- Each question of a list agrees, after the ones before it. -/
def Agrees (f : Q → ν) (view : Q → κ) (log : List (Q × ℕ)) : List (Q × ℕ) → Prop
  | [] => True
  | (q, stamp) :: rest => AgreesWith f view log q stamp ∧ Agrees f view ((q, stamp) :: log) rest

namespace MemoTable

variable {hash : κ → ℕ} {f : Q → ν} {view : Q → κ} {t : MemoTable κ ν hash}
  {log : List (Q × ℕ)} {q : Q} {stamp : ℕ}

/-- Every memo is the answer to the last question of its key. -/
def Backed (f : Q → ν) (view : Q → κ) (t : MemoTable κ ν hash) (log : List (Q × ℕ)) : Prop :=
  ∀ r ∈ t.slots.order, ∃ q, lastAsked view r.2.key log = some (q, r.2.stamp) ∧ r.2.val = f q

theorem backed_of_order_nil (h : t.slots.order = []) : Backed f view t log := by
  intro r hr
  rw [h] at hr
  cases hr

/-- Only the answers of the function to the questions in the log matter. -/
theorem Backed.congr {f' : Q → ν} (h : Backed f view t log) (hf : ∀ a ∈ log, f' a.1 = f a.1) :
    Backed f' view t log := by
  intro r hr
  obtain ⟨q, hlast, hval⟩ := h r hr
  exact ⟨q, hlast, hval.trans (hf _ (lastAsked_eq_some hlast).1).symm⟩

/-- **A question that agrees is answered by the function**, and the table stays backed. -/
theorem Backed.ask (h : Backed f view t log) (hagree : AgreesWith f view log q stamp) :
    (t.ask f view q stamp).1 = f q ∧
      Backed f view (t.ask f view q stamp).2 ((q, stamp) :: log) := by
  obtain ⟨v, hmem, hans, -, horder⟩ | ⟨-, hans, t', -, hask, hsub, -⟩ := t.ask_cases f view q stamp
  · obtain ⟨q', hlast, hval⟩ := h _ hmem
    have hv : v = f q := hval.trans (hagree q' hlast)
    refine ⟨hans.trans hv, fun r hr => ?_⟩
    rw [horder] at hr
    by_cases hkey : view q = r.2.key
    · have hrow : r.2 = ⟨view q, stamp, v⟩ := by
        have hhome := t.home r hr
        rw [← hkey] at hhome
        exact eq_of_mem (show (hash (view q), r.2) ∈ t.slots.order from hhome ▸ hr) hmem
      rw [hrow]
      exact ⟨q, lastAsked_cons_self view q stamp log, hv⟩
    · obtain ⟨q'', hlast', hval'⟩ := h r hr
      exact ⟨q'', by rw [lastAsked_cons_of_ne hkey, hlast'], hval'⟩
  · refine ⟨hans, fun r hr => ?_⟩
    rw [hask] at hr
    obtain rfl | ⟨hold, hne⟩ := mem_order_insert hr
    · exact ⟨q, lastAsked_cons_self view q stamp log, rfl⟩
    have hr' := hsub.subset hold
    have hkey : view q ≠ r.2.key := by
      intro hkey
      rw [t.home r hr', hkey] at hne
      exact hne rfl
    obtain ⟨q'', hlast', hval'⟩ := h r hr'
    exact ⟨q'', by rw [lastAsked_cons_of_ne hkey, hlast'], hval'⟩

/-! ### A table with room for all -/

/-- Every last question has its memo, and there are no more memos than questions. -/
structure Complete (f : Q → ν) (view : Q → κ) (t : MemoTable κ ν hash) (log : List (Q × ℕ)) :
    Prop where
  mem : ∀ k q stamp, lastAsked view k log = some (q, stamp) →
    (hash k, (⟨k, stamp, f q⟩ : Memo κ ν)) ∈ t.slots.order
  length_le : t.slots.order.length ≤ log.length

/-- A question that agrees keeps a table complete that has room, when no other key of the log
has its hash. -/
theorem Complete.ask (h : Complete f view t log) (hb : Backed f view t log)
    (hagree : AgreesWith f view log q stamp) (hroom : log.length < t.cap)
    (hinj : ∀ a ∈ log, hash (view a.1) = hash (view q) → view a.1 = view q) :
    Complete f view (t.ask f view q stamp).2 ((q, stamp) :: log) := by
  have hnext := (hb.ask hagree).1
  obtain ⟨v, hmem, hans, -, horder⟩ | ⟨-, hans, t', hcap, hask, hsub, hkeep⟩ :=
    t.ask_cases f view q stamp
  · obtain rfl : v = f q := hans.symm.trans hnext
    refine ⟨fun k q' stamp' hlast => ?_, ?_⟩
    · rw [horder]
      by_cases hk : view q = k
      · subst hk
        rw [lastAsked_cons_self] at hlast
        cases hlast
        exact hmem
      · rw [lastAsked_cons_of_ne hk] at hlast
        exact h.mem k q' stamp' hlast
    · have hnodup : (t.ask f view q stamp).2.slots.order.Nodup := (Lru.nodup_order _).of_map _
      have hle := (hnodup.subperm fun r hr => (horder r).mp hr).length_le
      exact Nat.le_succ_of_le (Nat.le_trans hle h.length_le)
  · have hlen := hsub.length_le
    have hroom' : t'.slots.order.length < t'.cap := by
      have hle := h.length_le
      omega
    have hinsert := order_insert_of_lt hroom' (view q) (f q) stamp
    rw [hask]
    refine ⟨fun k q' stamp' hlast => ?_, ?_⟩
    · rw [hinsert, mem_append, mem_singleton]
      by_cases hk : view q = k
      · subst hk
        rw [lastAsked_cons_self] at hlast
        cases hlast
        exact .inr rfl
      · rw [lastAsked_cons_of_ne hk] at hlast
        obtain ⟨hq', hview⟩ := lastAsked_eq_some hlast
        -- another key, so another slot
        have hslot : hash k ≠ hash (view q) := by
          intro hhash
          rw [← hview] at hhash hk
          exact hk (hinj _ hq' hhash).symm
        refine .inl (mem_filter.mpr ⟨hkeep _ (h.mem k q' stamp' hlast) hslot, ?_⟩)
        simpa using hslot
    · have hfilter := length_filter_le
        (fun r : ℕ × Memo κ ν => decide (r.1 ≠ hash (view q))) t'.slots.order
      have hle := h.length_le
      rw [hinsert, length_append, length_singleton, length_cons]
      omega

/-- In a complete table the last question of the key and stamp gives the answer. -/
theorem Complete.ask_eq (h : Complete f view t log) {q' : Q}
    (hlast : lastAsked view (view q) log = some (q', stamp)) :
    (t.ask f view q stamp).1 = f q' := by
  have hmem := h.mem _ _ _ hlast
  obtain ⟨v, hmem', hans, -, -⟩ | ⟨hmiss, -⟩ := t.ask_cases f view q stamp
  · have heq := eq_of_mem hmem' hmem
    cases heq
    exact hans
  · exact absurd hmem (hmiss _)

/-! ### Transparency -/

/-- Questions that agree are answered by the function, one after the other. -/
theorem Backed.askAll (asks : List (Q × ℕ)) {t : MemoTable κ ν hash} {log : List (Q × ℕ)}
    (hb : Backed f view t log) (hagrees : Agrees f view log asks) :
    (t.askAll f view asks).1 = asks.map fun a => f a.1 := by
  induction asks generalizing t log with
  | nil => rfl
  | cons a asks ih =>
    obtain ⟨q, stamp⟩ := a
    obtain ⟨hans, hb'⟩ := hb.ask hagrees.1
    show (t.ask f view q stamp).1 :: ((t.ask f view q stamp).2.askAll f view asks).1 = _
    rw [hans, ih hb' hagrees.2, map_cons]

theorem Complete.agrees (asks : List (Q × ℕ)) {t : MemoTable κ ν hash} {log : List (Q × ℕ)}
    (hc : Complete f view t log) (hb : Backed f view t log)
    (hroom : log.length + asks.length ≤ t.cap)
    (hinj : ∀ a ∈ log ++ asks, ∀ b ∈ log ++ asks, hash (view a.1) = hash (view b.1) → view a.1 =
      view b.1) (hans : (t.askAll f view asks).1 = asks.map (fun a => f a.1)) :
    Agrees f view log asks := by
  induction asks generalizing t log with
  | nil => trivial
  | cons a asks ih =>
    obtain ⟨q, stamp⟩ := a
    have hcons : (t.ask f view q stamp).1 :: ((t.ask f view q stamp).2.askAll f view asks).1 =
        f q :: asks.map fun a => f a.1 := hans
    obtain ⟨hhead, htail⟩ := cons.inj hcons
    have hagree : AgreesWith f view log q stamp := fun q' hlast =>
      (hc.ask_eq hlast).symm.trans hhead
    rw [length_cons] at hroom
    have hc' := hc.ask hb hagree (by omega) fun a ha =>
      hinj a (mem_append_left _ ha) (q, stamp)
        (mem_append_right _ (mem_cons_self ..))
    refine ⟨hagree, ih hc' (hb.ask hagree).2 ?_ (fun a ha b hb => hinj a ?_ b ?_) htail⟩
    · have hcap : (t.ask f view q stamp).2.cap = t.cap := by
        obtain ⟨v, -, -, hcap, -⟩ | ⟨-, -, t', hcap, hask, -⟩ := t.ask_cases f view q stamp
        · exact hcap
        · rw [hask]
          exact hcap
      rw [hcap, length_cons]
      omega
    · exact (perm_middle.symm.mem_iff).mp ha
    · exact (perm_middle.symm.mem_iff).mp hb

/-- **When a memo table is transparent**: from empty, for every hash and capacity, it answers
as the function does exactly when each question agrees with the last one of its key under the
same stamp. -/
theorem transparent_iff (f : Q → ν) (view : Q → κ) (asks : List (Q × ℕ)) :
    (∀ (hash : κ → ℕ) (cap : ℕ),
      ((new hash cap).askAll f view asks).1 = asks.map fun a => f a.1) ↔
    Agrees f view [] asks := by
  constructor
  · intro h
    -- the place of a key in the list of questions is a hash that keeps them apart
    let hash : κ → ℕ := fun k => (asks.map fun a => view a.1).idxOf k
    refine Complete.agrees asks (t := new hash asks.length) ⟨nofun, Nat.le_refl _⟩
      (backed_of_order_nil rfl) ?_ ?_ (h hash asks.length)
    · show 0 + asks.length ≤ max asks.length 1
      omega
    · intro a ha b hb hhash
      exact (idxOf_inj (mem_map_of_mem (f := fun a => view a.1) ha)).mp hhash
  · intro h hash cap
    exact Backed.askAll asks (backed_of_order_nil rfl) h

end MemoTable

end Store
end TortaCore
