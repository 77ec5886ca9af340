import Mathlib.Data.Finset.Card
import Mathlib.Data.List.MinMax
import TortaCore.Blocklist.Name
import TortaCore.Net.IpAddr
import TortaCore.Store.ValueTrie

/-!
# Conditional routing

The router of `resolver/routing.rs`: a trie of suffixes, walked from the top-level label down, whose
terminals name an upstream or carry a literal address.  A deeper terminal overrides a shallower one,
and a second terminal at one suffix overwrites the first.

## Main definitions

* `Router.insert`, `Router.insertAddress`, `Router.lookup`, `Router.len`.
* `Call`, `run`: a sequence of insertions.
-/

namespace TortaCore
namespace Resolver
namespace Routing

open Text Net Store Blocklist List Option

def maxLabels : ℕ := 127

structure RouteTarget where
  upstream : Str
  /-- The literal answer, for an `address=` route. -/
  ip : Option IpAddr
  deriving DecidableEq

def literalUpstream : Str := "\x00literal".toList

structure Router where
  root : ValueTrie Str RouteTarget
  count : ℕ

def normalizeSuffix (domain : Str) : Str := normalize domain

namespace Router

def new : Router := ⟨.empty, 0⟩

def len (r : Router) : ℕ := r.count

/-- Walk to the node of a path, count it when it is not yet a terminal, and set its target. -/
def install (r : Router) (path : List Str) (target : RouteTarget) : Router where
  root := r.root.insert target path
  count := if (r.root.get? path).isNone then r.count + 1 else r.count

def insert (r : Router) (suffix upstream : Str) : Router :=
  let suffix := normalizeSuffix suffix
  if suffix.isEmpty || upstream.isEmpty then r
  else if maxLabels < (suffix.splitOn '.').length then r
  else r.install (rsplitDots suffix) ⟨upstream, none⟩

def insertAddress (r : Router) (suffix : Str) (ip : IpAddr) : Router :=
  let suffix := normalizeSuffix suffix
  if suffix.isEmpty then r
  else if maxLabels < (suffix.splitOn '.').length then r
  else r.install (rsplitDots suffix) ⟨literalUpstream, some ip⟩

/-- The loop of `lookup`, with the best target so far and the depth. -/
def walk (best : Option RouteTarget) (depth : ℕ) :
    List Str → ValueTrie Str RouteTarget → Option RouteTarget
  | [], _ => best
  | label :: rest, node =>
    if maxLabels < depth + 1 then best
    else
      match node.child? label with
      | some child => walk (child.value <|> best) (depth + 1) rest child
      | none => best

def lookup (r : Router) (qname : Str) : Option RouteTarget :=
  if r.count = 0 then none
  else
    let qname := normalizeSuffix qname
    if qname.isEmpty then none else walk none 0 (rsplitDots qname) r.root

end Router

/-! ### Sequences of insertions -/

inductive Call where
  | insert (suffix upstream : Str)
  | insertAddress (suffix : Str) (ip : IpAddr)

def Call.apply (r : Router) : Call → Router
  | .insert suffix upstream => r.insert suffix upstream
  | .insertAddress suffix ip => r.insertAddress suffix ip

def run (calls : List Call) : Router := calls.foldl Call.apply Router.new

def Call.suffix : Call → Str
  | .insert suffix _ => suffix
  | .insertAddress suffix _ => suffix

def Call.target : Call → RouteTarget
  | .insert _ upstream => ⟨upstream, none⟩
  | .insertAddress _ ip => ⟨literalUpstream, some ip⟩

/-- The call installs a route: its suffix is not empty nor too deep, and it names a target. -/
def Call.Accepted (c : Call) : Prop :=
  canonicalLabels c.suffix ≠ [] ∧ c.target.upstream ≠ [] ∧
    (canonicalLabels c.suffix).length ≤ maxLabels

instance (c : Call) : Decidable c.Accepted := inferInstanceAs (Decidable (_ ∧ _ ∧ _))

/-- The canonical suffixes and the targets of the accepted calls, in order. -/
def accepted (calls : List Call) : List (List Str × RouteTarget) :=
  (calls.filter (·.Accepted)).map fun c => (canonicalLabels c.suffix, c.target)

/-- The target of the last accepted call with a suffix. -/
def lastTarget (acc : List (List Str × RouteTarget)) (suffix : List Str) : Option RouteTarget :=
  ((acc.filter fun e => e.1 = suffix).getLast?).map Prod.snd

/-- The longest accepted suffix of a name. -/
def Longest (acc : List (List Str × RouteTarget)) (labels suffix : List Str) : Prop :=
  suffix ∈ acc.map Prod.fst ∧ suffix <:+ labels ∧
    ∀ s ∈ acc.map Prod.fst, s <:+ labels → s.length ≤ suffix.length

/-! ### The walk -/

theorem Router.walk_eq (labels : List Str) (node : ValueTrie Str RouteTarget)
    (best : Option RouteTarget) (depth : ℕ) :
    walk best depth labels node = node.deepest best (labels.take (maxLabels - depth)) := by
  induction labels generalizing node best depth with
  | nil => rw [take_nil]; rfl
  | cons label rest ih =>
    rw [walk]
    split
    next hdeep =>
      rw [show maxLabels - depth = 0 by omega]
      rfl
    next hdepth =>
      rw [show maxLabels - depth = maxLabels - (depth + 1) + 1 by omega, take_succ_cons,
        ValueTrie.deepest]
      cases node.child? label with
      | none => rfl
      | some child => exact ih child _ _

/-- The walk over the labels of a name. -/
theorem Router.lookup_eq (r : Router) (qname : Str) : r.lookup qname =
    if r.count = 0 then none
    else r.root.deepest none ((canonicalLabels qname).reverse.take maxLabels) := by
  rw [lookup]
  split
  · rfl
  by_cases hname : normalizeSuffix qname = []
  · rw [if_pos (by simp [hname]), canonicalLabels_eq_nil.mpr hname]
    rfl
  · rw [if_neg (by simpa using hname), walk_eq, rsplitDots, Nat.sub_zero,
      normalizeSuffix, splitOn_normalize hname]

/-! ### One call, and a run -/

theorem literalUpstream_ne_nil : literalUpstream ≠ [] := by decide

theorem Call.apply_eq (r : Router) (c : Call) : c.apply r =
    if c.Accepted then r.install (canonicalLabels c.suffix).reverse c.target else r := by
  have hpath : ∀ suffix, canonicalLabels suffix ≠ [] →
      (normalizeSuffix suffix).splitOn '.' = canonicalLabels suffix := fun suffix h =>
    splitOn_normalize fun hnil => h (canonicalLabels_eq_nil.mpr hnil)
  cases c with
  | insert suffix upstream =>
    rw [apply, Router.insert]
    by_cases hname : canonicalLabels suffix = []
    · rw [if_pos (by simp [normalizeSuffix, canonicalLabels_eq_nil.mp hname]),
        if_neg fun h => h.1 hname]
    by_cases hup : upstream = []
    · rw [if_pos (by simp [hup]), if_neg fun h => h.2.1 hup]
    have hname' : normalizeSuffix suffix ≠ [] := fun h => hname (canonicalLabels_eq_nil.mpr h)
    rw [if_neg (by simp [hname', hup]), rsplitDots, hpath suffix hname]
    by_cases hdeep : maxLabels < (canonicalLabels suffix).length
    · rw [if_pos hdeep, if_neg fun h => Nat.not_le.mpr hdeep h.2.2]
    · rw [if_neg hdeep, if_pos ⟨hname, hup, Nat.not_lt.mp hdeep⟩]
      rfl
  | insertAddress suffix ip =>
    rw [apply, Router.insertAddress]
    by_cases hname : canonicalLabels suffix = []
    · rw [if_pos (by simp [normalizeSuffix, canonicalLabels_eq_nil.mp hname]),
        if_neg fun h => h.1 hname]
    have hname' : normalizeSuffix suffix ≠ [] := fun h => hname (canonicalLabels_eq_nil.mpr h)
    rw [if_neg (by simpa using hname'), rsplitDots, hpath suffix hname]
    by_cases hdeep : maxLabels < (canonicalLabels suffix).length
    · rw [if_pos hdeep, if_neg fun h => Nat.not_le.mpr hdeep h.2.2]
    · rw [if_neg hdeep, if_pos ⟨hname, literalUpstream_ne_nil, Nat.not_lt.mp hdeep⟩]
      rfl

theorem lastTarget_concat (acc : List (List Str × RouteTarget)) (e : List Str × RouteTarget)
    (suffix : List Str) : lastTarget (acc ++ [e]) suffix =
      if e.1 = suffix then some e.2 else lastTarget acc suffix := by
  rw [lastTarget, filter_append]
  by_cases h : e.1 = suffix
  · simp [h]
  · simp [h, lastTarget]

variable {acc : List (List Str × RouteTarget)} {suffix : List Str} {calls : List Call}

theorem isSome_lastTarget :
    (lastTarget acc suffix).isSome ↔ suffix ∈ acc.map Prod.fst := by
  rw [lastTarget, isSome_map, getLast?_isSome, Ne, filter_eq_nil_iff]
  simp

/-- What a run of insertions has built: the last target at each accepted suffix, and their
number. -/
structure Built (acc : List (List Str × RouteTarget)) (r : Router) : Prop where
  get? : ∀ suffix, r.root.get? suffix.reverse = lastTarget acc suffix
  count : r.count = (acc.map Prod.fst).toFinset.card

theorem built_new : Built [] Router.new where
  get? _ := ValueTrie.get?_empty _
  count := rfl

theorem Built.install {r : Router} (h : Built acc r) (suffix : List Str) (target : RouteTarget) :
    Built (acc ++ [(suffix, target)]) (r.install suffix.reverse target) where
  get? s := by
    rw [Router.install, ValueTrie.get?_insert, lastTarget_concat, h.get? s]
    simp only [reverse_inj]
  count := by
    have hnew : (r.root.get? suffix.reverse).isNone ↔ suffix ∉ (acc.map Prod.fst).toFinset := by
      rw [h.get? suffix, List.mem_toFinset, ← isSome_lastTarget]
      simp
    have hsets : ((acc ++ [(suffix, target)]).map Prod.fst).toFinset =
        Insert.insert suffix (acc.map Prod.fst).toFinset := by
      rw [map_append, toFinset_append, Finset.union_comm]
      rfl
    rw [Router.install, hsets]
    by_cases hmem : suffix ∈ (acc.map Prod.fst).toFinset
    · rw [if_neg fun hn => hnew.mp hn hmem, h.count, Finset.insert_eq_of_mem hmem]
    · rw [if_pos (hnew.mpr hmem), h.count, Finset.card_insert_of_notMem hmem]

theorem built_run (calls : List Call) : Built (accepted calls) (run calls) := by
  induction calls using reverseRecOn with
  | nil => exact built_new
  | append_singleton calls c ih =>
    rw [run, foldl_append, accepted, filter_append, map_append, foldl_cons,
      foldl_nil, Call.apply_eq]
    by_cases hc : c.Accepted
    · rw [if_pos hc, filter_cons_of_pos (by simpa using hc)]
      exact ih.install _ _
    · rw [if_neg hc, filter_cons_of_neg (by simpa using hc), filter_nil, map_nil, append_nil]
      exact ih

/-! ### Lookup -/

theorem mem_accepted
    (h : suffix ∈ (accepted calls).map Prod.fst) : suffix ≠ [] ∧ suffix.length ≤ maxLabels := by
  obtain ⟨e, he, rfl⟩ := mem_map.mp h
  obtain ⟨c, hc, rfl⟩ := mem_map.mp he
  have hacc : c.Accepted := by simpa using (mem_filter.mp hc).2
  exact ⟨hacc.1, hacc.2.2⟩

theorem exists_longest {labels s : List Str} (hs : s ∈ acc.map Prod.fst) (hsuffix : s <:+ labels) :
    ∃ suffix, Longest acc labels suffix := by
  have hmem : s ∈ (acc.map Prod.fst).filter (· <:+ labels) :=
    mem_filter.mpr ⟨hs, by simpa using hsuffix⟩
  cases hmax : ((acc.map Prod.fst).filter (· <:+ labels)).argmax length with
  | none =>
    rw [argmax_eq_none.mp hmax] at hmem
    cases hmem
  | some suffix =>
    obtain ⟨hin, hsuf⟩ := mem_filter.mp (argmax_mem hmax)
    refine ⟨suffix, hin, by simpa using hsuf, fun t ht htsuf => ?_⟩
    exact le_of_mem_argmax (mem_filter.mpr ⟨ht, by simpa using htsuf⟩) hmax

/-- The walk stops at a depth that no accepted suffix reaches. -/
theorem lookup_of_longest {qname : Str}
    (h : Longest (accepted calls) (canonicalLabels qname) suffix) :
    (run calls).lookup qname = lastTarget (accepted calls) suffix := by
  have hbuilt := built_run calls
  obtain ⟨hne, hlen⟩ := mem_accepted h.1
  have hcount : (run calls).count ≠ 0 := by
    rw [hbuilt.count, Finset.card_ne_zero]
    exact ⟨suffix, List.mem_toFinset.mpr h.1⟩
  obtain ⟨target, htarget⟩ := isSome_iff_exists.mp (isSome_lastTarget.mpr h.1)
  rw [Router.lookup_eq, if_neg hcount, htarget]
  refine ValueTrie.deepest_eq_of_longest (q := suffix.reverse) (by simpa using hne) ?_ ?_ ?_
  · rw [prefix_take_iff, reverse_prefix, length_reverse]
    exact ⟨h.2.1, hlen⟩
  · rw [hbuilt.get? suffix, htarget]
  · intro r hlong hr
    have hr' := (prefix_take_iff.mp hr).1
    have hget := hbuilt.get? r.reverse
    rw [reverse_reverse] at hget
    rw [hget]
    by_contra hsome
    have hmem := isSome_lastTarget.mp (isSome_iff_ne_none.mpr hsome)
    have hle := h.2.2 r.reverse hmem (by simpa using reverse_suffix.mpr hr')
    rw [length_reverse] at hle hlong
    omega

theorem lookup_of_none {qname : Str}
    (h : ∀ s ∈ (accepted calls).map Prod.fst, ¬ s <:+ canonicalLabels qname) :
    (run calls).lookup qname = none := by
  rw [Router.lookup_eq]
  split
  · rfl
  refine ValueTrie.deepest_eq_of_none fun q _ hq => ?_
  have hget := (built_run calls).get? q.reverse
  rw [reverse_reverse] at hget
  rw [hget]
  by_contra hsome
  refine h q.reverse (isSome_lastTarget.mp (isSome_iff_ne_none.mpr hsome)) ?_
  simpa using reverse_suffix.mpr (prefix_take_iff.mp hq).1

/-- **Longest suffix wins**: after any sequence of insertions a name gets the target of the last
accepted call with the longest accepted suffix of the name, and none if no accepted suffix is one of
the name; the size is the number of accepted suffixes. -/
theorem longest_suffix_wins (calls : List Call) (qname : Str) :
    (∀ target, (run calls).lookup qname = some target ↔
      ∃ suffix, Longest (accepted calls) (canonicalLabels qname) suffix ∧
        lastTarget (accepted calls) suffix = some target) ∧
    ((run calls).lookup qname = none ↔
      ∀ s ∈ (accepted calls).map Prod.fst, ¬ s <:+ canonicalLabels qname) ∧
    (run calls).len = ((accepted calls).map Prod.fst).toFinset.card := by
  refine ⟨fun target => ⟨fun hlookup => ?_, ?_⟩, ⟨fun hlookup s hs hsuffix => ?_, lookup_of_none⟩,
    (built_run calls).count⟩
  · by_contra hno
    have hnone : ∀ s ∈ (accepted calls).map Prod.fst, ¬ s <:+ canonicalLabels qname := by
      intro s hs hsuffix
      obtain ⟨suffix, hlong⟩ := exists_longest hs hsuffix
      exact hno ⟨suffix, hlong, (lookup_of_longest hlong).symm.trans hlookup⟩
    rw [lookup_of_none hnone] at hlookup
    cases hlookup
  · rintro ⟨suffix, hlong, hlast⟩
    exact (lookup_of_longest hlong).trans hlast
  · obtain ⟨suffix, hlong⟩ := exists_longest hs hsuffix
    have hsome := isSome_lastTarget.mpr hlong.1
    rw [← lookup_of_longest hlong, hlookup] at hsome
    cases hsome

end Routing
end Resolver
end TortaCore
