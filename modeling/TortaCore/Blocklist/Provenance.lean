import Mathlib.Data.List.Infix
import TortaCore.Blocklist.Matcher
import TortaCore.Store.PathTags

/-!
# Provenance of blocked domains

`insert_with_source` notes on the covering terminal which source armed a domain.  When
the domain is covered already its bits go to the covering zone; when it covers others
their nodes are dropped, and their bits with them.  The provenance of a name is thus the
same for every order of the inserts exactly when each source that armed a domain also
armed the shortest blocked zone above it.
-/

namespace TortaCore
namespace Blocklist

open Text Store List PathTrie

/-! ### Sets of bits -/

/-- Every bit of `a` is one of `b`. -/
def Within (a b : SourceMask) : Prop := b ||| a = b

instance (a b : SourceMask) : Decidable (Within a b) := inferInstanceAs (Decidable (_ = _))

theorem zero_within (a : SourceMask) : Within 0 a := UInt32.or_zero

theorem Within.trans {a b c : SourceMask} (h : Within a b) (h' : Within b c) : Within a c := by
  rw [Within, ← h', UInt32.or_assoc, h]

theorem Within.antisymm {a b : SourceMask} (h : Within a b) (h' : Within b a) : a = b := by
  rw [← h', UInt32.or_comm, h]

theorem within_or_left (a b : SourceMask) : Within a (a ||| b) := by
  rw [Within, UInt32.or_comm, ← UInt32.or_assoc, UInt32.or_self]

theorem within_or_right (a b : SourceMask) : Within b (a ||| b) := by
  rw [Within, UInt32.or_assoc, UInt32.or_self]

theorem or_within {a b c : SourceMask} (ha : Within a c) (hb : Within b c) :
    Within (a ||| b) c := by
  rw [Within, ← UInt32.or_assoc, ha, hb]

/-- The bits of all masks in a list of pairs. -/
def unionMask : List (Str × SourceMask) → SourceMask
  | [] => 0
  | x :: xs => x.2 ||| unionMask xs

variable {x : Str × SourceMask} {pairs xs : List (Str × SourceMask)} {walk zone : List Str}
  {d : Str}

theorem within_unionMask (h : x ∈ xs) : Within x.2 (unionMask xs) := by
  induction xs with
  | nil => simp at h
  | cons y ys ih =>
    rcases mem_cons.mp h with rfl | h
    · exact within_or_left _ _
    · exact (ih h).trans (within_or_right _ _)

theorem unionMask_within {c : SourceMask} (h : ∀ x ∈ xs, Within x.2 c) :
    Within (unionMask xs) c := by
  induction xs with
  | nil => exact zero_within c
  | cons y ys ih =>
    exact or_within (h y mem_cons_self) (ih fun x hx => h x (mem_cons_of_mem _ hx))

theorem unionMask_congr {ys : List (Str × SourceMask)} (h : ∀ x, x ∈ xs ↔ x ∈ ys) :
    unionMask xs = unionMask ys :=
  (unionMask_within fun _ hx => within_unionMask ((h _).mp hx)).antisymm
    (unionMask_within fun _ hx => within_unionMask ((h _).mpr hx))

/-! ### The zone that answers for a walk -/

/-- A matcher after a sequence of `insert_with_source` calls. -/
def Matcher.ofSources (pairs : List (Str × SourceMask)) : Matcher :=
  pairs.foldl (fun m x => m.insertWithSource x.1 x.2) {}

/-- Whether some pair arms exactly this zone. -/
def isZone (pairs : List (Str × SourceMask)) (zone : List Str) : Bool :=
  !zone.isEmpty && pairs.any fun x => zonePath x.1 = zone

/-- The shortest armed zone on a walk. -/
def shortestZone? (pairs : List (Str × SourceMask)) (walk : List Str) : Option (List Str) :=
  walk.inits.find? (isZone pairs)

/-- The pairs that arm a zone itself. -/
def armedAt (pairs : List (Str × SourceMask)) (zone : List Str) : List (Str × SourceMask) :=
  pairs.filter fun x => zonePath x.1 = zone

/-- The pairs that arm a zone or something beneath it. -/
def armedWithin (pairs : List (Str × SourceMask)) (zone : List Str) : List (Str × SourceMask) :=
  pairs.filter fun x => zone <+: zonePath x.1

/-- The bits of the sources that armed the shortest zone on a walk. -/
def zoneMask (pairs : List (Str × SourceMask)) (walk : List Str) : SourceMask :=
  ((shortestZone? pairs walk).map fun zone => unionMask (armedAt pairs zone)).getD 0

/-- Every source that armed a domain armed the shortest zone above the domain as well,
both on the path the domain is stored under and on the one it is looked up by. -/
def Corroborated (pairs : List (Str × SourceMask)) : Prop :=
  ∀ x ∈ pairs, zonePath x.1 ≠ [] →
    Within x.2 (zoneMask pairs (zonePath x.1)) ∧ Within x.2 (zoneMask pairs (walkLabels x.1))

instance (pairs : List (Str × SourceMask)) : Decidable (Corroborated pairs) :=
  inferInstanceAs (Decidable (∀ x ∈ pairs, _))

/-- The shortest zone on a walk, and nothing above it, is armed. -/
structure IsShortest (pairs : List (Str × SourceMask)) (walk zone : List Str) : Prop where
  ne_nil : zone ≠ []
  on_walk : zone <+: walk
  armed : ∃ x ∈ pairs, zonePath x.1 = zone
  shortest : ∀ x ∈ pairs, zonePath x.1 ≠ [] → zonePath x.1 <+: zone → zonePath x.1 = zone

theorem isZone_iff :
    isZone pairs zone = true ↔ zone ≠ [] ∧ ∃ x ∈ pairs, zonePath x.1 = zone := by
  simp [isZone]

theorem isShortest_of_eq_some (h : shortestZone? pairs walk = some zone) :
    IsShortest pairs walk zone := by
  obtain ⟨hzone, i, hi, rfl, hbefore⟩ := find?_eq_some_iff_getElem.mp h
  simp only [getElem_inits] at hzone hbefore ⊢
  obtain ⟨hne, harmed⟩ := isZone_iff.mp hzone
  refine ⟨hne, take_prefix _ _, harmed, fun x hx hxne hpre => ?_⟩
  -- a proper prefix would have been found first
  by_contra hdiff
  have hlen : (zonePath x.1).length < i := by
    have hle := hpre.length_le
    have hne' : (zonePath x.1).length ≠ (walk.take i).length := fun e =>
      hdiff (hpre.eq_of_length e)
    have htake := length_take_le i walk
    omega
  have htake : walk.take (zonePath x.1).length = zonePath x.1 :=
    (prefix_iff_eq_take.mp (hpre.trans (List.take_prefix _ _))).symm
  have hnot := hbefore _ hlen
  rw [htake, isZone_iff.mpr ⟨hxne, x, hx, rfl⟩] at hnot
  exact Bool.false_ne_true hnot

theorem not_on_walk_of_eq_none (h : shortestZone? pairs walk = none) (hx : x ∈ pairs)
    (hne : zonePath x.1 ≠ []) : ¬ zonePath x.1 <+: walk := fun hpre =>
  find?_eq_none.mp h (zonePath x.1) ((mem_inits _ _).mpr hpre)
    (isZone_iff.mpr ⟨hne, x, hx, rfl⟩)

/-- Two shortest zones on one walk are the same: one is a prefix of the other. -/
theorem IsShortest.unique {p q : List Str} (hp : IsShortest pairs walk p)
    (hq : IsShortest pairs walk q) : p = q := by
  obtain ⟨x, hx, rfl⟩ := hp.armed
  obtain ⟨y, hy, rfl⟩ := hq.armed
  rcases prefix_or_prefix_of_prefix hp.on_walk hq.on_walk with h | h
  · exact hq.shortest x hx hp.ne_nil h
  · exact (hp.shortest y hy hq.ne_nil h).symm

theorem shortestZone?_eq_some_iff :
    shortestZone? pairs walk = some zone ↔ IsShortest pairs walk zone := by
  refine ⟨isShortest_of_eq_some, fun h => ?_⟩
  cases hz : shortestZone? pairs walk with
  | some z => rw [(isShortest_of_eq_some hz).unique h]
  | none =>
    obtain ⟨x, hx, rfl⟩ := h.armed
    exact absurd h.on_walk (not_on_walk_of_eq_none hz hx h.ne_nil)

/-- The shortest zone of a walk answers for every longer walk. -/
theorem IsShortest.extend {longer : List Str} (h : IsShortest pairs walk zone)
    (hl : zone <+: longer) : IsShortest pairs longer zone :=
  ⟨h.ne_nil, hl, h.armed, h.shortest⟩

theorem zoneMask_of_isShortest (h : IsShortest pairs walk zone) :
    zoneMask pairs walk = unionMask (armedAt pairs zone) := by
  rw [zoneMask, shortestZone?_eq_some_iff.mpr h]
  rfl

theorem zoneMask_perm {pairs es : List (Str × SourceMask)} (h : es.Perm pairs)
    (walk : List Str) : zoneMask es walk = zoneMask pairs walk := by
  have hzone : shortestZone? es walk = shortestZone? pairs walk := by
    have hsame : isZone es = isZone pairs := by
      funext p
      rw [Bool.eq_iff_iff, isZone_iff, isZone_iff]
      simp only [h.mem_iff]
    rw [shortestZone?, hsame, shortestZone?]
  rw [zoneMask, zoneMask, hzone]
  congr 2
  funext zone
  exact unionMask_congr fun x => (h.filter _).mem_iff

/-! ### The run of inserts -/

/-- The insertions that reach the trie, with what each does to the covering terminal. -/
def zoneMarks (pairs : List (Str × SourceMask)) : List (List Str × (SourceMask → SourceMask)) :=
  (pairs.filter fun x => !(zonePath x.1).isEmpty).map fun x => (zonePath x.1, (· ||| x.2))

theorem mem_zoneMarks {l : List Str × (SourceMask → SourceMask)} (h : l ∈ zoneMarks pairs) :
    ∃ x ∈ pairs, zonePath x.1 = l.1 ∧ l.1 ≠ [] := by
  obtain ⟨x, hx, rfl⟩ := mem_map.mp h
  obtain ⟨hx, hne⟩ := mem_filter.mp hx
  exact ⟨x, hx, rfl, by simpa using hne⟩

theorem root_ofSources (pairs : List (Str × SourceMask)) :
    (Matcher.ofSources pairs).root =
      PathTrie.insertMarked 0 (zoneMarks pairs) (PathTrie.leaf 0) := by
  suffices h : ∀ m : Matcher, (pairs.foldl (fun m x => m.insertWithSource x.1 x.2) m).root =
      insertMarked 0 (zoneMarks pairs) m.root from h {}
  induction pairs with
  | nil => intro m; rfl
  | cons x xs ih =>
    intro m
    rw [foldl_cons, ih, Matcher.insertWithSource, root_insertMarked]
    by_cases h : zonePath x.1 = []
    · simp [zoneMarks, h]
    · simp [zoneMarks, h, insertMarked]

/-- What one pair does to the mask noted at a zone. -/
def creditPair (zone : List Str) (o : Option SourceMask) (x : Str × SourceMask) :
    Option SourceMask :=
  PathTrie.credit 0 zone o (zonePath x.1, (· ||| x.2))

theorem foldl_credit_zoneMarks (hne : zone ≠ []) (pairs : List (Str × SourceMask))
    (o : Option SourceMask) :
    (zoneMarks pairs).foldl (PathTrie.credit 0 zone) o = pairs.foldl (creditPair zone) o := by
  induction pairs generalizing o with
  | nil => rfl
  | cons x xs ih =>
    by_cases h : zonePath x.1 = []
    · -- such a pair never reaches the trie, and is beneath no zone
      have hskip : creditPair zone o x = o := by simp [creditPair, credit, h, hne]
      simpa [zoneMarks, h, hskip] using ih o
    · simpa [zoneMarks, h, creditPair] using ih (creditPair zone o x)

/-- The mask noted at the shortest zone of a walk, after the whole run. -/
theorem tagAt?_ofSources (h : IsShortest pairs walk zone) :
    (Matcher.ofSources pairs).root.tagAt? zone = pairs.foldl (creditPair zone) none ∧
      (Matcher.ofSources pairs).root.Open zone := by
  have hls : ∀ l ∈ zoneMarks pairs, l.1 ≠ [] ∧ (l.1 <+: zone → l.1 = zone) := by
    intro l hl
    obtain ⟨x, hx, hxl, hne⟩ := mem_zoneMarks hl
    refine ⟨hne, fun hpre => ?_⟩
    rw [← hxl] at hpre hne ⊢
    exact h.shortest x hx hne hpre
  have hrun := tagAt?_insertMarked 0 zone (zoneMarks pairs) (leaf 0) rfl
    (plain_leaf 0) (fun q _ _ he => not_ends_leaf 0 q he) hls
  rwa [tagAt?_leaf, foldl_credit_zoneMarks h.ne_nil, ← root_ofSources] at hrun

/-! ### The mask a run leaves at a zone -/

/-- Once the zone is armed, everything beneath it adds its bits. -/
theorem foldl_creditPair_some (zone : List Str) (pairs : List (Str × SourceMask)) (s : SourceMask) :
    pairs.foldl (creditPair zone) (some s) = some (s ||| unionMask (armedWithin pairs zone)) := by
  induction pairs generalizing s with
  | nil => simp [armedWithin, unionMask]
  | cons x xs ih =>
    by_cases hx : zone <+: zonePath x.1
    · have hstep : creditPair zone (some s) x = some (s ||| x.2) := by
        simp [creditPair, credit, hx]
      simp [hstep, ih, armedWithin, hx, unionMask, UInt32.or_assoc]
    · have hstep : creditPair zone (some s) x = some s := by
        simp [creditPair, credit, hx]
      simp [hstep, ih, armedWithin, hx]

/-- Before that, nothing is noted: what lies beneath is lost. -/
theorem foldl_creditPair_none (h : ∀ x ∈ pairs, zonePath x.1 ≠ zone) :
    pairs.foldl (creditPair zone) none = none := by
  induction pairs with
  | nil => rfl
  | cons x xs ih =>
    have hstep : creditPair zone none x = none := by
      simp [creditPair, credit, h x mem_cons_self]
    rw [foldl_cons, hstep]
    exact ih fun y hy => h y (mem_cons_of_mem _ hy)

theorem creditPair_none_self (x : Str × SourceMask) :
    creditPair (zonePath x.1) none x = some x.2 := by
  simp [creditPair, credit]

/-- In any order the zone has at least the bits of the sources that armed it, and at most
those of the sources that armed something within it. -/
theorem mask_bounds (h : ∃ x ∈ pairs, zonePath x.1 = zone) :
    ∃ s, pairs.foldl (creditPair zone) none = some s ∧
      Within (unionMask (armedAt pairs zone)) s ∧
      Within s (unionMask (armedWithin pairs zone)) := by
  -- split the run at the first insert of the zone itself
  obtain ⟨x, before, after, hx, rfl, hbefore⟩ :
      ∃ x before after, zonePath x.1 = zone ∧ pairs = before ++ x :: after ∧
        ∀ y ∈ before, zonePath y.1 ≠ zone := by
    have hfind : (pairs.find? fun x => zonePath x.1 = zone).isSome := by
      simpa [find?_isSome] using h
    obtain ⟨x, hx⟩ := Option.isSome_iff_exists.mp hfind
    obtain ⟨hxz, before, after, rfl, hbefore⟩ := find?_eq_some_iff_append.mp hx
    exact ⟨x, before, after, by simpa using hxz, rfl, by simpa using hbefore⟩
  subst hx
  refine ⟨x.2 ||| unionMask (armedWithin after (zonePath x.1)), ?_, ?_, ?_⟩
  · rw [foldl_append, foldl_creditPair_none hbefore, foldl_cons,
      creditPair_none_self, foldl_creditPair_some]
  · refine unionMask_within fun y hy => ?_
    obtain ⟨hy, hyz⟩ := mem_filter.mp hy
    have hyz : zonePath y.1 = zonePath x.1 := by simpa using hyz
    rcases mem_append.mp hy with hy | hy
    · exact absurd hyz (hbefore y hy)
    rcases mem_cons.mp hy with rfl | hy
    · exact within_or_left _ _
    · refine (within_unionMask ?_).trans (within_or_right _ _)
      exact mem_filter.mpr ⟨hy, by simp [hyz]⟩
  · refine or_within (within_unionMask ?_) (unionMask_within fun y hy => within_unionMask ?_)
    · exact mem_filter.mpr ⟨by simp, by simp⟩
    · obtain ⟨hy, hyz⟩ := mem_filter.mp hy
      exact mem_filter.mpr ⟨by simp [hy], hyz⟩

/-! ### Lookup -/

theorem maskAlong_of_tagAt? {s : SourceMask} : ∀ {zone walk : List Str} {n : Node},
    zone ≠ [] → zone <+: walk → n.tagAt? zone = some s → n.Open zone →
      Matcher.maskAlong walk n = s := by
  intro zone
  induction zone with
  | nil => intro walk n h; exact absurd rfl h
  | cons k ks ih =>
    intro walk n _ hpre htag hopen
    obtain ⟨ws, rfl⟩ : ∃ ws, walk = k :: ws := by
      obtain ⟨rest, rfl⟩ := hpre
      exact ⟨ks ++ rest, rfl⟩
    rw [tagAt?_cons] at htag
    obtain ⟨c, hc, htag⟩ := Option.bind_eq_some_iff.mp htag
    rw [Matcher.maskAlong, hc]
    have hopen' : c.Open ks := by simpa [hc] using hopen.child_getD 0
    by_cases hks : ks = []
    · by_cases hterm : c.terminal <;> simp_all
    -- nothing above the zone is a terminal, so the walk goes on
    have hterm : c.terminal = false := by
      by_contra h
      refine hopen' [] nil_prefix (Ne.symm hks) ((ends_nil c).mpr ?_)
      simpa using h
    simpa [hterm] using ih hks (cons_prefix_cons.mp hpre).2 htag hopen'

theorem maskAlong_of_not_ends {walk : List Str} {n : Node} (hplain : n.Plain 0)
    (h : ∀ p, p <+: walk → ¬ n.Ends p) : Matcher.maskAlong walk n = 0 := by
  induction walk generalizing n with
  | nil =>
    have hterm : n.terminal = false := by simpa using h [] nil_prefix
    exact hplain [] n rfl hterm
  | cons l ls ih =>
    rw [Matcher.maskAlong]
    cases hc : n.child? l with
    | none => rfl
    | some c =>
      have hchild : ∀ p, p <+: ls → ¬ c.Ends p := fun p hp he =>
        h (l :: p) (cons_prefix_cons.mpr ⟨rfl, hp⟩)
          ((ends_cons l p n).mpr ⟨c, hc, he⟩)
      have hterm : c.terminal = false := by simpa using hchild [] nil_prefix
      have hplain' : c.Plain 0 := by simpa [hc] using hplain.child_getD l
      simpa [hterm] using ih hplain' hchild

/-- The lookup after a run: the mask noted at the shortest zone of the walk, if any. -/
theorem sourceMask_of_isShortest (h : IsShortest pairs (walkLabels d) zone) {s : SourceMask}
    (hs : pairs.foldl (creditPair zone) none = some s) :
    (Matcher.ofSources pairs).sourceMask d = s := by
  obtain ⟨htag, hopen⟩ := tagAt?_ofSources h
  rw [hs] at htag
  have hne : walkLabels d ≠ [] := fun hnil =>
    h.ne_nil (prefix_nil.mp (hnil ▸ h.on_walk))
  simpa [Matcher.sourceMask, hne] using maskAlong_of_tagAt? h.ne_nil h.on_walk htag hopen

theorem sourceMask_of_eq_none (h : shortestZone? pairs (walkLabels d) = none) :
    (Matcher.ofSources pairs).sourceMask d = 0 := by
  have hmarks : ∀ l ∈ zoneMarks pairs, l.1 ≠ [] := fun l hl =>
    (mem_zoneMarks hl).elim fun _ hx => hx.2.2
  have hmask : Matcher.maskAlong (walkLabels d) (Matcher.ofSources pairs).root = 0 := by
    rw [root_ofSources]
    refine maskAlong_of_not_ends
      (plain_insertMarked 0 _ _ rfl (plain_leaf 0) hmarks) fun p hp he => ?_
    rcases mem_of_ends_insertMarked 0 _ _ rfl hmarks he with he | ⟨l, hl, rfl⟩
    · exact not_ends_leaf 0 p he
    · obtain ⟨x, hx, hxl, hne⟩ := mem_zoneMarks hl
      exact not_on_walk_of_eq_none h hx (hxl ▸ hne) (hxl ▸ hp)
  simp [Matcher.sourceMask, hmask]

/-! ### Independence of the order -/

theorem IsShortest.of_perm {pairs es : List (Str × SourceMask)} (h : es.Perm pairs)
    (hz : IsShortest pairs walk zone) : IsShortest es walk zone :=
  ⟨hz.ne_nil, hz.on_walk, hz.armed.imp fun _ hx => ⟨h.mem_iff.mpr hx.1, hx.2⟩,
    fun x hx => hz.shortest x (h.mem_iff.mp hx)⟩

/-- In whatever order corroborated pairs arrive, a name has the bits of the sources that
armed the shortest zone above it. -/
theorem sourceMask_ofSources {pairs es : List (Str × SourceMask)}
    (hc : ∀ x ∈ pairs, zonePath x.1 ≠ [] → Within x.2 (zoneMask pairs (zonePath x.1)))
    (hperm : es.Perm pairs) (d : Str) :
    (Matcher.ofSources es).sourceMask d = zoneMask pairs (walkLabels d) := by
  rw [← zoneMask_perm hperm]
  cases hz : shortestZone? es (walkLabels d) with
  | none => rw [sourceMask_of_eq_none hz, zoneMask, hz]; rfl
  | some zone =>
    have hshort := isShortest_of_eq_some hz
    obtain ⟨s, hs, hlow, hhigh⟩ := mask_bounds hshort.armed
    rw [sourceMask_of_isShortest hshort hs, zoneMask_of_isShortest hshort]
    refine Within.antisymm (hhigh.trans (unionMask_within fun x hx => ?_)) hlow
    -- a source that armed something within the zone armed the zone
    obtain ⟨hx, hpre⟩ := mem_filter.mp hx
    have hpre : zone <+: zonePath x.1 := by simpa using hpre
    have hne : zonePath x.1 ≠ [] := fun hnil =>
      hshort.ne_nil (prefix_nil.mp (hnil ▸ hpre))
    have hbits := hc x (hperm.mem_iff.mp hx) hne
    rwa [← zoneMask_perm hperm, zoneMask_of_isShortest (hshort.extend hpre)] at hbits

/-- The pairs that do not arm the zone itself. -/
def armedElsewhere (pairs : List (Str × SourceMask)) (zone : List Str) :
    List (Str × SourceMask) :=
  pairs.filter fun x => !(zonePath x.1 = zone)

theorem zone_first_perm (pairs : List (Str × SourceMask)) (zone : List Str) :
    (armedAt pairs zone ++ armedElsewhere pairs zone).Perm pairs :=
  filter_append_perm _ _

theorem zone_last_perm (pairs : List (Str × SourceMask)) (zone : List Str) :
    (armedElsewhere pairs zone ++ armedAt pairs zone).Perm pairs :=
  perm_append_comm.trans (zone_first_perm pairs zone)

/-- The zone inserted first collects the bits of everything within it. -/
theorem sourceMask_zone_first (h : IsShortest pairs (walkLabels d) zone) :
    (Matcher.ofSources (armedAt pairs zone ++ armedElsewhere pairs zone)).sourceMask d =
      unionMask (armedWithin pairs zone) := by
  have hperm := zone_first_perm pairs zone
  obtain ⟨x, hx, hxz⟩ := h.armed
  obtain ⟨y, ys, hys⟩ : ∃ y ys, armedAt pairs zone = y :: ys :=
    exists_cons_of_ne_nil
      (ne_nil_of_mem (mem_filter.mpr ⟨hx, by simpa using hxz⟩))
  have hyz : zonePath y.1 = zone := by
    have hy : y ∈ armedAt pairs zone := by rw [hys]; exact mem_cons_self
    simpa using (mem_filter.mp hy).2
  refine sourceMask_of_isShortest (IsShortest.of_perm hperm h) ?_
  -- after the first pair the zone is there, and the rest are credited to it
  rw [hys] at hperm ⊢
  rw [cons_append, foldl_cons, ← hyz, creditPair_none_self, hyz, foldl_creditPair_some]
  have hall : unionMask (armedWithin (y :: (ys ++ armedElsewhere pairs zone)) zone) =
      unionMask (armedWithin pairs zone) :=
    unionMask_congr fun x => (hperm.filter _).mem_iff
  rw [← hall]
  simp [armedWithin, hyz, unionMask]

/-- The zone inserted last has no bits but those of the sources that armed it. -/
theorem sourceMask_zone_last (h : IsShortest pairs (walkLabels d) zone) :
    (Matcher.ofSources (armedElsewhere pairs zone ++ armedAt pairs zone)).sourceMask d =
      unionMask (armedAt pairs zone) := by
  have hat : armedAt (armedAt pairs zone) zone = armedAt pairs zone := by
    simp [armedAt, filter_filter]
  have harmed : ∃ x ∈ armedAt pairs zone, zonePath x.1 = zone := by
    obtain ⟨x, hx, hxz⟩ := h.armed
    exact ⟨x, mem_filter.mpr ⟨hx, by simpa using hxz⟩, hxz⟩
  obtain ⟨s, hs, hlow, hhigh⟩ := mask_bounds harmed
  rw [hat] at hlow
  have hhigh : Within s (unionMask (armedAt pairs zone)) :=
    hhigh.trans (unionMask_within fun y hy => within_unionMask (mem_filter.mp hy).1)
  have hbefore : (armedElsewhere pairs zone).foldl (creditPair zone) none = none :=
    foldl_creditPair_none fun x hx => by simpa using (mem_filter.mp hx).2
  rw [sourceMask_of_isShortest (IsShortest.of_perm (zone_last_perm pairs zone) h)
    (by rw [foldl_append, hbefore, hs])]
  exact hhigh.antisymm hlow

/-- If the order does not matter, every pair within a zone is corroborated by those that
arm the zone. -/
theorem within_of_order_independent (h : ∀ es es', es.Perm pairs → es'.Perm pairs → ∀ d,
      (Matcher.ofSources es).sourceMask d = (Matcher.ofSources es').sourceMask d)
    (hx : x ∈ pairs) (hne : zonePath x.1 ≠ []) :
    Within x.2 (zoneMask pairs (zonePath x.1)) := by
  cases hz : shortestZone? pairs (zonePath x.1) with
  | none => exact absurd prefix_rfl (not_on_walk_of_eq_none hz hx hne)
  | some zone =>
    have hshort := isShortest_of_eq_some hz
    obtain ⟨y, hy, rfl⟩ := hshort.armed
    -- a name that the lookup walks along the zone
    have hy' : canonicalLabels y.1 ≠ [] := fun e => hshort.ne_nil (by simp [zonePath, e])
    have hwalk := walkLabels_intercalate (canonical_canonicalLabels y.1) hy'
    have hd : IsShortest pairs (walkLabels ('.' :: (['.'].intercalate (canonicalLabels y.1) ++
        ['.']))) (zonePath y.1) := hshort.extend (by rw [hwalk]; exact prefix_rfl)
    have hsame := h _ _ (zone_first_perm pairs (zonePath y.1)) (zone_last_perm pairs (zonePath y.1))
      ('.' :: (['.'].intercalate (canonicalLabels y.1) ++ ['.']))
    rw [sourceMask_zone_first hd, sourceMask_zone_last hd] at hsame
    rw [zoneMask_of_isShortest hshort, ← hsame]
    exact within_unionMask (mem_filter.mpr ⟨hx, by simpa using hshort.on_walk⟩)

/-- **Provenance and the order of the inserts.**  All orders of feeding the pairs give
every name the same mask, with the bits of each source that armed the name in it, exactly
when the pairs are corroborated. -/
theorem source_mask_order_iff (pairs : List (Str × SourceMask)) :
    (∀ es es', es.Perm pairs → es'.Perm pairs →
        (∀ d, (Matcher.ofSources es).sourceMask d = (Matcher.ofSources es').sourceMask d) ∧
        ∀ x ∈ pairs, normalize x.1 ≠ [] → Within x.2 ((Matcher.ofSources es).sourceMask x.1)) ↔
      Corroborated pairs := by
  have hnil : ∀ d : Str, normalize d ≠ [] ↔ zonePath d ≠ [] := fun d => by
    rw [zonePath, Ne, Ne, reverse_eq_nil_iff, canonicalLabels_eq_nil]
  simp only [hnil]
  constructor
  · intro h x hx hne
    have hbits := fun y hy => within_of_order_independent (x := y)
      (fun es es' he he' => (h es es' he he').1) hy
    refine ⟨hbits x hx hne, ?_⟩
    rw [← sourceMask_ofSources hbits (Perm.refl pairs)]
    exact (h pairs pairs (Perm.refl _) (Perm.refl _)).2 x hx hne
  · intro hc es es' he he'
    have hmask : ∀ es, es.Perm pairs → ∀ d,
        (Matcher.ofSources es).sourceMask d = zoneMask pairs (walkLabels d) := fun es he =>
      sourceMask_ofSources (fun x hx hne => (hc x hx hne).1) he
    refine ⟨fun d => by rw [hmask es he, hmask es' he'], fun x hx hne => ?_⟩
    rw [hmask es he]
    exact (hc x hx hne).2

/-- The child `a.b` from one source and then its parent `b` from another: the child's
source is forgotten, while in the other order both are known. -/
theorem source_mask_depends_on_order :
    ¬ ((Matcher.ofSources [(['a', '.', 'b'], 1), (['b'], 2)]).sourceMask ['a', '.', 'b'] =
        (Matcher.ofSources [(['b'], 2), (['a', '.', 'b'], 1)]).sourceMask ['a', '.', 'b']) ∧
      ¬ Within 1 ((Matcher.ofSources [(['a', '.', 'b'], 1), (['b'], 2)]).sourceMask
        ['a', '.', 'b']) := by
  decide +kernel

end Blocklist
end TortaCore
