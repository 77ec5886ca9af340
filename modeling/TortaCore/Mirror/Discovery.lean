import TortaCore.Blocklist.Artifact
import TortaCore.Dns.Name
import TortaCore.Machine.Run
import TortaCore.Mirror.Catalog
import TortaCore.Text.Ledger
import Mathlib.Data.List.Sort

/-!
# The living watch list

Every name that the resolver answers is shown to the discovery layer
(`centauri_discovery.rs`).  A name with the shape of a CDN host gets a row with the number of
times it was seen; after three times it may be cloaked.  The rows are kept in a ledger on
disk, and the dashboard gets the first names in one line with `|` between them.

Names come from DNS packets and may hold any character.  Neither the ledger nor the line
escapes them: a name with a line feed in it brings rows of its own, a name with a blank
before its final dots is read back as another one, and a name with `|` is shown as two.

## Main definitions

* `classify`, `Discovery.observe`, `promotable`, `discoveredLine`: the classifier, the feed and
  the readers.
* `serializeStore`, `parseBody`: the ledger.
-/

namespace TortaCore
namespace Mirror

open Text Store Net List

/-! ### The code -/

def minPromotionHits : ℕ := 3

def maxDiscovered : ℕ := 4096

def maxPromoted : ℕ := 256

inductive Marker where
  | infra
  | label
  deriving DecidableEq

namespace Marker

def slug : Marker → Str
  | infra => "infra".toList
  | label => "label".toList

def fromSlug (s : Str) : Option Marker :=
  if s = "infra".toList then some infra
  else if s = "label".toList then some label
  else none

end Marker

def neverDeliveryLabels : List Str :=
  ["stun".toList, "turn".toList, "nel".toList, "challenges".toList, "insights".toList,
   "analytics".toList, "telemetry".toList, "beacon".toList, "metrics".toList, "collect".toList,
   "cloudflareinsights".toList]

def infraTokens : List Str :=
  ["akamai".toList, "edgekey".toList, "edgesuite".toList, "llnwd".toList, "cloudfront".toList,
   "fastly".toList, "cloudflare".toList, "cdnjs".toList, "jsdelivr".toList, "unpkg".toList,
   "gstatic".toList, "bunnycdn".toList, "stackpath".toList, "keycdn".toList,
   "azureedge".toList, "cachefly".toList, "cdn77".toList, "cdnetworks".toList,
   "netdna".toList, "wpengine".toList, "wp-cdn".toList, "fbcdn".toList, "twimg".toList]

def cdnLabels : List Str :=
  ["cdn".toList, "cdns".toList, "static".toList, "assets".toList, "asset".toList,
   "media".toList, "img".toList, "images".toList, "content".toList, "cache".toList,
   "edge".toList, "js".toList, "css".toList, "fonts".toList, "ajax".toList,
   "static1".toList, "static2".toList]

/-- `str::contains` with a text. -/
def containsText (needle s : Str) : Bool := s.tails.any needle.isPrefixOf

def isIpLiteral (host : Str) : Bool := (IpAddr.parse host).isSome

/-- The host is normalised already. -/
def classify (host : Str) : Option Marker :=
  if host = [] || isIpLiteral host then none
  else if ".arpa".toList.isSuffixOf host || ".local".toList.isSuffixOf host ||
      ".onion".toList.isSuffixOf host || ".localhost".toList.isSuffixOf host then none
  else
    match nonEmpty (host.splitOn '.') with
    | lead :: second :: rest =>
      let labels := lead :: second :: rest
      let sld := labels.getD (labels.length - 2) []
      let stem := lead.takeWhile fun c => c.isAlpha
      if labels.any fun label => neverDeliveryLabels.contains label then none
      else if labels.any fun label => infraTokens.any fun tok => containsText tok label then
        some .infra
      else if containsText "cdn".toList sld then some .infra
      else if cdnLabels.contains lead || cdnLabels.contains stem ||
          "cdn".toList.isPrefixOf lead then some .label
      else none
    | _ => none

namespace Discovery

structure Entry where
  host : Str
  hits : ℕ
  firstSeen : ℕ
  lastSeen : ℕ
  marker : Marker
  deriving DecidableEq

structure Store where
  byHost : Dict Str Entry
  observedTotal : ℕ

def Store.empty : Store := ⟨.empty, 0⟩

/-- The part of `observe` under the lock. -/
def Store.witness (s : Store) (norm : Str) (marker : Marker) (now : ℕ) : Store where
  byHost :=
    match s.byHost.get? norm with
    | some e => s.byHost.set norm { e with hits := saturatingAdd e.hits 1, lastSeen := now }
    | none =>
      if s.byHost.rows.length < maxDiscovered then
        s.byHost.set norm ⟨norm, 1, now, now, marker⟩
      else s.byHost
  observedTotal := saturatingAdd s.observedTotal 1

/-! The readers. -/

/-- More hits first, then the host that is less. -/
def ranksBefore (a b : Str × ℕ) : Prop :=
  b.2 < a.2 ∨ a.2 = b.2 ∧ Blocklist.bytesLe a.1 b.1 = true

instance : DecidableRel ranksBefore := fun _ _ => inferInstanceAs (Decidable (_ ∨ _))

def Store.top (s : Store) (n : ℕ) : List (Str × ℕ) :=
  ((s.byHost.rows.map fun r => (r.2.host, r.2.hits)).insertionSort ranksBefore).take n

def Store.promotable (s : Store) : List Str :=
  ((((s.byHost.rows.map Prod.snd).filter fun e => minPromotionHits ≤ e.hits).map
    fun e => (e.host, e.hits)).insertionSort ranksBefore).take maxPromoted |>.map Prod.fst

def Store.discoveredLine (s : Store) (n : ℕ) : Str := ['|'].intercalate ((s.top n).map Prod.fst)

/-- The dashboard cuts the line again. -/
def splitDiscoveredLine (line : Str) : List Str := nonEmpty (line.splitOn '|')

/-! The ledger. -/

def fnvStep (h : UInt64) (b : UInt8) : UInt64 := (h ^^^ b.toUInt64) * 0x100000001b3

def Entry.signature (e : Entry) : UInt64 :=
  (utf8 e.host ++ (Wire.leBytes 8 e.hits ++ (Wire.leBytes 8 e.firstSeen ++
    (Wire.leBytes 8 e.lastSeen ++ utf8 e.marker.slug)))).foldl fnvStep 0xcbf29ce484222325

def Store.signature (s : Store) : UInt64 :=
  s.byHost.rows.foldl (fun folded r => folded ^^^ r.2.signature)
    (UInt64.ofNat s.observedTotal * 11)

def Entry.fields (e : Entry) : List Str :=
  [e.host, decimal e.hits, decimal e.firstSeen, decimal e.lastSeen, e.marker.slug]

def observedKey : Str := "observed_total=".toList

/-- Rows in the order of the hosts. -/
def Store.sortedRows (s : Store) : List Entry :=
  (s.byHost.rows.map Prod.snd).insertionSort fun a b => Blocklist.bytesLe a.host b.host = true

def serializeStore (s : Store) : Str :=
  printLedger "centauri-discovered v1".toList [observedKey ++ decimal s.observedTotal]
    (s.sortedRows.map Entry.fields)

def readToken (observed : ℕ) (tok : Str) : ℕ :=
  match tok.dropPrefix? observedKey with
  | some v => (parseUnsigned 10 u64Max v).getD 0
  | none => observed

def readRow : List Str → Option Entry
  | [host, hits, firstSeen, lastSeen, slug] =>
    match Marker.fromSlug slug with
    | none => none
    | some marker =>
      if normalizeHost host = [] then none
      else some ⟨normalizeHost host, (parseUnsigned 10 u64Max hits).getD 1,
        (parseUnsigned 10 u64Max firstSeen).getD 0, (parseUnsigned 10 u64Max lastSeen).getD 0,
        marker⟩
  | _ => none

def parseBody (body : Str) : List Entry × ℕ := readLedger readToken readRow 0 body

/-- `entry().or_insert()`, up to the bound. -/
def Store.orInsert (d : Dict Str Entry) (e : Entry) : Dict Str Entry :=
  if maxDiscovered ≤ d.rows.length then d
  else if (d.get? e.host).isSome then d
  else d.set e.host e

def Store.load (s : Store) (body : Str) : Store where
  byHost := (parseBody body).1.foldl Store.orInsert s.byHost
  observedTotal := max s.observedTotal (parseBody body).2

/-- The process and the file that outlives it. -/
structure State where
  store : Store
  armed : Bool
  lastPersistSig : UInt64
  file : Option Str

def State.initial : State := ⟨.empty, false, 0, none⟩

/-- Writing the file or moving it into place may fail. -/
def State.persist (s : State) (fails : Bool) : State :=
  if s.store.signature = s.lastPersistSig || fails then s
  else { s with lastPersistSig := s.store.signature, file := some (serializeStore s.store) }

def State.observe (s : State) (host : Str) (alreadyStatic : Bool) (now : ℕ) (fails : Bool) :
    State :=
  if !s.armed || alreadyStatic then s
  else
    match classify (normalizeHost host) with
    | none => s
    | some marker =>
      State.persist { s with store := s.store.witness (normalizeHost host) marker now } fails

/-- Reading the file may fail. -/
def State.arm (s : State) (fails : Bool) : State :=
  match if fails then none else s.file with
  | none => { s with armed := true }
  | some body =>
    let store := s.store.load body
    { s with store := store, lastPersistSig := store.signature, armed := true }

inductive Act where
  | observe (host : Str) (alreadyStatic : Bool) (now : ℕ) (fails : Bool)
  | arm (fails : Bool)
  /-- The process ends and is started again. -/
  | restart

def State.apply (s : State) : Act → State
  | .observe host alreadyStatic now fails => s.observe host alreadyStatic now fails
  | .arm fails => s.arm fails
  | .restart => { State.initial with file := s.file }

def State.run (s : State) (acts : List Act) : State := acts.foldl State.apply s

/-! ### What is read back -/

/-- The name comes back from the ledger as it is, and from the line in one piece. -/
def Faithful (name : Str) : Prop := '\n' ∉ name ∧ '|' ∉ name ∧ normalizeHost name = name

instance (name : Str) : Decidable (Faithful name) := inferInstanceAs (Decidable (_ ∧ _))

variable {e : Entry} {s : Store} {seen : Str → ℕ}

theorem oneLine_fields (h : '\n' ∉ e.host) : OneLine (tabbed e.fields) := by
  have hslug : e.marker.slug ≠ [] ∧ OneLine e.marker.slug := by
    cases e.marker <;> exact ⟨by decide, by decide, by decide⟩
  refine oneLine_tabbed [e.host, decimal e.hits, decimal e.firstSeen, decimal e.lastSeen] _ ?_
    hslug.1 hslug.2
  have hdigits : ∀ n, '\n' ∉ decimal n := notMem_decimal (by decide)
  simp [h, hdigits]

theorem splitOn_tabbed_fields (e : Entry) :
    (tabbed e.fields).splitOn '\t' = e.host.splitOn '\t' ++ e.fields.tail := by
  have hdigits : ∀ n, (decimal n).splitOn '\t' = [decimal n] := fun n =>
    splitOn_eq_singleton (notMem_decimal (by decide) n)
  have hslug : e.marker.slug.splitOn '\t' = [e.marker.slug] := by
    cases e.marker <;> exact splitOn_eq_singleton (by decide)
  rw [Entry.fields, splitOn_tabbed (cons_ne_nil _ _)]
  simp [hdigits, hslug]

theorem length_of_readRow {f : List Str} (h : readRow f = some e) : f.length = 5 := by
  unfold readRow at h
  split at h
  · rfl
  · cases h

/-- Only a row without a tab in its host is read back, and as a row of the host trimmed. -/
theorem rowOf_fields {e e' : Entry} (h : rowOf readRow (tabbed e.fields) = some e') :
    e'.host = normalizeHost e.host ∧ e'.host ≠ [] ∧
      e'.hits = (parseUnsigned 10 u64Max (decimal e.hits)).getD 1 := by
  unfold rowOf at h
  split at h
  · cases h
  rw [splitOn_tabbed_fields] at h
  -- five fields leave room for no tab in the host
  have htab : '\t' ∉ e.host := by
    have hlen := length_of_readRow h
    rw [length_append, splitOn_eq_splitOnP, length_splitOnP] at hlen
    have hcount : e.host.countP (· == '\t') = 0 := by
      simp only [Entry.fields, tail_cons, length_cons, length_nil] at hlen
      omega
    exact count_eq_zero.mp hcount
  rw [splitOn_eq_singleton htab] at h
  simp only [Entry.fields, tail_cons, singleton_append, readRow] at h
  split at h
  · cases h
  split at h
  · cases h
  · next hne =>
    cases h
    exact ⟨rfl, hne, rfl⟩

/-- A row that is read back is a row of the store, with the number of its hits. -/
theorem mem_parseBody_serializeStore (hlines : ∀ r ∈ s.byHost.rows, '\n' ∉ r.2.host)
    (h : e ∈ (parseBody (serializeStore s)).1) :
    ∃ r ∈ s.byHost.rows, e.host = normalizeHost r.2.host ∧ e.host ≠ [] ∧
      e.hits = (parseUnsigned 10 u64Max (decimal r.2.hits)).getD 1 := by
  have htokens : Tokens [observedKey ++ decimal s.observedTotal] := by
    intro t ht
    rw [mem_singleton] at ht
    subst ht
    exact token_decimal (by decide +kernel) _
  have hrows : ∀ f ∈ s.sortedRows.map Entry.fields, OneLine (tabbed f) := by
    intro f hf
    obtain ⟨r, hr, rfl⟩ := mem_map.mp hf
    obtain ⟨row, hrow, rfl⟩ := mem_map.mp ((mem_insertionSort _).mp hr)
    exact oneLine_fields (hlines row hrow)
  rw [parseBody, serializeStore, fst_readLedger_printLedger (by decide +kernel) htokens hrows,
    filterMap_map, mem_filterMap] at h
  obtain ⟨r, hr, he⟩ := h
  obtain ⟨row, hrow, rfl⟩ := mem_map.mp ((mem_insertionSort _).mp hr)
  exact ⟨row, hrow, rowOf_fields he⟩

/-! ### Soundness of the rows -/

/-- Every row is that of a faithful name that was seen at least as often as it says. -/
def Store.Sound (seen : Str → ℕ) (s : Store) : Prop :=
  ∀ k e, s.byHost.get? k = some e →
    e.host = k ∧ k ≠ [] ∧ Faithful k ∧ 1 ≤ e.hits ∧ e.hits ≤ seen k

theorem Store.sound_empty (seen : Str → ℕ) : Store.empty.Sound seen := by
  intro k e h
  cases h

theorem Store.Sound.mono {seen seen' : Str → ℕ} (h : s.Sound seen)
    (hle : ∀ k, seen k ≤ seen' k) : s.Sound seen' := by
  intro k e hk
  obtain ⟨hhost, hne, hf, hone, hhits⟩ := h k e hk
  exact ⟨hhost, hne, hf, hone, hhits.trans (hle k)⟩

theorem Store.Sound.witness (h : s.Sound seen) {norm : Str}
    (hne : norm ≠ []) (hf : Faithful norm) (marker : Marker) (now : ℕ) :
    (s.witness norm marker now).Sound (Function.update seen norm (seen norm + 1)) := by
  have hkeep : s.Sound (Function.update seen norm (seen norm + 1)) := by
    refine h.mono fun k => ?_
    by_cases hk : k = norm
    · rw [hk, Function.update_self]
      exact Nat.le_succ _
    · rw [Function.update_of_ne hk]
  -- the row written is that of the name; all others are rows of before
  have hset : ∀ e : Entry, e.host = norm → 1 ≤ e.hits → e.hits ≤ seen norm + 1 →
      ∀ k e', (s.byHost.set norm e).get? k = some e' →
        e'.host = k ∧ k ≠ [] ∧ Faithful k ∧ 1 ≤ e'.hits ∧
          e'.hits ≤ Function.update seen norm (seen norm + 1) k := by
    intro e hhost hone hhits k e' hget
    rw [Dict.get?_set] at hget
    split at hget
    · next hk =>
      cases hget
      subst hk
      exact ⟨hhost, hne, hf, hone, by rwa [Function.update_self]⟩
    · exact hkeep k e' hget
  intro k e hget
  simp only [Store.witness] at hget
  split at hget
  · next old hold =>
    obtain ⟨hhost, -, -, hone, hhits⟩ := h norm old hold
    have hadd : 1 ≤ saturatingAdd old.hits 1 ∧ saturatingAdd old.hits 1 ≤ seen norm + 1 := by
      have : 1 ≤ u64Max := by decide
      rw [saturatingAdd]
      omega
    exact hset { old with hits := saturatingAdd old.hits 1, lastSeen := now } hhost hadd.1 hadd.2
      k e hget
  · split at hget
    · exact hset ⟨norm, 1, now, now, marker⟩ rfl le_rfl (Nat.le_add_left 1 _) k e hget
    · exact hkeep k e hget

theorem Store.Sound.orInsert {total : ℕ} {d : Dict Str Entry} (h : (⟨d, total⟩ : Store).Sound seen)
    (he : e.host ≠ [] ∧ Faithful e.host ∧ 1 ≤ e.hits ∧ e.hits ≤ seen e.host) :
    (⟨Store.orInsert d e, total⟩ : Store).Sound seen := by
  intro k e' hget
  simp only [Store.orInsert] at hget
  split at hget
  · exact h k e' hget
  split at hget
  · exact h k e' hget
  rw [Dict.get?_set] at hget
  split at hget
  · next hk =>
    cases hget
    subst hk
    exact ⟨rfl, he⟩
  · exact h k e' hget

/-- The rows of a sound store are sound again when they are read back. -/
theorem Store.Sound.load {s t : Store} (hs : s.Sound seen) (ht : t.Sound seen) :
    (s.load (serializeStore t)).Sound seen := by
  have hlines : ∀ r ∈ t.byHost.rows, '\n' ∉ r.2.host := by
    rintro ⟨k, e⟩ hr
    obtain ⟨hhost, -, hf, -⟩ := ht k e (Dict.mem_rows_iff.mp hr)
    exact hhost ▸ hf.1
  have hentries : ∀ e ∈ (parseBody (serializeStore t)).1,
      e.host ≠ [] ∧ Faithful e.host ∧ 1 ≤ e.hits ∧ e.hits ≤ seen e.host := by
    intro e he
    obtain ⟨⟨k, row⟩, hrow, hhost, hne, hhits⟩ := mem_parseBody_serializeStore hlines he
    obtain ⟨hk, -, hf, hone, hle⟩ := ht k row (Dict.mem_rows_iff.mp hrow)
    have hname : e.host = k := by rw [hhost, hk, hf.2.2]
    refine ⟨hne, hname ▸ hf, ?_⟩
    rw [hhits, hname]
    rcases Nat.lt_or_ge u64Max row.hits with hbig | hfits
    · -- out of range: the reader takes one hit
      rw [parseUnsigned_decimal_of_lt hbig]
      exact ⟨le_rfl, hone.trans hle⟩
    · rw [parseUnsigned_decimal hfits]
      exact ⟨hone, hle⟩
  have hfold : ∀ (es : List Entry) (d : Dict Str Entry) (total : ℕ),
      (∀ e ∈ es, e.host ≠ [] ∧ Faithful e.host ∧ 1 ≤ e.hits ∧ e.hits ≤ seen e.host) →
      (⟨d, total⟩ : Store).Sound seen →
      (⟨es.foldl Store.orInsert d, total⟩ : Store).Sound seen := by
    intro es
    induction es with
    | nil => intro d total _ hd; exact hd
    | cons e es ih =>
      intro d total hes hd
      exact ih _ total (fun e' he' => hes e' (mem_cons_of_mem _ he'))
        (hd.orInsert (hes e mem_cons_self))
  exact hfold _ s.byHost _ hentries hs

/-! ### Runs -/

/-- The store is sound, and so is the one that the file was written from. -/
def State.Sound (seen : Str → ℕ) (s : State) : Prop :=
  s.store.Sound seen ∧
    ∀ body, s.file = some body → ∃ t : Store, body = serializeStore t ∧ t.Sound seen

/-- The name, normalised, that a step shows to the layer. -/
def Act.shown : Act → Option Str
  | .observe host _ _ _ => some (normalizeHost host)
  | _ => none

/-- How often a name was passed to `observe`. -/
def timesObserved (name : Str) (acts : List Act) : ℕ := acts.countP fun a => a.shown = some name

/-- A name that is recorded is a faithful one. -/
def State.Admits (s : State) : Act → Prop
  | .observe host alreadyStatic _ _ =>
    s.armed = true → alreadyStatic = false → classify (normalizeHost host) ≠ none →
      Faithful (normalizeHost host)
  | _ => True

theorem State.Sound.mono {seen seen' : Str → ℕ} {s : State} (h : s.Sound seen)
    (hle : ∀ k, seen k ≤ seen' k) : s.Sound seen' := by
  refine ⟨h.1.mono hle, fun body hbody => ?_⟩
  obtain ⟨t, rfl, ht⟩ := h.2 body hbody
  exact ⟨t, rfl, ht.mono hle⟩

theorem State.Sound.persist {s : State} (h : s.Sound seen) (fails : Bool) :
    (s.persist fails).Sound seen := by
  rw [State.persist]
  split
  · exact h
  · refine ⟨h.1, fun body hbody => ?_⟩
    cases hbody
    exact ⟨s.store, rfl, h.1⟩

theorem classify_nil : classify [] = none := by simp [classify]

/-- A step of which every recorded name is faithful keeps the rows sound. -/
theorem State.Sound.apply {s : State} (h : s.Sound seen) {a : Act} (ha : s.Admits a) :
    (s.apply a).Sound fun k => seen k + timesObserved k [a] := by
  have hkeep : s.Sound fun k => seen k + timesObserved k [a] := h.mono fun k => Nat.le_add_right _ _
  cases a with
  | observe host alreadyStatic now fails =>
    simp only [State.apply, State.observe]
    split
    · exact hkeep
    next hgate =>
    simp only [Bool.or_eq_true, Bool.not_eq_true', not_or, Bool.not_eq_false,
      Bool.not_eq_true] at hgate
    split
    · exact hkeep
    next marker hmarker =>
    have hf := ha hgate.1 hgate.2 (by rw [hmarker]; exact Option.some_ne_none _)
    have hne : normalizeHost host ≠ [] := by
      intro hnil
      rw [hnil, classify_nil] at hmarker
      cases hmarker
    have hstore : (s.store.witness (normalizeHost host) marker now).Sound fun k =>
        seen k + timesObserved k [.observe host alreadyStatic now fails] := by
      refine (h.1.witness hne hf marker now).mono fun k => ?_
      by_cases hk : k = normalizeHost host
      · rw [hk, Function.update_self]
        simp [timesObserved, Act.shown]
      · rw [Function.update_of_ne hk]
        exact Nat.le_add_right _ _
    have hnext : State.Sound (fun k =>
          seen k + timesObserved k [.observe host alreadyStatic now fails])
        { s with store := s.store.witness (normalizeHost host) marker now } :=
      ⟨hstore, hkeep.2⟩
    exact hnext.persist fails
  | arm fails =>
    simp only [State.apply, State.arm]
    split
    · exact hkeep
    next body hbody =>
    have hfile : s.file = some body := by
      cases fails with
      | false => exact hbody
      | true => cases hbody
    obtain ⟨t, rfl, ht⟩ := hkeep.2 body hfile
    exact ⟨hkeep.1.load ht, hkeep.2⟩
  | restart => exact ⟨Store.sound_empty _, hkeep.2⟩

theorem State.Sound.run {acts : List Act} {seen : Str → ℕ} {s : State} (h : s.Sound seen)
    (hacts : Machine.Along State.apply State.Admits s acts) :
    (s.run acts).Sound fun k => seen k + timesObserved k acts := by
  induction acts generalizing seen s with
  | nil => exact h
  | cons a acts ih =>
    refine (ih (h.apply hacts.1) hacts.2).mono fun k => ?_
    have hcons : timesObserved k (a :: acts) = timesObserved k [a] + timesObserved k acts := by
      rw [timesObserved, timesObserved, timesObserved, ← countP_append, singleton_append]
    rw [hcons, Nat.add_assoc]

/-! ### What the readers show -/

theorem Store.mem_top {n : ℕ} {r : Str × ℕ} (h : r ∈ s.top n) :
    ∃ k e, s.byHost.get? k = some e ∧ r = (e.host, e.hits) := by
  obtain ⟨⟨k, e⟩, hrow, rfl⟩ := mem_map.mp ((mem_insertionSort _).mp (mem_of_mem_take h))
  exact ⟨k, e, Dict.mem_rows_iff.mp hrow, rfl⟩

theorem Store.mem_promotable {host : Str} (h : host ∈ s.promotable) :
    ∃ k e, s.byHost.get? k = some e ∧ host = e.host ∧ minPromotionHits ≤ e.hits := by
  obtain ⟨r, hr, rfl⟩ := mem_map.mp h
  obtain ⟨e, he, rfl⟩ := mem_map.mp ((mem_insertionSort _).mp (mem_of_mem_take hr))
  obtain ⟨hmem, hhits⟩ := mem_filter.mp he
  obtain ⟨⟨k, e'⟩, hrow, rfl⟩ := mem_map.mp hmem
  exact ⟨k, e', Dict.mem_rows_iff.mp hrow, rfl, by simpa using hhits⟩

/-- Names without the separator are found again in the line. -/
theorem splitDiscoveredLine_intercalate {hosts : List Str} (h : ∀ k ∈ hosts, k ≠ [] ∧ '|' ∉ k) :
    splitDiscoveredLine (['|'].intercalate hosts) = hosts := by
  rw [splitDiscoveredLine]
  by_cases hnil : hosts = []
  · subst hnil
    rfl
  · rw [splitOn_intercalate _ (fun k hk => (h k hk).2) hnil,
      nonEmpty_eq_self fun k hk => (h k hk).1]

/-- In every run that records faithful names only, a host is promoted only if it was seen
three times, and the line shows the hosts of the list. -/
theorem promotable_was_observed (acts : List Act)
    (hacts : Machine.Along State.apply State.Admits State.initial acts) :
    (∀ host ∈ (State.initial.run acts).store.promotable,
      minPromotionHits ≤ timesObserved host acts) ∧
    ∀ n, splitDiscoveredLine ((State.initial.run acts).store.discoveredLine n) =
      ((State.initial.run acts).store.top n).map Prod.fst := by
  have hinit : State.initial.Sound fun _ => 0 := ⟨Store.sound_empty _, fun body h => by cases h⟩
  obtain ⟨hsound, -⟩ := hinit.run hacts
  constructor
  · intro host hhost
    obtain ⟨k, e, hget, rfl, hhits⟩ := Store.mem_promotable hhost
    obtain ⟨hk, -, -, -, hle⟩ := hsound k e hget
    rw [hk]
    simpa using hhits.trans hle
  · intro n
    refine splitDiscoveredLine_intercalate fun host hhost => ?_
    obtain ⟨r, hr, rfl⟩ := mem_map.mp hhost
    obtain ⟨k, e, hget, rfl⟩ := Store.mem_top hr
    obtain ⟨hk, hne, hf, -⟩ := hsound k e hget
    exact hk ▸ ⟨hne, hf.2.1⟩

/-- `cdn.a` is seen three times, the last time after a restart. -/
def seenThrice : List Act :=
  [.arm false, .observe "cdn.a".toList false 7 false, .observe "CDN.A.".toList false 8 false,
    .restart, .arm false, .observe "cdn.a".toList false 9 false]

theorem promotable_was_observed_thrice :
    Machine.Along State.apply State.Admits State.initial seenThrice ∧
    (State.initial.run seenThrice).store.promotable = ["cdn.a".toList] ∧
    (∀ host ∈ (State.initial.run seenThrice).store.promotable,
      minPromotionHits ≤ timesObserved host seenThrice) := by
  have hfaithful : Faithful (normalizeHost "cdn.a".toList) ∧
      Faithful (normalizeHost "CDN.A.".toList) := by decide +kernel
  have hacts : Machine.Along State.apply State.Admits State.initial seenThrice :=
    ⟨trivial, fun _ _ _ => hfaithful.1, fun _ _ _ => hfaithful.2, trivial, trivial,
      fun _ _ _ => hfaithful.1, trivial⟩
  exact ⟨hacts, by decide +kernel, (promotable_was_observed seenThrice hacts).1⟩

/-- The name of a query with two line feeds in its labels. -/
def forgedName : Str := "cdn.a\nb.c\t9\t0\t0\tinfra\nz".toList

/-- The question section it comes from, from its first byte on. -/
def forgedWire : Bytes :=
  3 :: (utf8 "cdn".toList ++ 3 :: (utf8 "a\nb".toList ++
    15 :: (utf8 "c\t9\t0\t0\tinfra\nz".toList ++ [0])))

/-- A name with line feeds brings the row of another host, which is promoted without ever
having been seen; and a name with `|` in it is shown as two. -/
theorem forged_row_is_promoted :
    (Dns.readName forgedWire 0 = some (forgedName, forgedWire.length) ∧
      let acts := [.arm false, .observe forgedName false 7 false, .restart, .arm false]
      "b.c".toList ∈ (State.initial.run acts).store.promotable ∧
        timesObserved "b.c".toList acts = 0) ∧
    let s := State.initial.run [.arm false, .observe "cdn.a|b".toList false 7 false]
    splitDiscoveredLine (s.store.discoveredLine 1) = ["cdn.a".toList, "b".toList] ∧
      (s.store.top 1).map Prod.fst = ["cdn.a|b".toList] := by
  decide +kernel

end Discovery

end Mirror
end TortaCore
