import TortaCore.Blocklist.Artifact
import TortaCore.Dns.Name
import TortaCore.Machine.Run
import TortaCore.Text.Ledger
import TortaCore.Underground.Store

/-!
# The ledger of the licences

The store is written to a tab-separated ledger and read back when the process starts
(`underground.rs`).  The names in it come from DNS packets.

Nothing is escaped.  A name with a line feed brings rows of its own, with any verdict; a name
that begins with `#meta ` changes the totals and the epoch, and an older epoch frees every host
that was sequestrated; a name with a tab, or with `#` in front, is lost; and a name with a blank
before its final dots comes back as another one.

## Main definitions

* `serializeStore`, `parseBody`: the writer and the reader, with the amnesty for an old epoch.
-/

namespace TortaCore
namespace Underground

open Text Mirror TortaCore.Store List

/-! ### The code -/

def detectionEpoch : ℕ := 1

namespace Source

def slug : Source → Str
  | blocklist => "blocklist".toList
  | guard => "guard".toList
  | rebind => "rebind".toList
  | suffix => "suffix".toList
  | centauri => "centauri".toList

def fromSlug (s : Str) : Option Source :=
  [blocklist, guard, rebind, suffix, centauri].find? fun r => r.slug = s

end Source

namespace Verdict

def slug : Verdict → Str
  | neutral => "neutral".toList
  | trusted => "trusted".toList
  | distrusted => "distrusted".toList

/-- An unknown text is no pin. -/
def fromSlug (s : Str) : Verdict :=
  if s = "trusted".toList then trusted
  else if s = "distrusted".toList then distrusted
  else neutral

end Verdict

def countryText : Option (UInt8 × UInt8) → Str
  | some (a, b) => fromUtf8Lossy [a, b]
  | none => ['-']

def flagText (b : Bool) : Str := if b then ['1'] else ['0']

def Entry.fields (e : Entry) : List Str :=
  [e.host, e.risk.slug, e.source.slug, decimal e.hits.toNat, decimalInt e.points.toInt,
   decimal e.firstSeen.toNat, decimal e.lastSeen.toNat, decimal e.lastHeal.toNat,
   countryText e.country, flagText e.sequestrated, e.verdict.slug, decimal e.seqAt.toNat]

/-- Rows in the order of the hosts. -/
def Store.sortedRows (s : Store) : List Entry :=
  (s.byHost.rows.map Prod.snd).insertionSort fun a b => Blocklist.bytesLe a.host b.host = true

def recordedKey : Str := "recorded_total=".toList

def recoveredKey : Str := "recovered_total=".toList

def teethKey : Str := "teeth_total=".toList

def epochKey : Str := "epoch=".toList

def Store.tokens (s : Store) : List Str :=
  [recordedKey ++ decimal s.recordedTotal.toNat, recoveredKey ++ decimal s.recoveredTotal.toNat,
   teethKey ++ decimal s.teethTotal.toNat, epochKey ++ decimal detectionEpoch]

def ledgerTitle : Str := "underground-ledger v1".toList

def serializeStore (s : Store) : Str :=
  printLedger ledgerTitle s.tokens (s.sortedRows.map Entry.fields)

/-! The reader. -/

structure Totals where
  recorded : UInt64 := 0
  recovered : UInt64 := 0
  teeth : UInt64 := 0
  epoch : ℕ := 0
  deriving DecidableEq

/-- `parse().unwrap_or(0)` of a 64-bit number. -/
def readU64 (s : Str) : UInt64 := UInt64.ofNat ((parseUnsigned 10 u64Max s).getD 0)

def u32Max : ℕ := 4294967295

def readToken (t : Totals) (tok : Str) : Totals :=
  match tok.dropPrefix? recordedKey with
  | some v => { t with recorded := readU64 v }
  | none =>
    match tok.dropPrefix? recoveredKey with
    | some v => { t with recovered := readU64 v }
    | none =>
      match tok.dropPrefix? teethKey with
      | some v => { t with teeth := readU64 v }
      | none =>
        match tok.dropPrefix? epochKey with
        | some v => { t with epoch := (parseUnsigned 10 u32Max v).getD 0 }
        | none => t

def asciiUpperByte (b : UInt8) : UInt8 :=
  if 0x61 ≤ b.toNat ∧ b.toNat ≤ 0x7A then UInt8.ofNat (b.toNat - 32) else b

def readCountry (s : Str) : Option (UInt8 × UInt8) :=
  match utf8 s with
  | [a, b] => some (asciiUpperByte a, asciiUpperByte b)
  | _ => none

def readPoints (s : Str) : Int32 :=
  match parseSigned (-2147483648) 2147483647 s with
  | some z => Int32.ofInt z
  | none => licenceStart

/-- Ten columns, eleven with the pin, twelve with the clock of the quarantine. -/
def readRow (now : UInt64) : List Str → Option Entry
  | host :: risk :: source :: hits :: points :: firstSeen :: lastSeen :: lastHeal :: country ::
      flag :: more =>
    if 2 < more.length then none
    else
      match Risk.fromSlug risk, Source.fromSlug source with
      | some risk, some source =>
        if normalizeHost host = [] then none
        else
          some
            { host := normalizeHost host
              risk := risk
              source := source
              hits := readU64 hits
              points := readPoints points
              firstSeen := readU64 firstSeen
              lastSeen := readU64 lastSeen
              lastHeal := readU64 lastHeal
              country := readCountry country
              sequestrated := flag = ['1']
              verdict := (more.head?.map Verdict.fromSlug).getD .neutral
              -- an old row that is sequestrated begins its quarantine at the load
              seqAt := ((more.tail.head?).map readU64).getD (if flag = ['1'] then now else 0) }
      | _, _ => none
  | _ => none

/-- What an old epoch means for a row. -/
def amnesty (law : Law) (e : Entry) : Entry :=
  if e.verdict = .distrusted ∨ e.source = .centauri then e
  else if e.sequestrated || e.points ≤ 0 then
    { e with points := law.licenceStartFor e.host, sequestrated := false, seqAt := 0 }
  else e

def parseBody (law : Law) (now : UInt64) (body : Str) : List Entry × Totals :=
  let r := readLedger readToken (readRow now) {} body
  (if r.2.epoch < detectionEpoch then r.1.map (amnesty law) else r.1, r.2)

/-! ### Names that come back -/

/-- The name stands in one field of one row, and the row is read under it. -/
def Clean (host : Str) : Prop :=
  '\n' ∉ host ∧ '\t' ∉ host ∧ host.head? ≠ some '#' ∧ normalizeHost host = host

instance (host : Str) : Decidable (Clean host) := inferInstanceAs (Decidable (_ ∧ _))

/-- The ledger has the rows and the totals of the store, in whatever order. -/
def RoundTrips (law : Law) (now : UInt64) (s : Store) : Prop :=
  (parseBody law now (serializeStore s)).1.Perm (s.byHost.rows.map Prod.snd) ∧
    (parseBody law now (serializeStore s)).2.recorded = s.recordedTotal ∧
    (parseBody law now (serializeStore s)).2.recovered = s.recoveredTotal ∧
    (parseBody law now (serializeStore s)).2.teeth = s.teethTotal

/-- A text that stands in one field. -/
def OneField (s : Str) : Prop := '\n' ∉ s ∧ '\t' ∉ s

instance (s : Str) : Decidable (OneField s) := inferInstanceAs (Decidable (_ ∧ _))

/-- The lane is read back. -/
def Wired (r : Risk) : Prop := OneField r.slug ∧ Risk.fromSlug r.slug = some r

instance (r : Risk) : Decidable (Wired r) := inferInstanceAs (Decidable (_ ∧ _))

/-- What every row is like, whatever its lane. -/
def Rooted (k : Str) (e : Entry) : Prop :=
  e.host = k ∧ k ≠ [] ∧ (∃ q, k = normalizeHost q) ∧ e.country = none

/-- What every row of the engine is like. -/
def Filed (k : Str) (e : Entry) : Prop := Rooted k e ∧ Wired e.risk

/-! ### One row -/

theorem oneField_decimal (n : ℕ) : OneField (decimal n) :=
  ⟨notMem_decimal (by decide) n, notMem_decimal (by decide) n⟩

/-- The lanes of the classifier and of the detectors. -/
theorem wired_of_mem {r : Risk} (h : r ∈ Risk.lanes ++ coined) : Wired r := by
  have hall : ((Risk.lanes ++ coined).all fun r => decide (Wired r)) = true := by decide +kernel
  simpa using all_eq_true.mp hall r h

theorem Source.fromSlug_slug (s : Source) : Source.fromSlug s.slug = some s := by
  cases s <;> decide +kernel

theorem Verdict.fromSlug_slug (v : Verdict) : Verdict.fromSlug v.slug = v := by
  cases v <;> decide +kernel

variable {e : Entry} {k : Str}

theorem oneField_tail (h : Filed k e) : ∀ f ∈ e.fields.tail, OneField f := by
  obtain ⟨⟨-, -, -, hcountry⟩, hrisk⟩ := h
  have hsource : OneField e.source.slug := by cases e.source <;> decide
  have hpoints : OneField (decimalInt e.points.toInt) :=
    ⟨notMem_decimalInt (by decide) (by decide) _, notMem_decimalInt (by decide) (by decide) _⟩
  have hcc : OneField (countryText e.country) := by
    rw [hcountry]
    decide
  have hflag : OneField (flagText e.sequestrated) := by cases e.sequestrated <;> decide
  have hverdict : OneField e.verdict.slug := by cases e.verdict <;> decide
  simp only [Entry.fields, tail_cons, forall_mem_cons]
  exact ⟨hrisk.1, hsource, oneField_decimal _, hpoints, oneField_decimal _, oneField_decimal _,
    oneField_decimal _, hcc, hflag, hverdict, oneField_decimal _, forall_mem_nil _⟩

theorem readU64_decimal (x : UInt64) : readU64 (decimal x.toNat) = x := by
  have hfits : x.toNat ≤ u64Max := Nat.le_of_lt_succ x.toNat_lt
  rw [readU64, parseUnsigned_decimal hfits, Option.getD_some, UInt64.ofNat_toNat]

theorem readPoints_decimalInt (x : Int32) : readPoints (decimalInt x.toInt) = x := by
  have hlow := x.le_toInt
  have hhigh := x.toInt_lt
  rw [readPoints, parseSigned_decimalInt (by omega) (by omega)]
  exact Int32.ofInt_toInt x

/-- The fields of a row are read back, the name after another normalisation. -/
theorem readRow_fields (h : Filed k e) (now : UInt64) :
    readRow now e.fields = if normalizeHost e.host = [] then none
      else some { e with host := normalizeHost e.host } := by
  have hflag : decide (flagText e.sequestrated = ['1']) = e.sequestrated := by
    cases e.sequestrated <;> decide
  have hcountry : readCountry (countryText e.country) = e.country := by
    rw [h.1.2.2.2]
    decide
  simp only [Entry.fields, readRow, h.2.2, Source.fromSlug_slug,
    readU64_decimal, readPoints_decimalInt, hcountry, hflag, head?_cons, tail_cons,
    Option.map_some, Option.getD_some, Verdict.fromSlug_slug]
  rfl

theorem oneLine_row (h : Filed k e) (hline : '\n' ∉ e.host) : OneLine (tabbed e.fields) := by
  have hfinal : OneLine (decimal e.seqAt.toNat) :=
    ⟨notMem_decimal (by decide) _, fun hlast =>
      notMem_decimal (c := '\r') (by decide) _ (mem_of_getLast? hlast)⟩
  refine oneLine_tabbed e.fields.dropLast _ (fun f hf => ?_) (decimal_ne_nil _) hfinal
  rcases mem_cons.mp (dropLast_subset _ hf) with rfl | hf
  · exact hline
  · exact (oneField_tail h f hf).1

/-- The row that is read.  A name that looks like a comment, or is nothing once normalised, has
none. -/
def Entry.reread (e : Entry) : Option Entry :=
  if e.host.head? = some '#' ∨ normalizeHost e.host = [] then none
  else some { e with host := normalizeHost e.host }

/-- A row with one line and one field for the name. -/
theorem rowOf_row (h : Filed k e) (htab : '\t' ∉ e.host) (now : UInt64) :
    rowOf (readRow now) (tabbed e.fields) = e.reread := by
  have hhost : e.host ≠ [] := h.1.1 ▸ h.1.2.1
  have hhead : (tabbed e.fields).head? = e.host.head? := head?_tabbed hhost _
  have htrim : trim (tabbed e.fields) ≠ [] := by
    -- the last field is a number
    obtain ⟨c, hc⟩ := exists_mem_of_ne_nil _ (decimal_ne_nil e.seqAt.toNat)
    have hmem : decimal e.seqAt.toNat ∈ e.fields := by simp [Entry.fields]
    exact trim_ne_nil (mem_tabbed hmem hc) (isWhitespace_of_mem_decimal hc)
  have hsplit : (tabbed e.fields).splitOn '\t' = e.fields := by
    refine splitOn_intercalate _ (fun f hf => ?_) (cons_ne_nil _ _)
    rcases mem_cons.mp hf with rfl | hf
    · exact htab
    · exact (oneField_tail h f hf).2
  rw [rowOf, hhead, hsplit, readRow_fields h, Entry.reread]
  by_cases hmark : e.host.head? = some '#'
  · simp [hmark]
  · simp [hmark, htrim]

/-! ### The whole ledger -/

section Whole

variable {s : Store} (now : UInt64)

/-- The rows that are read, before the amnesty. -/
def rowsRead (s : Store) : List Entry :=
  (readLedger readToken (readRow now) {} (serializeStore s)).1

theorem mem_sortedRows {e : Entry} : e ∈ s.sortedRows ↔ ∃ k, s.byHost.get? k = some e := by
  rw [Store.sortedRows, mem_insertionSort, mem_map]
  constructor
  · rintro ⟨⟨k, e'⟩, hrow, rfl⟩
    exact ⟨k, Dict.mem_rows_iff.mp hrow⟩
  · rintro ⟨k, hget⟩
    exact ⟨(k, e), Dict.mem_rows_iff.mpr hget, rfl⟩

theorem tokens_tokens (s : Store) : Tokens s.tokens := by
  simp only [Tokens, Store.tokens, forall_mem_cons]
  exact ⟨token_decimal (by decide +kernel) _, token_decimal (by decide +kernel) _,
    token_decimal (by decide +kernel) _, token_decimal (by decide +kernel) _, forall_mem_nil _⟩

theorem oneLine_ledgerTitle : OneLine ('#' :: ledgerTitle) := by decide +kernel

/-- Names on one line and in one field give their own rows, or none. -/
theorem rowsRead_eq (hfiled : s.byHost.All Filed) (hnames : ∀ e ∈ s.sortedRows, OneField e.host) :
    rowsRead now s = s.sortedRows.filterMap Entry.reread := by
  have hrow : ∀ e ∈ s.sortedRows, ∃ k, Filed k e := fun e he =>
    (mem_sortedRows.mp he).imp fun k hget => hfiled k e hget
  have hlines : ∀ r ∈ s.sortedRows.map Entry.fields, OneLine (tabbed r) := by
    intro r hr
    obtain ⟨e, he, rfl⟩ := mem_map.mp hr
    obtain ⟨k, hk⟩ := hrow e he
    exact oneLine_row hk (hnames e he).1
  rw [rowsRead, serializeStore,
    fst_readLedger_printLedger oneLine_ledgerTitle (tokens_tokens s) hlines, filterMap_map]
  refine filterMap_congr fun e he => ?_
  obtain ⟨k, hk⟩ := hrow e he
  exact rowOf_row hk (hnames e he).2 now

theorem dropPrefix?_append (key v : Str) : (key ++ v).dropPrefix? key = some v :=
  dropPrefix?_eq_some_iff.mpr ⟨key, rfl, by simp⟩

theorem foldl_tokens (s : Store) : s.tokens.foldl readToken {} =
    ⟨s.recordedTotal, s.recoveredTotal, s.teethTotal, detectionEpoch⟩ := by
  -- no key begins with an earlier one
  have hother : ∀ v, (recoveredKey ++ v).dropPrefix? recordedKey = none ∧
      (teethKey ++ v).dropPrefix? recordedKey = none ∧
      (teethKey ++ v).dropPrefix? recoveredKey = none ∧
      (epochKey ++ v).dropPrefix? recordedKey = none ∧
      (epochKey ++ v).dropPrefix? recoveredKey = none ∧
      (epochKey ++ v).dropPrefix? teethKey = none := fun _ => ⟨rfl, rfl, rfl, rfl, rfl, rfl⟩
  have hfits : parseUnsigned 10 u32Max (decimal detectionEpoch) = some detectionEpoch :=
    parseUnsigned_decimal (by decide)
  simp only [Store.tokens, foldl_cons, foldl_nil, readToken, dropPrefix?_append, hother,
    readU64_decimal, hfits, Option.getD_some]

section Clean

variable (hfiled : s.byHost.All Filed) (hclean : ∀ e ∈ s.sortedRows, Clean e.host)

include hfiled hclean

/-- The totals of a ledger without comments among its rows. -/
theorem totals_read :
    (readLedger readToken (readRow now) {} (serializeStore s)).2 =
      ⟨s.recordedTotal, s.recoveredTotal, s.teethTotal, detectionEpoch⟩ := by
  have hrows : ∀ r ∈ s.sortedRows.map Entry.fields,
      OneLine (tabbed r) ∧ (tabbed r).head? ≠ some '#' := by
    intro r hr
    obtain ⟨e, he, rfl⟩ := mem_map.mp hr
    obtain ⟨k, hget⟩ := mem_sortedRows.mp he
    have hk := hfiled k e hget
    refine ⟨oneLine_row hk (hclean e he).1, ?_⟩
    have hhead : (tabbed e.fields).head? = e.host.head? := head?_tabbed (hk.1.1 ▸ hk.1.2.1) _
    rw [hhead]
    exact (hclean e he).2.2.1
  rw [serializeStore, snd_readLedger_printLedger oneLine_ledgerTitle (by decide +kernel)
    (tokens_tokens s) hrows, foldl_tokens]

/-- Clean names come back, and with them all there is. -/
theorem parseBody_of_clean (law : Law) :
    parseBody law now (serializeStore s) =
      (s.sortedRows, ⟨s.recordedTotal, s.recoveredTotal, s.teethTotal, detectionEpoch⟩) := by
  have hnames : ∀ e ∈ s.sortedRows, OneField e.host :=
    fun e he => ⟨(hclean e he).1, (hclean e he).2.1⟩
  have hsame : ∀ e ∈ s.sortedRows, e.reread = some e := by
    intro e he
    obtain ⟨k, hget⟩ := mem_sortedRows.mp he
    obtain ⟨⟨hk, hne, -⟩, -⟩ := hfiled k e hget
    obtain ⟨-, -, hmark, hfix⟩ := hclean e he
    rw [Entry.reread, hfix, if_neg (not_or.mpr ⟨hmark, hk ▸ hne⟩)]
  have hrows : rowsRead now s = s.sortedRows := by
    rw [rowsRead_eq now hfiled hnames, filterMap_congr hsame, filterMap_some]
  have htotals := totals_read now hfiled hclean
  rw [rowsRead] at hrows
  simp only [parseBody, htotals, hrows]
  rw [if_neg (lt_irrefl _)]

theorem roundTrips_of_clean (law : Law) : RoundTrips law now s := by
  rw [RoundTrips, parseBody_of_clean now hfiled hclean law]
  exact ⟨perm_insertionSort _ _, rfl, rfl, rfl⟩

end Clean

/-! Conversely, nothing that is not clean comes back. -/

theorem host_amnesty (law : Law) (e : Entry) : (amnesty law e).host = e.host := by
  unfold amnesty
  split
  · rfl
  · split <;> rfl

theorem map_host_parseBody (law : Law) (s : Store) :
    (parseBody law now (serializeStore s)).1.map Entry.host = (rowsRead now s).map Entry.host := by
  simp only [parseBody]
  split
  · rw [map_map]
    exact map_congr_left fun e _ => host_amnesty law e
  · rfl

/-- A name that is read stands in one field of one line. -/
theorem oneField_of_mem_rowsRead {e : Entry} (h : e ∈ rowsRead now s) : OneField e.host := by
  rw [rowsRead, readLedger_eq, mem_filterMap] at h
  obtain ⟨line, hline, hrow⟩ := h
  obtain ⟨f, hf, hhost⟩ : ∃ f ∈ line.splitOn '\t', e.host = normalizeHost f := by
    rw [rowOf] at hrow
    split at hrow
    · cases hrow
    revert hrow
    generalize line.splitOn '\t' = fields
    fun_cases readRow with
    | case3 host =>
      rintro ⟨⟩
      exact ⟨host, mem_cons_self, rfl⟩
    | _ => exact fun h => by cases h
  rw [hhost]
  constructor
  · intro hmem
    exact notMem_of_mem_lines hline
      (mem_of_mem_splitOn hf (mem_of_mem_normalizeHost hmem (by decide)))
  · intro hmem
    exact notMem_of_mem_splitOn hf (mem_of_mem_normalizeHost hmem (by decide))

theorem eq_of_sum_eq {α : Type} {l : List α} {f g : α → ℕ} (hle : ∀ x ∈ l, f x ≤ g x)
    (hsum : (l.map f).sum = (l.map g).sum) : ∀ x ∈ l, f x = g x := by
  induction l with
  | nil => intro x hx; cases hx
  | cons a l ih =>
    have hle' : ∀ x ∈ l, f x ≤ g x := fun x hx => hle x (mem_cons_of_mem _ hx)
    have ha := hle a mem_cons_self
    have hl := sum_le_sum hle'
    simp only [map_cons, sum_cons] at hsum
    intro x hx
    rcases mem_cons.mp hx with rfl | hx
    · omega
    · exact ih hle' (by omega) x hx

/-- Names that come back in whatever order are clean, one by one. -/
theorem clean_of_perm (hfiled : s.byHost.All Filed) {law : Law}
    (hperm : (parseBody law now (serializeStore s)).1.Perm (s.byHost.rows.map Prod.snd)) :
    ∀ e ∈ s.sortedRows, Clean e.host := by
  have hsorted : (s.byHost.rows.map Prod.snd).Perm s.sortedRows := (perm_insertionSort _ _).symm
  have hhosts : ((rowsRead now s).map Entry.host).Perm (s.sortedRows.map Entry.host) := by
    rw [← map_host_parseBody now law s]
    exact (hperm.trans hsorted).map _
  have hnames : ∀ e ∈ s.sortedRows, OneField e.host := by
    intro e he
    obtain ⟨e', he', hhost⟩ := mem_map.mp (hhosts.mem_iff.mpr (mem_map.mpr ⟨e, he, rfl⟩))
    exact hhost ▸ oneField_of_mem_rowsRead now he'
  rw [rowsRead_eq now hfiled hnames] at hhosts
  -- no row is dropped
  have hkept : ∀ e ∈ s.sortedRows, ¬ (e.host.head? = some '#' ∨ normalizeHost e.host = []) := by
    have hlen := hhosts.length_eq
    rw [length_map, length_map, filterMap_length_eq_length] at hlen
    intro e he hdrop
    have := hlen e he
    rw [Entry.reread, if_pos hdrop] at this
    cases this
  -- so the names that come back are the names normalised once more
  have hmap : s.sortedRows.filterMap Entry.reread =
      s.sortedRows.map fun e => { e with host := normalizeHost e.host } := by
    rw [← filterMap_eq_map]
    exact filterMap_congr fun e he => if_neg (hkept e he)
  rw [hmap, map_map] at hhosts
  have hlength : ∀ e ∈ s.sortedRows, (normalizeHost e.host).length = e.host.length := by
    have hsum := (hhosts.map length).sum_eq
    rw [map_map, map_map] at hsum
    exact eq_of_sum_eq (fun e _ => length_normalizeHost_le e.host) hsum
  intro e he
  obtain ⟨k, hget⟩ := mem_sortedRows.mp he
  obtain ⟨⟨hk, -, ⟨q, hq⟩, -⟩, -⟩ := hfiled k e hget
  have hfix : normalizeHost e.host = e.host := by
    have hl := hlength e he
    rw [hk, hq] at hl ⊢
    exact normalizeHost_of_length_eq hl
  exact ⟨(hnames e he).1, (hnames e he).2, fun hmark => hkept e he (.inl hmark), hfix⟩

end Whole

/-! ### Runs -/

theorem Rooted.of_fixed {e' : Entry} (h : Rooted k e) (hfixed : e'.fixed = e.fixed) :
    Rooted k e' := by
  simp only [Entry.fixed, Prod.mk.injEq] at hfixed
  obtain ⟨hhost, -, -, hcountry⟩ := hfixed
  rw [Rooted, hhost, hcountry]
  exact h

theorem Filed.of_fixed {e' : Entry} (h : Filed k e) (hfixed : e'.fixed = e.fixed) : Filed k e' := by
  have hrisk : e'.risk = e.risk := congrArg (fun x => x.2.1) hfixed
  exact ⟨h.1.of_fixed hfixed, hrisk ▸ h.2⟩

theorem rooted_fresh {host : Str} (hne : normalizeHost host ≠ []) (risk : Risk) (source : Source)
    (start : Int32) (now : UInt64) :
    Rooted (normalizeHost host) (.fresh (normalizeHost host) risk source start now) :=
  ⟨rfl, hne, ⟨host, rfl⟩, rfl⟩

theorem filed_tick {g : Engine} (h : g.store.byHost.All Filed) (w : World) :
    (g.tick w).store.byHost.All Filed := by
  simp only [Engine.tick]
  split
  · exact Store.All.settleRecoveryAt h fun k e he => he.of_fixed (fixed_settle _ _ _)
  · exact h

theorem filed_apply {g : Engine} (h : g.store.byHost.All Filed) (a : Act) :
    (g.apply a).store.byHost.All Filed := by
  cases a with
  | feed w qname qtype event answerLen rcode =>
    simp only [Engine.apply, Engine.feed]
    split
    · exact h
    refine filed_tick ?_ w
    split
    · next score hscore =>
      exact Store.All.recordScoredAt h
        (fun hne => ⟨rooted_fresh hne _ _ _ _, wired_of_mem (risk_of_scoreHost hscore)⟩)
        fun e he => he.of_fixed (fixed_witness _ _ _ _)
    · exact h
  | setVerdict w host code =>
    simp only [Engine.apply, Engine.setVerdict]
    split
    · exact h
    have hset : ((g.store.setVerdict (g.law w) host (.fromCode code) w.now)).byHost.All Filed :=
      Store.All.setVerdict h
        (fun hne => ⟨rooted_fresh hne _ _ _ _, wired_of_mem (r := .tracker) (by decide)⟩)
        fun e he => he.of_fixed (fixed_pin _ _ _ _)
    split
    · exact hset
    rw [Engine.learn]
    split
    · exact hset
    · exact hset
  | teethGate host =>
    simp only [Engine.apply, Engine.teethGate, Store.teethGate]
    split
    · split
      · split
        · exact h
        · exact h
      · exact h
    · exact h

theorem filed_run (g : Engine) (acts : List Act) :
    (Engine.run { g with store := {} } acts).store.byHost.All Filed :=
  Machine.foldl_invariant (I := fun g : Engine => g.store.byHost.All Filed)
    (fun _ a h => filed_apply h a) acts Dict.all_empty

/-- **After any run from an empty store** the ledger is read back as it was written if and only
if all names in it are clean. -/
theorem ledger_roundTrips_iff (g : Engine) (acts : List Act) (law : Law) (now : UInt64) :
    let s := (Engine.run { g with store := {} } acts).store
    RoundTrips law now s ↔ ∀ host ∈ s.byHost.keys, Clean host := by
  intro s
  have hfiled : s.byHost.All Filed := filed_run g acts
  have hkeys : (∀ host ∈ s.byHost.keys, Clean host) ↔ ∀ e ∈ s.sortedRows, Clean e.host := by
    constructor
    · intro h e he
      obtain ⟨k, hget⟩ := mem_sortedRows.mp he
      rw [(hfiled k e hget).1.1]
      exact h k (mem_map.mpr ⟨(k, e), Dict.mem_rows_iff.mpr hget, rfl⟩)
    · intro h host hhost
      obtain ⟨⟨k, e⟩, hrow, rfl⟩ := mem_map.mp hhost
      have hget := Dict.mem_rows_iff.mp hrow
      exact (hfiled k e hget).1.1 ▸ h e (mem_sortedRows.mpr ⟨k, hget⟩)
  rw [hkeys]
  exact ⟨fun h => clean_of_perm now hfiled h.1, fun h => roundTrips_of_clean now hfiled h law⟩

/-- The wire form of `a.com⏎bank.example…`, with the fields of a distrusted row in it. -/
def pinningWire : Bytes :=
  1 :: (utf8 "a".toList ++ 8 :: (utf8 "com\nbank".toList ++
    51 :: (utf8 "example\ttracker\tsuffix\t1\t0\t1\t1\t1\t-\t1\tdistrusted\t0\nz".toList ++
      [0])))

def pinningName : Str :=
  "a.com\nbank.example\ttracker\tsuffix\t1\t0\t1\t1\t1\t-\t1\tdistrusted\t0\nz".toList

/-- The world of the examples: an ordinary second, nothing cloaked, nothing changed. -/
def plainWorld (now : UInt64) : World :=
  ⟨now, fun _ => false, ⟨fun _ => false, fun _ => false⟩, none⟩

/-- One look-up of a name that is denied puts a row of another host into the ledger, with a
pin that nobody set. -/
theorem looked_up_name_distrusts_another :
    Dns.readName pinningWire 0 = some (pinningName, pinningWire.length) ∧
    let s := (Engine.run {} [.feed (plainWorld 100) pinningName 1 .blocked 0 0]).store
    s.byHost.keys = [pinningName] ∧
      ((parseBody (Engine.law {} (plainWorld 100)) 100 (serializeStore s)).1.map
        fun e => (e.host, e.verdict, e.sequestrated)) =
          [("bank.example".toList, .distrusted, true), ("z".toList, .neutral, false)] := by
  decide +kernel

end Underground
end TortaCore
