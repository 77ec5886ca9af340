import TortaCore.Text.JsonText

/-!
# Reading the list of upstreams

The upstreams arrive as a JSON text that is not parsed but searched (`resolver/mod.rs`,
`resolver/routing.rs`): the objects are cut out by counting braces outside of strings, a
member is found by the first place where its key stands in quotes, its value is read byte by
byte, and the relays are what stands between the next pair of brackets, cut at commas.  The
cutting is exact.  The search is not: a value that is the key of another member, or ends in
it behind a quote, hides that member when it comes first.

## Main definitions

* `stringField`, `parseRelayStampsField`, `parseUpstreamObj`, `parseUpstreams`: the reader.
* `Written`, `Document`, `printUpstreams`: a list of upstreams as it is written, with the
  members of each object in any order.

## Main results

* `objectSlices_printUpstreams`: the objects are cut out as they were written.
* `stringField_objectText`, `parseRelayStampsField_objectText`: what the search takes for the
  value of a member.
* `parseUpstreams_printUpstreams_iff`: which lists are read back.
-/

namespace TortaCore
namespace Resolver
namespace Upstreams

open Text Json List

/-! ### The reader -/

structure UpstreamSpec where
  id : Str
  transport : Str
  url : Str
  stamp : Str
  relays : List Str
  deriving DecidableEq

/-- `find_key`: the text behind the first place where the key stands in quotes. -/
def findKey (json key : Str) : Option Str := afterKey key json

def skipBlanks (bs : Bytes) : Bytes :=
  bs.dropWhile fun b => b == 0x20 || b == 0x09 || b == 0x0A || b == 0x0D

/-- The string behind a colon. -/
def valueAt (rest : Str) : Option Str :=
  match skipBlanks (utf8 rest) with
  | [] => none
  | c :: cs =>
    if c ≠ 0x3A then none
    else
      match skipBlanks cs with
      | [] => none
      | c :: cs => if c ≠ 0x22 then none else readString [] false cs

def stringField (obj key : Str) : Option Str := (findKey obj key).bind valueAt

def splitRelayLabel (s : Str) : Option Str × Str :=
  match splitOnce '|' s with
  | none => (none, s)
  | some (name, stamp) => if name.isEmpty then (none, stamp) else (some name, stamp)

/-- `trim_matches` of one character. -/
def trimMatches (c : Char) (s : Str) : Str := trimEndMatches c (s.dropWhile (· == c))

def sdnsScheme : Str := "sdns://".toList

/-- One piece between two commas. -/
def relayOf (piece : Str) : Option Str :=
  let s := trimMatches '"' (trim piece)
  if sdnsScheme.isPrefixOf (splitRelayLabel s).2 then some s else none

/-- The relays between the first bracket and the next one that closes. -/
def relaysAt (rest : Str) : List Str :=
  match rest.dropWhile (· != '[') with
  | [] => []
  | _ :: inside =>
    if inside.contains ']' then
      ((inside.takeWhile (· != ']')).splitOn ',').filterMap relayOf
    else []

def relaysKey : Str := "relays".toList

def parseRelayStampsField (obj : Str) : List Str :=
  match findKey obj relaysKey with
  | none => []
  | some rest => relaysAt rest

def parseUpstreamObj (obj : Str) : Option UpstreamSpec :=
  let id := (stringField obj "id".toList).getD "doh".toList
  let transport := (stringField obj "transport".toList).getD "doh".toList
  let url := (stringField obj "url".toList).getD []
  let stamp := (stringField obj "stamp".toList).getD []
  let relays := parseRelayStampsField obj
  if url.isEmpty && stamp.isEmpty then none else some ⟨id, transport, url, stamp, relays⟩

/-- The text in front of what a scan gives. -/
def prepend (s : Str) (p : Str × Str) : Str × Str := (s ++ p.1, p.2)

/-- The inner loop: the text up to the brace that closes the object, and the text behind it.
Without one the object is all the text there is. -/
def spanObject (depth : ℕ) (inStr esc : Bool) : Str → Str × Str
  | [] => ([], [])
  | c :: cs =>
    if inStr then
      if esc then prepend [c] (spanObject depth true false cs)
      else if c = '\\' then prepend [c] (spanObject depth true true cs)
      else if c = '"' then prepend [c] (spanObject depth false false cs)
      else prepend [c] (spanObject depth true false cs)
    else if c = '"' then prepend [c] (spanObject depth true false cs)
    else if c = '{' then prepend [c] (spanObject (depth + 1) false false cs)
    else if c = '}' then
      if depth - 1 = 0 then ([c], cs) else prepend [c] (spanObject (depth - 1) false false cs)
    else prepend [c] (spanObject depth false false cs)

/-- The outer loop, up to the bracket that closes the array.  A turn uses up a character at
least, so that as many turns as there are characters are enough. -/
def slicesFrom : ℕ → Str → List Str
  | 0, _ => []
  | _ + 1, [] => []
  | n + 1, c :: cs =>
    if c = ']' then []
    else if c = '{' then
      let (obj, rest) := spanObject 0 false false (c :: cs)
      obj :: slicesFrom n rest
    else slicesFrom n cs

/-- The objects of the array with a key: `object_slices`, and the same loop in
`parse_upstreams`. -/
def objectSlices (json key : Str) : List Str :=
  match findKey json key with
  | none => []
  | some rest => slicesFrom rest.length rest

def upstreamsKey : Str := "upstreams".toList

def parseUpstreams (json : Str) : List UpstreamSpec :=
  (objectSlices json upstreamsKey).filterMap parseUpstreamObj

/-! ### The writer -/

inductive TextField where
  | id
  | transport
  | url
  | stamp
  deriving DecidableEq

def TextField.name : TextField → Str
  | .id => "id".toList
  | .transport => "transport".toList
  | .url => "url".toList
  | .stamp => "stamp".toList

inductive Member where
  | text (field : TextField) (value : Str)
  | relays (stamps : List Str)
  deriving DecidableEq

namespace Member

def key : Member → Str
  | .text field _ => field.name
  | .relays _ => relaysKey

/-- The strings of the value. -/
def values : Member → List Str
  | .text _ value => [value]
  | .relays stamps => stamps

end Member

/-- An upstream has a URL or a stamp. -/
inductive Payload where
  | url (value : Str)
  | stamp (value : Str)

namespace Payload

def field : Payload → TextField
  | .url _ => .url
  | .stamp _ => .stamp

def value : Payload → Str
  | .url value => value
  | .stamp value => value

end Payload

/-- An upstream to be written; a list of relays may be left out. -/
structure Written where
  id : Str
  transport : Str
  payload : Payload
  relays : Option (List Str)

namespace Written

def members (w : Written) : List Member :=
  [.text .id w.id, .text .transport w.transport, .text w.payload.field w.payload.value] ++
    (w.relays.map Member.relays).toList

def spec (w : Written) : UpstreamSpec where
  id := w.id
  transport := w.transport
  url := match w.payload with
    | .url value => value
    | .stamp _ => []
  stamp := match w.payload with
    | .url _ => []
    | .stamp value => value
  relays := w.relays.getD []

end Written

/-- An upstream with its members in some order. -/
structure Document extends Written where
  order : List Member
  perm : order.Perm toWritten.members

section Print

variable (long : Char → Bool)

def Member.body : Member → Str
  | .text _ value => quoted long value
  | .relays stamps => '[' :: ([','].intercalate (stamps.map (quoted long)) ++ [']'])

def Member.print (m : Member) : Str := quoted long m.key ++ ':' :: m.body long

def objectText (ms : List Member) : Str :=
  '{' :: ([','].intercalate (ms.map (Member.print long)) ++ ['}'])

def printUpstreams (ds : List Document) : Str :=
  '{' :: (quoted long upstreamsKey ++ ':' :: '[' ::
    ([','].intercalate (ds.map fun d => objectText long d.order) ++ [']', '}']))

end Print

/-! ### What survives -/

/-- A value that comes before the member of the key shadows it. -/
def Shadowed (key : Str) : List Member → Prop
  | [] => False
  | m :: ms => m.key ≠ key ∧ ((∃ v ∈ m.values, Shadows key v) ∨ Shadowed key ms)

instance decidableShadowed (key : Str) : ∀ ms : List Member, Decidable (Shadowed key ms)
  | [] => inferInstanceAs (Decidable False)
  | m :: ms =>
    have := decidableShadowed key ms
    inferInstanceAs (Decidable (m.key ≠ key ∧ ((∃ v ∈ m.values, Shadows key v) ∨ Shadowed key ms)))

/-- The members behind the first value that shadows the key, if one comes before its member. -/
def behindShadow (key : Str) : List Member → Option (List Member)
  | [] => none
  | m :: ms =>
    if m.key = key then none
    else if ∃ v ∈ m.values, Shadows key v then some ms
    else behindShadow key ms

/-- A relay that is written as it is, without a comma or a closing bracket, and is a stamp with
or without a label. -/
def PlainRelay (r : Str) : Prop :=
  (∀ c ∈ r, Bare c ∧ c ≠ ',' ∧ c ≠ ']') ∧ sdnsScheme <+: (splitRelayLabel r).2

instance (r : Str) : Decidable (PlainRelay r) := inferInstanceAs (Decidable (_ ∧ _))

/-- The text behind a member. -/
def tailText (long : Char → Bool) : List Member → Str
  | [] => ['}']
  | m :: ms => ',' :: (m.print long ++ tailText long ms)

/-- Behind a shadow the relays are found in their member all the same, unless a text comes before
it that has an opening bracket: then they are cut out of what is written from there on. -/
def RelaysBehind (long : Char → Bool) (rs : List Str) : List Member → Prop
  | [] => rs = []
  | .relays stamps :: _ => ∀ r ∈ stamps, PlainRelay r
  | .text _ v :: ms =>
    if '[' ∈ v then relaysAt (quoted long v ++ tailText long ms) = rs
    else RelaysBehind long rs ms

/-- The values survive: a shadowed id or transport is the default, the others are printable
ASCII, the URL or the stamp is there and is not shadowed, and the relays are plain, or are found
behind a shadow. -/
structure Document.ReadsBack (long : Char → Bool) (d : Document) : Prop where
  id : if Shadowed TextField.id.name d.order then d.id = "doh".toList else Printable d.id
  transport : if Shadowed TextField.transport.name d.order then d.transport = "doh".toList
    else Printable d.transport
  payload : ¬ Shadowed d.payload.field.name d.order ∧ Printable d.payload.value ∧
    d.payload.value ≠ []
  relays : match behindShadow relaysKey d.order with
    | none => ∀ r ∈ d.relays.getD [], PlainRelay r
    | some later => RelaysBehind long (d.relays.getD []) later

/-! ### Keys -/

/-- A word of letters. -/
def IsWord (key : Str) : Prop := key.all Char.isAlpha = true

theorem isWord_name (f : TextField) : IsWord f.name := by
  cases f <;> rfl

theorem isWord_relaysKey : IsWord relaysKey := rfl

theorem isWord_upstreamsKey : IsWord upstreamsKey := rfl

theorem IsWord.isAlpha {key : Str} (hkey : IsWord key) : ∀ c ∈ key, c.isAlpha = true :=
  all_eq_true.mp hkey

theorem IsWord.bare {key : Str} (hkey : IsWord key) : ∀ c ∈ key, Bare c := by
  intro c hc
  have halpha := hkey.isAlpha c hc
  refine ⟨?_, ?_, ?_⟩
  · rintro rfl
    exact absurd halpha (by decide)
  · rintro rfl
    exact absurd halpha (by decide)
  · by_contra hlt
    have hnone : ∀ n < 0x20, (Char.ofNat n).isAlpha = false := by decide
    have hno := hnone c.toNat (Nat.lt_of_not_le hlt)
    rw [Char.ofNat_toNat, halpha] at hno
    cases hno

/-! ### Cutting out the objects -/

section Slices

variable (long : Char → Bool)

@[simp] theorem prepend_prepend (s t : Str) (p : Str × Str) :
    prepend s (prepend t p) = prepend (s ++ t) p := by
  rw [prepend, prepend, prepend, append_assoc]

theorem spanObject_inStr {c : Char} (hc : c ≠ '"' ∧ c ≠ '\\') (depth : ℕ) (t : Str) :
    spanObject depth true false (c :: t) = prepend [c] (spanObject depth true false t) := by
  rw [spanObject, if_pos rfl, if_neg Bool.false_ne_true, if_neg hc.2, if_neg hc.1]

theorem spanObject_backslash (depth : ℕ) (c : Char) (t : Str) :
    spanObject depth true false ('\\' :: c :: t) =
      prepend ['\\', c] (spanObject depth true false t) := rfl

theorem spanObject_escapeChar (depth : ℕ) (c : Char) (t : Str) :
    spanObject depth true false (escapeChar long c ++ t) =
      prepend (escapeChar long c) (spanObject depth true false t) := by
  have hplain : ∀ s : Str, (∀ x ∈ s, x ≠ '"' ∧ x ≠ '\\') →
      spanObject depth true false (s ++ t) = prepend s (spanObject depth true false t) := by
    intro s hs
    induction s with
    | nil => rfl
    | cons x s ih =>
      obtain ⟨hx, hs⟩ := List.forall_mem_cons.mp hs
      rw [List.cons_append, spanObject_inStr hx, ih hs, prepend_prepend, List.singleton_append]
  rcases escapeChar_cases c with (rfl | rfl) | hc | hc
  · rfl
  · rfl
  · obtain ⟨hne, hspec⟩ := controlEscape_spec hc (long c)
    obtain ⟨e, es, hes⟩ := List.exists_cons_of_ne_nil hne
    have hclean : ∀ x ∈ es, x ≠ '"' ∧ x ≠ '\\' := by
      intro x hx
      have halnum := (hspec x (hes ▸ mem_cons_of_mem _ hx)).1
      constructor
      · rintro rfl
        exact absurd halnum (by decide)
      · rintro rfl
        exact absurd halnum (by decide)
    rw [escapeChar_of_control hc, hes, cons_append, cons_append, spanObject_backslash,
      hplain es hclean, prepend_prepend]
    rfl
  · rw [escapeChar_of_bare hc]
    exact spanObject_inStr ⟨hc.1, hc.2.1⟩ depth t

theorem spanObject_quoted (depth : ℕ) (s t : Str) :
    spanObject depth false false (quoted long s ++ t) =
      prepend (quoted long s) (spanObject depth false false t) := by
  have hescape : ∀ s : Str, spanObject depth true false (escape long s ++ '"' :: t) =
      prepend (escape long s ++ ['"']) (spanObject depth false false t) := by
    intro s
    induction s with
    | nil => rfl
    | cons c s ih =>
      rw [escape_cons, append_assoc, spanObject_escapeChar, ih, prepend_prepend, append_assoc]
  have hopen : ∀ t : Str, spanObject depth false false ('"' :: t) =
      prepend ['"'] (spanObject depth true false t) := fun _ => rfl
  rw [quoted, cons_append, hopen, append_assoc, singleton_append, hescape,
    prepend_prepend, singleton_append]

/-- Outside of strings only the braces count. -/
theorem spanObject_cons {c : Char} (hc : c ≠ '"' ∧ c ≠ '{' ∧ c ≠ '}') (depth : ℕ) (t : Str) :
    spanObject depth false false (c :: t) = prepend [c] (spanObject depth false false t) := by
  rw [spanObject, if_neg Bool.false_ne_true, if_neg hc.1, if_neg hc.2.1, if_neg hc.2.2]

theorem spanObject_intercalate (depth : ℕ) (ss : List Str) (t : Str) :
    spanObject depth false false ([','].intercalate (ss.map (quoted long)) ++ t) =
      prepend ([','].intercalate (ss.map (quoted long))) (spanObject depth false false t) := by
  induction ss with
  | nil => rfl
  | cons s ss ih =>
    cases ss with
    | nil =>
      rw [map_cons, map_nil, intercalate_singleton]
      exact spanObject_quoted long depth s t
    | cons s' ss =>
      rw [map_cons] at ih ⊢
      rw [map_cons, intercalate_cons_cons, append_assoc, append_assoc,
        spanObject_quoted, singleton_append, spanObject_cons (by decide), ih,
        prepend_prepend, prepend_prepend, append_assoc]

theorem spanObject_print (depth : ℕ) (m : Member) (t : Str) :
    spanObject depth false false (m.print long ++ t) =
      prepend (m.print long) (spanObject depth false false t) := by
  rw [Member.print, append_assoc, spanObject_quoted, cons_append, spanObject_cons (by decide)]
  cases m with
  | text field value =>
    rw [Member.body, spanObject_quoted]
    simp only [prepend_prepend, singleton_append]
  | relays stamps =>
    rw [Member.body, cons_append, spanObject_cons (by decide), append_assoc,
      spanObject_intercalate, singleton_append, spanObject_cons (by decide)]
    simp only [prepend_prepend, singleton_append]

theorem spanObject_tailText (ms : List Member) (t : Str) :
    spanObject 1 false false (tailText long ms ++ t) = (tailText long ms, t) := by
  induction ms with
  | nil => rfl
  | cons m ms ih =>
    rw [tailText, cons_append, spanObject_cons (by decide), append_assoc, spanObject_print, ih]
    rfl

theorem objectText_cons (m : Member) (ms : List Member) :
    objectText long (m :: ms) = '{' :: (m.print long ++ tailText long ms) := by
  rw [objectText]
  congr 1
  induction ms generalizing m with
  | nil => rw [List.map_cons, List.map_nil, List.intercalate_singleton, tailText]
  | cons m' ms ih =>
    rw [List.map_cons, List.map_cons, List.intercalate_cons_cons, tailText, ← ih m',
      List.append_assoc, List.append_assoc, List.map_cons]
    rfl

theorem spanObject_objectText {ms : List Member} (hms : ms ≠ []) (t : Str) :
    spanObject 0 false false (objectText long ms ++ t) = (objectText long ms, t) := by
  cases ms with
  | nil => exact absurd rfl hms
  | cons m ms =>
    have hbody : spanObject 1 false false ((m.print long ++ tailText long ms) ++ t) =
        (m.print long ++ tailText long ms, t) := by
      rw [append_assoc, spanObject_print, spanObject_tailText]
      rfl
    have hopen : ∀ t : Str, spanObject 0 false false ('{' :: t) =
        prepend ['{'] (spanObject 1 false false t) := fun _ => rfl
    rw [objectText_cons, cons_append, hopen, hbody]
    rfl

theorem slicesFrom_object {ms : List Member} (hms : ms ≠ []) (n : ℕ) (t : Str) :
    slicesFrom (n + 1) (objectText long ms ++ t) = objectText long ms :: slicesFrom n t := by
  have hspan := spanObject_objectText long hms t
  obtain ⟨body, hbody⟩ : ∃ body, objectText long ms ++ t = '{' :: body := ⟨_, rfl⟩
  rw [hbody, slicesFrom, if_neg (by decide), if_pos rfl, ← hbody, hspan]

theorem slicesFrom_objects {oss : List (List Member)} (hoss : ∀ ms ∈ oss, ms ≠ []) (t : Str) :
    ∀ n, ([','].intercalate (oss.map (objectText long)) ++ ']' :: t).length ≤ n →
      slicesFrom n ([','].intercalate (oss.map (objectText long)) ++ ']' :: t) =
        oss.map (objectText long) := by
  have hend : ∀ n, slicesFrom n (']' :: t) = [] := by
    intro n
    cases n <;> rfl
  induction oss with
  | nil => exact fun n _ => hend n
  | cons ms oss ih =>
    intro n hn
    obtain ⟨hms, hoss⟩ := List.forall_mem_cons.mp hoss
    cases oss with
    | nil =>
      rw [List.map_cons, List.map_nil, List.intercalate_singleton] at hn ⊢
      obtain ⟨k, rfl⟩ : ∃ k, n = k + 1 := Nat.exists_eq_succ_of_ne_zero (by
        rw [List.length_append, List.length_cons] at hn
        omega)
      rw [slicesFrom_object long hms, hend]
    | cons ms' oss =>
      have hjoin : [','].intercalate ((ms :: ms' :: oss).map (objectText long)) ++ ']' :: t =
          objectText long ms ++ ',' ::
            ([','].intercalate ((ms' :: oss).map (objectText long)) ++ ']' :: t) := by
        rw [List.map_cons, List.map_cons, List.intercalate_cons_cons, List.append_assoc,
          List.append_assoc, List.singleton_append]
      rw [hjoin] at hn ⊢
      rw [List.length_append, List.length_cons] at hn
      -- one turn for the object and one for the comma
      obtain ⟨k, rfl⟩ : ∃ k, n = k + 1 + 1 := by
        have hpos : 0 < (objectText long ms).length := Nat.succ_pos _
        exact ⟨n - 2, by omega⟩
      have hcomma : ∀ u, slicesFrom (k + 1) (',' :: u) = slicesFrom k u := fun _ => rfl
      rw [slicesFrom_object long hms, hcomma, ih hoss k (by
        have hpos : 0 < (objectText long ms).length := Nat.succ_pos _
        omega)]
      rfl

theorem Document.order_ne_nil (d : Document) : d.order ≠ [] := by
  intro h
  have hlen := d.perm.length_eq
  rw [h] at hlen
  simp [Written.members] at hlen

theorem objectSlices_printUpstreams (ds : List Document) :
    objectSlices (printUpstreams long ds) upstreamsKey =
      ds.map fun d => objectText long d.order := by
  have hkey : ∀ c ∈ upstreamsKey, Bare c := isWord_upstreamsKey.bare
  have hfind : findKey (printUpstreams long ds) upstreamsKey = some (':' :: '[' ::
      ([','].intercalate (ds.map fun d => objectText long d.order) ++ [']', '}'])) := by
    rw [findKey, printUpstreams, afterKey_cons_of_ne (by decide),
      afterKey_quoted long hkey (not_prefix_cons (by decide) (by decide) _),
      if_pos (shadows_iff.mpr (.inl rfl))]
  have hmap : (ds.map fun d => objectText long d.order) =
      (ds.map Document.order).map (objectText long) := by
    rw [map_map]
    rfl
  have hskip : ∀ n u, slicesFrom (n + 1 + 1) (':' :: '[' :: u) = slicesFrom n u := fun _ _ => rfl
  rw [objectSlices, hfind]
  dsimp only
  rw [length_cons, length_cons, hskip, hmap]
  refine slicesFrom_objects long ?_ ['}'] _ (Nat.le_refl _)
  intro ms hms
  obtain ⟨d, -, rfl⟩ := mem_map.mp hms
  exact d.order_ne_nil

end Slices

/-! ### The search for a member -/

section Search

variable (long : Char → Bool)

theorem name_eq_iff (g f : TextField) : g.name = f.name ↔ g = f := by
  cases g <;> cases f <;> decide

theorem relaysKey_ne_name (f : TextField) : relaysKey ≠ f.name := by
  cases f <;> decide

variable {key : Str} (hkey : IsWord key)
include hkey

/-- No place of the search is in front of a mark that is not a letter. -/
theorem IsWord.not_prefix {c : Char} (hc : c.isAlpha = false) (hquote : c ≠ '"') (t : Str) :
    ¬ key ++ ['"'] <+: c :: t := by
  refine not_prefix_cons (fun hmem => ?_) hquote t
  rw [hkey.isAlpha c hmem] at hc
  cases hc

omit hkey in
theorem IsWord.shadows_iff_eq {word : Str} (hword : IsWord word) :
    Shadows key word ↔ word = key := by
  rw [shadows_iff]
  refine or_iff_left fun hsuffix => ?_
  have hmem : '"' ∈ word := hsuffix.subset mem_cons_self
  exact absurd (hword.isAlpha _ hmem) (by decide)

/-- The search in a member: it stops behind the key, or goes on in the value. -/
theorem afterKey_print {m : Member} (hm : IsWord m.key) (t : Str) :
    afterKey key (m.print long ++ t) =
      if m.key = key then some (':' :: (m.body long ++ t))
      else afterKey key (m.body long ++ t) := by
  rw [Member.print, append_assoc, cons_append,
    afterKey_quoted long hkey.bare (hkey.not_prefix (by decide) (by decide) _)]
  simp only [hm.shadows_iff_eq]
  split
  · rfl
  · exact afterKey_cons_of_ne (by decide) _

theorem not_prefix_tailText (ms : List Member) : ¬ key ++ ['"'] <+: tailText long ms := by
  cases ms with
  | nil => exact hkey.not_prefix (by decide) (by decide) _
  | cons m ms => exact hkey.not_prefix (by decide) (by decide) _

/-- The search in a list of relays: it stops behind the first one that shadows the key, in front
of a comma or a bracket. -/
theorem afterKey_intercalate (rs : List Str) (t : Str) :
    (∃ c u, (c = ',' ∨ c = ']') ∧ (∃ r ∈ rs, Shadows key r) ∧
      afterKey key ([','].intercalate (rs.map (quoted long)) ++ ']' :: t) = some (c :: u)) ∨
    (¬ (∃ r ∈ rs, Shadows key r) ∧
      afterKey key ([','].intercalate (rs.map (quoted long)) ++ ']' :: t) = afterKey key t) := by
  induction rs with
  | nil => exact .inr ⟨by simp, afterKey_cons_of_ne (by decide) t⟩
  | cons r rs ih =>
    -- the text behind the relay begins with a mark in both cases
    obtain ⟨c, u, hc, htext, hrest⟩ : ∃ c u, (c = ',' ∨ c = ']') ∧
        [','].intercalate ((r :: rs).map (quoted long)) ++ ']' :: t = quoted long r ++ c :: u ∧
        afterKey key (c :: u) =
          afterKey key ([','].intercalate (rs.map (quoted long)) ++ ']' :: t) := by
      cases rs with
      | nil => exact ⟨']', t, .inr rfl, by simp, rfl⟩
      | cons r' rs =>
        refine ⟨',', _, .inl rfl, ?_, afterKey_cons_of_ne (by decide) _⟩
        rw [List.map_cons, List.map_cons, List.intercalate_cons_cons, List.append_assoc,
          List.append_assoc, List.singleton_append]
    have hmark : c.isAlpha = false ∧ c ≠ '"' := by
      rcases hc with rfl | rfl <;> decide
    rw [htext, afterKey_quoted long hkey.bare (hkey.not_prefix hmark.1 hmark.2 u), hrest]
    by_cases hr : Shadows key r
    · exact .inl ⟨c, u, hc, ⟨r, List.mem_cons_self, hr⟩, if_pos hr⟩
    · rw [if_neg hr]
      have hiff : (∃ x ∈ r :: rs, Shadows key x) ↔ ∃ x ∈ rs, Shadows key x := by
        simp [hr]
      rw [hiff]
      exact ih

end Search

/-! ### The text members -/

section Fields

variable (long : Char → Bool)

theorem isWord_key (m : Member) : IsWord m.key := by
  cases m with
  | text f v => exact isWord_name f
  | relays rs => exact isWord_relaysKey

/-- What the search takes for the value of a member. -/
def taken (f : TextField) : List Member → Option Str
  | [] => none
  | .text g v :: ms =>
    if g = f then some (readBack long v)
    else if Shadows f.name v then none
    else taken f ms
  | .relays rs :: ms => if ∃ r ∈ rs, Shadows f.name r then none else taken f ms

theorem valueAt_mark {c : Char} (hc : c = ',' ∨ c = ']' ∨ c = '}') (t : Str) :
    valueAt (c :: t) = none := by
  rcases hc with rfl | rfl | rfl <;> rfl

theorem valueAt_colon (v t : Str) :
    valueAt (':' :: (quoted long v ++ t)) = some (readBack long v) := by
  have hbytes : utf8 (':' :: (quoted long v ++ t)) =
      0x3A :: 0x22 :: utf8 (escape long v ++ '"' :: t) := by
    rw [quoted, cons_append, append_assoc]
    rfl
  rw [valueAt, hbytes]
  exact readString_escape long v t []

theorem valueAt_tailText (ms : List Member) : valueAt (tailText long ms) = none := by
  cases ms with
  | nil => exact valueAt_mark (.inr (.inr rfl)) _
  | cons m ms => exact valueAt_mark (.inl rfl) _

theorem bind_valueAt_tailText (f : TextField) (ms : List Member) :
    (afterKey f.name (tailText long ms)).bind valueAt = taken long f ms := by
  have hkey := isWord_name f
  induction ms with
  | nil =>
    rfl
  | cons m ms ih =>
    rw [tailText, afterKey_cons_of_ne (by decide), afterKey_print long hkey (isWord_key m)]
    cases m with
    | text g v =>
      have hname : (Member.text g v).key = f.name ↔ g = f := name_eq_iff g f
      simp only [hname, taken, Member.body]
      split
      · exact valueAt_colon long v _
      · rw [afterKey_quoted long hkey.bare (not_prefix_tailText long hkey ms)]
        split
        · exact valueAt_tailText long ms
        · exact ih
    | relays rs =>
      have hname : (Member.relays rs).key ≠ f.name := relaysKey_ne_name f
      rw [if_neg hname, taken, Member.body, cons_append, afterKey_cons_of_ne (by decide),
        append_assoc, singleton_append]
      rcases afterKey_intercalate long hkey rs (tailText long ms) with
        ⟨c, u, hc, hshadow, hsome⟩ | ⟨hshadow, hnext⟩
      · rw [hsome, if_pos hshadow]
        exact valueAt_mark (hc.imp_right .inl) u
      · rw [hnext, if_neg hshadow, ih]

variable {ms : List Member}

theorem stringField_objectText (hms : ms ≠ []) (f : TextField) :
    stringField (objectText long ms) f.name = taken long f ms := by
  obtain ⟨m, ms, rfl⟩ := exists_cons_of_ne_nil hms
  rw [← bind_valueAt_tailText, stringField, findKey, objectText_cons, tailText,
    afterKey_cons_of_ne (by decide), afterKey_cons_of_ne (by decide)]

theorem taken_eq_none {f : TextField} (h : ∀ m ∈ ms, m.key ≠ f.name) : taken long f ms = none := by
  induction ms with
  | nil => rfl
  | cons m ms ih =>
    obtain ⟨hm, hms⟩ := forall_mem_cons.mp h
    cases m with
    | text g v =>
      have hg : g ≠ f := fun hg => hm (by rw [hg]; rfl)
      rw [taken, if_neg hg, ih hms, ite_self]
    | relays rs => rw [taken, ih hms, ite_self]

/-- The value is taken from the member unless it is shadowed. -/
theorem taken_eq {f : TextField} {v : Str} (hmem : .text f v ∈ ms)
    (huniq : ∀ m ∈ ms, m.key = f.name → m = .text f v) :
    taken long f ms = if Shadowed f.name ms then none else some (readBack long v) := by
  induction ms with
  | nil => cases hmem
  | cons m ms ih =>
    obtain ⟨hm, hms⟩ := forall_mem_cons.mp huniq
    by_cases hkey : m.key = f.name
    · rw [hm hkey, taken, if_pos rfl, if_neg fun h => h.1 rfl]
    have hmem' : .text f v ∈ ms := by
      rcases mem_cons.mp hmem with h | h
      · exact absurd (by rw [← h]; rfl) hkey
      · exact h
    have hshadowed : Shadowed f.name (m :: ms) ↔
        (∃ x ∈ m.values, Shadows f.name x) ∨ Shadowed f.name ms := and_iff_right hkey
    simp only [hshadowed]
    by_cases hvalue : ∃ x ∈ m.values, Shadows f.name x
    · rw [if_pos (.inl hvalue)]
      cases m with
      | text g w =>
        have hg : g ≠ f := fun hg => hkey (by rw [hg]; rfl)
        rw [taken, if_neg hg, if_pos (by simpa [Member.values] using hvalue)]
      | relays rs => exact if_pos hvalue
    · simp only [hvalue, false_or]
      rw [← ih hmem' hms]
      cases m with
      | text g w =>
        have hg : g ≠ f := fun hg => hkey (by rw [hg]; rfl)
        rw [taken, if_neg hg, if_neg (by simpa [Member.values] using hvalue)]
      | relays rs => exact if_neg hvalue

end Fields

/-! ### The relays -/

section Relays

variable (long : Char → Bool)

/-- The text behind the key of the relays. -/
def behindRelaysKey : List Member → Option Str
  | [] => none
  | .relays rs :: ms => some (':' :: ((Member.relays rs).body long ++ tailText long ms))
  | .text _ _ :: ms => behindRelaysKey ms

theorem afterKey_relaysKey_tailText (ms : List Member) :
    afterKey relaysKey (tailText long ms) =
      match behindShadow relaysKey ms with
      | none => behindRelaysKey long ms
      | some later => some (tailText long later) := by
  have hkey := isWord_relaysKey
  induction ms with
  | nil =>
    rfl
  | cons m ms ih =>
    rw [tailText, afterKey_cons_of_ne (by decide), afterKey_print long hkey (isWord_key m)]
    cases m with
    | text g v =>
      have hname : (Member.text g v).key ≠ relaysKey := fun h => relaysKey_ne_name g h.symm
      have hvalue : (∃ x ∈ (Member.text g v).values, Shadows relaysKey x) ↔
          Shadows relaysKey v := by simp [Member.values]
      rw [if_neg hname, behindShadow, if_neg hname, behindRelaysKey, Member.body,
        afterKey_quoted long hkey.bare (not_prefix_tailText long hkey ms)]
      by_cases hv : Shadows relaysKey v
      · rw [if_pos hv, if_pos (hvalue.mpr hv)]
      · rw [if_neg hv, if_neg fun h => hv (hvalue.mp h), ih]
    | relays rs =>
      have hname : (Member.relays rs).key = relaysKey := rfl
      rw [if_pos hname, behindShadow, if_pos hname, behindRelaysKey]

theorem suffix_of_behindShadow {key : Str} {ms later : List Member}
    (h : behindShadow key ms = some later) : later <:+ ms := by
  induction ms with
  | nil => cases h
  | cons m ms ih =>
    rw [behindShadow] at h
    split at h
    · cases h
    · split at h
      · obtain rfl := Option.some.inj h
        exact suffix_cons m _
      · exact (ih h).trans (suffix_cons m ms)

/-- What is found behind a shadow, or behind the key. -/
theorem parseRelayStampsField_objectText {ms : List Member} (hms : ms ≠ []) :
    parseRelayStampsField (objectText long ms) =
      match behindShadow relaysKey ms with
      | none => ((behindRelaysKey long ms).map relaysAt).getD []
      | some later => relaysAt (tailText long later) := by
  have hfind : findKey (objectText long ms) relaysKey = afterKey relaysKey (tailText long ms) := by
    obtain ⟨m, ms, rfl⟩ := exists_cons_of_ne_nil hms
    rw [findKey, objectText_cons, tailText, afterKey_cons_of_ne (by decide),
      afterKey_cons_of_ne (by decide)]
  rw [parseRelayStampsField, hfind, afterKey_relaysKey_tailText]
  cases behindShadow relaysKey ms with
  | some later => rfl
  | none => cases behindRelaysKey long ms <;> rfl

/-- A mark is written only for itself. -/
theorem notMem_quoted {c : Char} (hc : c = ',' ∨ c = '[' ∨ c = ']') {r : Str} (hr : c ∉ r) :
    c ∉ quoted long r := by
  have hmark : c ≠ '"' ∧ c ≠ '\\' ∧ ¬ c.isAlphanum = true := by
    rcases hc with rfl | rfl | rfl <;> decide
  rw [quoted, List.mem_cons, List.mem_append, List.mem_singleton]
  rintro (h | h | h)
  · exact hmark.1 h
  · rcases mem_escape h with h | h | h
    · exact hr h
    · exact hmark.2.1 h
    · exact hmark.2.2 h
  · exact hmark.1 h

theorem relaysAt_append {s : Str} (hs : '[' ∉ s) (t : Str) : relaysAt (s ++ t) = relaysAt t := by
  rw [relaysAt, dropWhile_append_of_pos fun c hc => ?_]
  · rfl
  · simpa using fun h : c = '[' => hs (h ▸ hc)

theorem relaysAt_print (m : Member) (t : Str) :
    relaysAt (m.print long ++ t) = relaysAt (':' :: (m.body long ++ t)) := by
  have hkey : '[' ∉ m.key := fun h => absurd ((isWord_key m).isAlpha _ h) (by decide)
  rw [Member.print, append_assoc, cons_append,
    relaysAt_append (notMem_quoted long (.inr (.inl rfl)) hkey)]

theorem relaysAt_body (rs : List Str) (t : Str) :
    relaysAt (':' :: ((Member.relays rs).body long ++ t)) =
      ((([','].intercalate (rs.map (quoted long)) ++ ']' :: t).takeWhile (· != ']')).splitOn
        ',').filterMap relayOf := by
  have hdrop : (':' :: ((Member.relays rs).body long ++ t)).dropWhile (· != '[') =
      '[' :: ([','].intercalate (rs.map (quoted long)) ++ ']' :: t) := by
    rw [Member.body, List.cons_append, List.append_assoc, List.singleton_append]
    rfl
  rw [relaysAt, hdrop]
  dsimp only
  rw [if_pos (by simp)]

/-- A piece is only cut at its ends. -/
theorem mem_of_relayOf {piece r : Str} (h : relayOf piece = some r) {c : Char} (hc : c ∈ r) :
    c ∈ piece := by
  rw [relayOf] at h
  split at h
  · cases h
    have hstart := (List.rdropWhile_prefix _ _).subset hc
    have hinner := (dropWhile_suffix _).subset hstart
    exact (dropWhile_suffix _).subset ((List.rdropWhile_prefix _ _).subset hinner)
  · cases h

/-- A relay is what is left of it without the quotes around it. -/
theorem relayOf_quoted (r : Str) :
    relayOf (quoted long r) =
      if sdnsScheme <+: (splitRelayLabel ((escape long r).rdropWhile (· == '"'))).2 then
        some ((escape long r).rdropWhile (· == '"'))
      else none := by
  have hstrip : trimMatches '"' (trim (quoted long r)) =
      (escape long r).rdropWhile (· == '"') := by
    rw [quoted, trim_between (by decide), trimMatches, trimEndMatches,
      dropWhile_cons_of_pos (by decide)]
    cases r with
    | nil => rfl
    | cons c r =>
      -- a string that is written never begins with a quote
      have hhead : ∃ x u, escape long (c :: r) = x :: u ∧ x ≠ '"' := by
        rw [escape_cons]
        rcases escapeChar_cases c with (rfl | rfl) | hc | hc
        · exact ⟨_, _, rfl, by decide⟩
        · exact ⟨_, _, rfl, by decide⟩
        · rw [escapeChar_of_control hc]
          exact ⟨_, _, rfl, by decide⟩
        · rw [escapeChar_of_bare hc]
          exact ⟨_, _, rfl, hc.1⟩
      obtain ⟨x, u, htext, hx⟩ := hhead
      rw [htext, cons_append, dropWhile_cons_of_neg (by simpa using hx),
        ← cons_append, rdropWhile_concat_pos _ _ _ rfl]
  rw [relayOf, hstrip]
  simp only [List.isPrefixOf_iff_prefix]

theorem relayOf_quoted_eq_iff (r : Str) :
    relayOf (quoted long r) = some r ↔
      (∀ c ∈ r, Bare c) ∧ sdnsScheme <+: (splitRelayLabel r).2 := by
  rw [relayOf_quoted]
  constructor
  · intro h
    split at h
    · next hscheme =>
      rw [Option.some.injEq] at h
      rw [h] at hscheme
      exact ⟨bare_of_escape_eq (escape_eq_of_rdropWhile_eq h), hscheme⟩
    · cases h
  · rintro ⟨hbare, hscheme⟩
    have hstrip : (escape long r).rdropWhile (· == '"') = r := by
      rw [escape_of_bare hbare, rdropWhile_eq_self_iff]
      intro hne
      have hlast := (hbare _ (getLast_mem hne)).1
      simpa using hlast
    rw [hstrip, if_pos hscheme]

theorem splitOn_intercalate_quoted {rs : List Str} (hne : rs ≠ [])
    (h : ∀ r ∈ rs, ∀ c ∈ r, c ≠ ',' ∧ c ≠ ']') (t : Str) :
    (([','].intercalate (rs.map (quoted long)) ++ ']' :: t).takeWhile (· != ']')).splitOn ',' =
      rs.map (quoted long) := by
  have hmem : ∀ r ∈ rs, ',' ∉ quoted long r ∧ ']' ∉ quoted long r := fun r hr =>
    ⟨notMem_quoted long (.inl rfl) fun hc => (h r hr _ hc).1 rfl,
      notMem_quoted long (.inr (.inr rfl)) fun hc => (h r hr _ hc).2 rfl⟩
  have hclose : ∀ c ∈ [','].intercalate (rs.map (quoted long)), (c != ']') = true := by
    intro c hc
    rcases mem_intercalate hc with rfl | ⟨q, hq, hcq⟩
    · decide
    · obtain ⟨r, hr, rfl⟩ := List.mem_map.mp hq
      simpa using fun hc : c = ']' => (hmem r hr).2 (hc ▸ hcq)
  rw [List.takeWhile_append_of_pos hclose, List.takeWhile_cons_of_neg (by decide),
    List.append_nil, List.splitOn_intercalate _ ?_ (by simpa using hne)]
  intro q hq hcomma
  obtain ⟨r, hr, rfl⟩ := List.mem_map.mp hq
  exact (hmem r hr).1 hcomma

/-- The relays that are read back are the plain ones. -/
theorem relaysAt_body_eq_iff (rs : List Str) (t : Str) :
    relaysAt (':' :: ((Member.relays rs).body long ++ t)) = rs ↔ ∀ r ∈ rs, PlainRelay r := by
  rw [relaysAt_body]
  have hplain : (∀ r ∈ rs, ∀ c ∈ r, c ≠ ',' ∧ c ≠ ']') →
      (((([','].intercalate (rs.map (quoted long)) ++ ']' :: t).takeWhile (· != ']')).splitOn
        ',').filterMap relayOf = rs ↔
      ∀ r ∈ rs, (∀ c ∈ r, Bare c) ∧ sdnsScheme <+: (splitRelayLabel r).2) := by
    intro h
    rcases eq_nil_or_concat rs with rfl | ⟨init, final, hrs⟩
    · exact iff_of_true rfl (by simp)
    · have hne : rs ≠ [] := by simp [hrs]
      rw [splitOn_intercalate_quoted long hne h, filterMap_map]
      refine (Eq.congr_right (map_id rs).symm).trans (filterMap_eq_map_iff_forall_eq_some.trans ?_)
      exact forall₂_congr fun r _ => relayOf_quoted_eq_iff long r
  constructor
  · intro h
    have hmarks : ∀ r ∈ rs, ∀ c ∈ r, c ≠ ',' ∧ c ≠ ']' := by
      intro r hr c hc
      rw [← h] at hr
      obtain ⟨piece, hpiece, hrelay⟩ := mem_filterMap.mp hr
      have hmem : c ∈ piece := mem_of_relayOf hrelay hc
      constructor
      · rintro rfl
        exact notMem_of_mem_splitOn hpiece hmem
      · rintro rfl
        have hin := mem_takeWhile_imp (mem_of_mem_splitOn hpiece hmem)
        exact absurd hin (by decide)
    intro r hr
    obtain ⟨hbare, hscheme⟩ := (hplain hmarks).mp h r hr
    exact ⟨fun c hc => ⟨hbare c hc, hmarks r hr c hc⟩, hscheme⟩
  · intro h
    exact (hplain fun r hr c hc => ((h r hr).1 c hc).2).mpr fun r hr =>
      ⟨fun c hc => ((h r hr).1 c hc).1, (h r hr).2⟩

theorem relaysAt_tailText_eq_iff {rs : List Str} {ms : List Member}
    (h : ∀ stamps, .relays stamps ∈ ms → stamps = rs) :
    relaysAt (tailText long ms) = rs ↔ RelaysBehind long rs ms := by
  induction ms with
  | nil => exact eq_comm
  | cons m ms ih =>
    have htail : relaysAt (tailText long (m :: ms)) =
        relaysAt (':' :: (m.body long ++ tailText long ms)) :=
      (relaysAt_append (s := [',']) (by decide) _).trans (relaysAt_print long m _)
    rw [htail]
    cases m with
    | relays stamps =>
      obtain rfl := h stamps mem_cons_self
      exact relaysAt_body_eq_iff long stamps _
    | text f v =>
      have hbody : relaysAt (':' :: (quoted long v ++ tailText long ms)) =
          relaysAt (quoted long v ++ tailText long ms) :=
        relaysAt_append (s := [':']) (by decide) _
      rw [Member.body, hbody, RelaysBehind]
      split
      · exact Iff.rfl
      · next hv =>
        rw [relaysAt_append (notMem_quoted long (.inr (.inl rfl)) hv)]
        exact ih fun stamps hmem => h stamps (mem_cons_of_mem _ hmem)

end Relays

/-! ### The round trip -/

section RoundTrip

variable (long : Char → Bool)

namespace Document

theorem text_mem_order_iff (d : Document) (f : TextField) (v : Str) : .text f v ∈ d.order ↔
    f = .id ∧ v = d.id ∨ f = .transport ∧ v = d.transport ∨
      f = d.payload.field ∧ v = d.payload.value := by
  rw [d.perm.mem_iff, Written.members]
  simp

theorem relays_mem_order_iff (d : Document) (rs : List Str) :
    .relays rs ∈ d.order ↔ d.relays = some rs := by
  rw [d.perm.mem_iff, Written.members]
  simp

theorem field_payload_ne (d : Document) :
    d.payload.field ≠ .id ∧ d.payload.field ≠ .transport := by
  cases d.payload <;> exact ⟨nofun, nofun⟩

variable {f : TextField}

theorem text_unique (d : Document) {v w : Str} (hv : .text f v ∈ d.order) (hw : .text f w ∈ d.order)
    : v = w := by
  rw [text_mem_order_iff] at hv hw
  obtain ⟨hid, htransport⟩ := d.field_payload_ne
  rcases hv with ⟨rfl, rfl⟩ | ⟨rfl, rfl⟩ | ⟨rfl, rfl⟩
  · simpa [Ne.symm hid, eq_comm] using hw
  · simpa [Ne.symm htransport, eq_comm] using hw
  · simpa [hid, htransport, eq_comm] using hw

theorem exists_text_of_key_eq {m : Member} (h : m.key = f.name) : ∃ v, m = .text f v := by
  cases m with
  | text g v =>
    obtain rfl := (name_eq_iff g f).mp h
    exact ⟨v, rfl⟩
  | relays rs => exact absurd h (relaysKey_ne_name f)

/-- A field that is written is taken from its member, unless it is shadowed. -/
theorem stringField_eq (d : Document) {v : Str} (hv : .text f v ∈ d.order) :
    stringField (objectText long d.order) f.name =
      if Shadowed f.name d.order then none else some (readBack long v) := by
  rw [stringField_objectText long d.order_ne_nil]
  refine taken_eq long hv fun m hm hname => ?_
  obtain ⟨w, rfl⟩ := exists_text_of_key_eq hname
  rw [d.text_unique hm hv]

theorem stringField_eq_none (d : Document) (hf : ∀ v, .text f v ∉ d.order) :
    stringField (objectText long d.order) f.name = none := by
  rw [stringField_objectText long d.order_ne_nil]
  refine taken_eq_none long fun m hm hname => ?_
  obtain ⟨w, rfl⟩ := exists_text_of_key_eq hname
  exact hf w hm

/-- A text with a default is read back: the default for a shadowed one, the text for one that
is printable. -/
theorem getD_eq_iff (f : TextField) (ms : List Member) (v default : Str) :
    (if Shadowed f.name ms then none else some (readBack long v)).getD default = v ↔
      if Shadowed f.name ms then v = default else Printable v := by
  split
  · exact eq_comm
  · exact readBack_eq_iff long v

theorem behindRelaysKey_eq {ms : List Member} {o : Option (List Str)}
    (h : ∀ rs, .relays rs ∈ ms ↔ o = some rs) :
    (o = none ∧ behindRelaysKey long ms = none) ∨
      ∃ rs t, o = some rs ∧
        behindRelaysKey long ms = some (':' :: ((Member.relays rs).body long ++ t)) := by
  induction ms with
  | nil =>
    refine .inl ⟨?_, rfl⟩
    cases o with
    | none => rfl
    | some rs => exact absurd ((h rs).mpr rfl) (by simp)
  | cons m ms ih =>
    cases m with
    | text g v => exact ih fun rs => by rw [← h rs]; simp
    | relays rs => exact .inr ⟨rs, _, (h rs).mp mem_cons_self, rfl⟩

/-- The relays are read back when the part of the condition that is about them holds. -/
theorem relays_eq_iff (d : Document) :
    parseRelayStampsField (objectText long d.order) = d.relays.getD [] ↔
      match behindShadow relaysKey d.order with
      | none => ∀ r ∈ d.relays.getD [], PlainRelay r
      | some later => RelaysBehind long (d.relays.getD []) later := by
  rw [parseRelayStampsField_objectText long d.order_ne_nil]
  cases hshadow : behindShadow relaysKey d.order with
  | some later =>
    refine relaysAt_tailText_eq_iff long fun stamps hmem => ?_
    rw [(d.relays_mem_order_iff stamps).mp ((suffix_of_behindShadow hshadow).subset hmem)]
    rfl
  | none =>
    rcases behindRelaysKey_eq long d.relays_mem_order_iff with ⟨ho, hnone⟩ | ⟨rs, t, ho, hsome⟩
    · simp [ho, hnone]
    · rw [ho, hsome]
      exact relaysAt_body_eq_iff long rs t

end Document

/-- The condition says of each part of an object that it is read back. -/
theorem readsBack_iff (d : Document) :
    d.ReadsBack long ↔
      (stringField (objectText long d.order) TextField.id.name).getD "doh".toList = d.id ∧
      (stringField (objectText long d.order) TextField.transport.name).getD "doh".toList =
        d.transport ∧
      ((stringField (objectText long d.order) d.payload.field.name).getD [] = d.payload.value ∧
        d.payload.value ≠ []) ∧
      parseRelayStampsField (objectText long d.order) = d.relays.getD [] := by
  rw [d.stringField_eq long ((d.text_mem_order_iff _ _).mpr (.inl ⟨rfl, rfl⟩)),
    d.stringField_eq long ((d.text_mem_order_iff _ _).mpr (.inr (.inl ⟨rfl, rfl⟩))),
    d.stringField_eq long ((d.text_mem_order_iff _ _).mpr (.inr (.inr ⟨rfl, rfl⟩))),
    d.relays_eq_iff long, Document.getD_eq_iff, Document.getD_eq_iff, Document.getD_eq_iff]
  constructor
  · intro h
    refine ⟨h.id, h.transport, ⟨?_, h.payload.2.2⟩, h.relays⟩
    rw [if_neg h.payload.1]
    exact h.payload.2.1
  · rintro ⟨hid, htransport, ⟨hpayload, hne⟩, hrelays⟩
    refine ⟨hid, htransport, ?_, hrelays⟩
    split at hpayload
    · exact absurd hpayload hne
    · next hshadow => exact ⟨hshadow, hpayload, hne⟩

/-- One object is read back exactly when its values survive. -/
theorem parseUpstreamObj_eq_iff (d : Document) :
    parseUpstreamObj (objectText long d.order) = some d.spec ↔ d.ReadsBack long := by
  have hother : ∀ f, f ≠ .id → f ≠ .transport → f ≠ d.payload.field →
      stringField (objectText long d.order) f.name = none := by
    intro f hid htransport hpayload
    refine d.stringField_eq_none long fun v hv => ?_
    rw [d.text_mem_order_iff] at hv
    simp [hid, htransport, hpayload] at hv
  have hparse : parseUpstreamObj (objectText long d.order) =
      let url := (stringField (objectText long d.order) TextField.url.name).getD []
      let stamp := (stringField (objectText long d.order) TextField.stamp.name).getD []
      if url.isEmpty && stamp.isEmpty then none
      else some
        ⟨(stringField (objectText long d.order) TextField.id.name).getD "doh".toList,
          (stringField (objectText long d.order) TextField.transport.name).getD "doh".toList,
          url, stamp, parseRelayStampsField (objectText long d.order)⟩ := rfl
  rw [readsBack_iff, hparse]
  rw [Option.ite_none_left_eq_some, Option.some.injEq, Written.spec, UpstreamSpec.mk.injEq]
  cases hpayload : d.payload with
  | url value =>
    rw [hother .stamp nofun nofun (by rw [hpayload]; exact nofun), Payload.field, Payload.value]
    constructor
    · rintro ⟨hsome, hid, htransport, hvalue, -, hrelays⟩
      refine ⟨hid, htransport, ⟨hvalue, ?_⟩, hrelays⟩
      simpa [hvalue] using hsome
    · rintro ⟨hid, htransport, ⟨hvalue, hne⟩, hrelays⟩
      exact ⟨by simpa [hvalue] using hne, hid, htransport, hvalue, rfl, hrelays⟩
  | stamp value =>
    rw [hother .url nofun nofun (by rw [hpayload]; exact nofun), Payload.field, Payload.value]
    constructor
    · rintro ⟨hsome, hid, htransport, -, hvalue, hrelays⟩
      refine ⟨hid, htransport, ⟨hvalue, ?_⟩, hrelays⟩
      simpa [hvalue] using hsome
    · rintro ⟨hid, htransport, ⟨hvalue, hne⟩, hrelays⟩
      exact ⟨by simpa [hvalue] using hne, hid, htransport, rfl, hvalue, hrelays⟩

/-- **Which lists of upstreams are read back**: those in which every value survives. -/
theorem parseUpstreams_printUpstreams_iff (ds : List Document) :
    parseUpstreams (printUpstreams long ds) = ds.map (fun d => d.spec) ↔
      ∀ d ∈ ds, d.ReadsBack long := by
  rw [parseUpstreams, objectSlices_printUpstreams, filterMap_map]
  refine filterMap_eq_map_iff_forall_eq_some.trans (forall₂_congr fun d _ => ?_)
  exact parseUpstreamObj_eq_iff long d

/-- An upstream whose transport is the key of its URL, written in the order of the source. -/
def shadowing : Document where
  id := "cf".toList
  transport := "url".toList
  payload := .url "https://one.one.one.one/".toList
  relays := none
  order := [.text .id "cf".toList, .text .transport "url".toList,
    .text .url "https://one.one.one.one/".toList]
  perm := List.Perm.refl _

/-- An upstream with an accent in its id. -/
def accented : Document where
  id := "tortä".toList
  transport := "doh".toList
  payload := .url "https://one.one.one.one/".toList
  relays := none
  order := [.text .id "tortä".toList, .text .transport "doh".toList,
    .text .url "https://one.one.one.one/".toList]
  perm := List.Perm.refl _

/-- A value that is the key of the URL makes the upstream disappear, and an accent comes back
as two other characters. -/
theorem shadowed_url_is_lost :
    parseUpstreams (printUpstreams (fun _ => false) [shadowing]) = [] ∧
      parseUpstreams (printUpstreams (fun _ => false) [accented]) =
        [{ accented.spec with id := "tortÃ¤".toList }] := by
  decide +kernel

end RoundTrip

end Upstreams
end Resolver
end TortaCore
