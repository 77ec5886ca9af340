import TortaCore.Mirror.Cache
import TortaCore.Text.Slice
import TortaCore.Wire.Records

/-!
# The signed catalog

The list of the assets that the mirror may serve (`mirror/catalog.rs`): a name, the host it
belongs to and the address of its bytes.  Author and device share one byte layout.  The
author writes the length of a name or a host in 16 bits and the number of entries in 32,
whatever they are.

A name of more than 65535 bytes is written with the wrong length.  The reader then goes on
inside the name, and what it finds there can be records as well: with enough entries after
it, such a catalog is read as another one.

## Main definitions

* `CatalogEntry`, `Catalog`, with `contentHashFor`.
* `Catalog.parseBody`, `encodeCatalog`: the reader and the writer.
* `CatalogEntry.InBounds`: what the reader lets through.
-/

namespace TortaCore
namespace Mirror

open Text Wire List

/-! ### The code -/

structure CatalogEntry where
  name : Str
  host : Str
  contentHash : ContentHash
  cloaked : Bool
  deriving DecidableEq

structure Catalog where
  entries : List CatalogEntry
  authoredAtSecs : UInt64

inductive CatalogError where
  | badSignature
  | malformed
  | legacyHashAlgo
  deriving DecidableEq

/-- Trim, drop the dots at the end, lower the ASCII letters. -/
def normalizeHost (host : Str) : Str := (trimEndMatches '.' (trim host)).map asciiLower

theorem mem_of_mem_normalizeHost {host : Str} {c : Char} (h : c ∈ normalizeHost host)
    (hc : isWhitespace c = true) : c ∈ host := by
  obtain ⟨x, hx, rfl⟩ := mem_map.mp h
  rw [asciiLower_of_isWhitespace hc]
  have htrim : x ∈ trim host := (List.rdropWhile_prefix _ _).subset hx
  exact (dropWhile_suffix _).subset ((List.rdropWhile_prefix _ _).subset htrim)

theorem length_normalizeHost_le (host : Str) : (normalizeHost host).length ≤ host.length := by
  rw [normalizeHost, length_map]
  calc (trimEndMatches '.' (trim host)).length
      ≤ (trim host).length := (List.rdropWhile_prefix _ _).length_le
    _ ≤ (trimStart host).length := (List.rdropWhile_prefix _ _).length_le
    _ ≤ host.length := (dropWhile_suffix _).length_le

/-- A normalised name that loses no character when it is normalised again is kept. -/
theorem normalizeHost_of_length_eq {host : Str}
    (h : (normalizeHost (normalizeHost host)).length = (normalizeHost host).length) :
    normalizeHost (normalizeHost host) = normalizeHost host := by
  have hlower : (normalizeHost host).map asciiLower = normalizeHost host := by
    rw [normalizeHost, map_map]
    exact map_congr_left fun c _ => asciiLower_asciiLower c
  generalize normalizeHost host = name at h hlower ⊢
  have hprefix : trimEndMatches '.' (trim name) <+: trim name := rdropWhile_prefix _ _
  have hsuffix : trimStart name <:+ name := dropWhile_suffix _
  have hmiddle : trim name <+: trimStart name := rdropWhile_prefix _ _
  rw [normalizeHost, length_map] at h
  -- none of the three steps may drop anything
  have h1 := hprefix.length_le
  have h2 := hmiddle.length_le
  have h3 := hsuffix.length_le
  have e3 : trimStart name = name := hsuffix.eq_of_length (by omega)
  have e2 : trim name = trimStart name := hmiddle.eq_of_length (by omega)
  have e1 : trimEndMatches '.' (trim name) = trim name := hprefix.eq_of_length (by omega)
  rw [normalizeHost, e1, e2, e3, hlower]

namespace Catalog

/-- The address of the first entry of that name. -/
def contentHashFor (c : Catalog) (name : Str) : Option ContentHash :=
  (c.entries.find? fun e => e.name = name).map CatalogEntry.contentHash

/-- `b"TCAT"`. -/
def magic : Bytes := [0x54, 0x43, 0x41, 0x54]

def version : ℕ := 1

def versionFreshness : ℕ := 2

def hashAlgoBlake2b : UInt8 := 2

def hashAlgoSha256Legacy : UInt8 := 1

def headerLen : ℕ := 24

def entryFlagCloak : UInt8 := 1

def maxNameBytes : ℕ := 512

def maxHostBytes : ℕ := 253

/-- `catalog::MAX_ENTRIES`. -/
def maxEntries : ℕ := 100000

def readLenPrefixedStr (bound : ℕ) (bs : Bytes) : Option (Str × Bytes) :=
  (readLe 2 bs).bind fun len =>
    if len.1 = 0 ∨ len.1 > bound then none
    else (takeBytes len.1 len.2).bind fun str => (fromUtf8 str.1).map fun s => (s, str.2)

/-- The flags of an entry; every bit but the first has to be clear. -/
def readFlags : Bytes → Option (Bool × Bytes)
  | [] => none
  | flags :: bs =>
    if flags &&& ~~~entryFlagCloak ≠ 0 then none else some (flags &&& entryFlagCloak ≠ 0, bs)

def readHash (bs : Bytes) : Option (ContentHash × Bytes) :=
  (takeBytes 32 bs).bind fun r => if h : r.1.length = 32 then some (⟨r.1, h⟩, r.2) else none

/-- One turn of the loop over the body. -/
def readEntry (bs : Bytes) : Option (CatalogEntry × Bytes) :=
  (readFlags bs).bind fun cloaked => (readHash cloaked.2).bind fun hash =>
    (readLenPrefixedStr maxNameBytes hash.2).bind fun name =>
      (readLenPrefixedStr maxHostBytes name.2).map fun host =>
        (⟨name.1, normalizeHost host.1, hash.1, cloaked.1⟩, host.2)

def parseBody (verified : Bytes) : Except CatalogError Catalog :=
  if verified.length < headerLen then .error .malformed
  else if verified.take 4 ≠ magic then .error .malformed
  else
    let v := leNat (bytesAt verified 4 2)
    if v ≠ version ∧ v ≠ versionFreshness then .error .malformed
    else if verified[6]? = some hashAlgoSha256Legacy then .error .legacyHashAlgo
    else if verified[6]? ≠ some hashAlgoBlake2b then .error .malformed
    else if verified[7]? ≠ some 0 then .error .malformed
    else
      let epoch := bytesAt verified 8 8
      if v ≠ versionFreshness ∧ epoch.any (· ≠ 0) then .error .malformed
      else
        let authoredAtSecs := if v = versionFreshness then UInt64.ofNat (leNat epoch) else 0
        let entryCount := leNat (bytesAt verified 16 4)
        if (bytesAt verified 20 4).any (· ≠ 0) then .error .malformed
        else if entryCount > maxEntries then .error .malformed
        else match readMany readEntry entryCount (verified.drop headerLen) with
          | none => .error .malformed
          | some (entries, rest) =>
            -- nothing may follow the records that were declared
            if rest ≠ [] then .error .malformed else .ok ⟨entries, authoredAtSecs⟩

end Catalog

open Catalog

/-- A text behind its length in 16 bits. -/
def encodeStr (s : Str) : Bytes := leBytes 2 (utf8 s).length ++ utf8 s

def encodeEntry (e : CatalogEntry) : Bytes :=
  (if e.cloaked then entryFlagCloak else 0) ::
    (e.contentHash.bytes ++ (encodeStr e.name ++ encodeStr e.host))

/-- The header of version 2, with the number of entries in 32 bits. -/
def encodeHeader (count : ℕ) (authoredAtSecs : UInt64) : Bytes :=
  magic ++ leBytes 2 versionFreshness ++ [hashAlgoBlake2b, 0] ++
    leBytes 8 authoredAtSecs.toNat ++ leBytes 4 count ++ leBytes 4 0

def encodeCatalog (entries : List CatalogEntry) (authoredAtSecs : UInt64) : Bytes :=
  encodeHeader entries.length authoredAtSecs ++ entries.flatMap encodeEntry

/-! ### One entry -/

namespace CatalogEntry

/-- The bounds of the reader. -/
structure InBounds (e : CatalogEntry) : Prop where
  name_pos : 0 < (utf8 e.name).length
  name_le : (utf8 e.name).length ≤ maxNameBytes
  host_pos : 0 < (utf8 e.host).length
  host_le : (utf8 e.host).length ≤ maxHostBytes

instance (e : CatalogEntry) : Decidable e.InBounds :=
  decidable_of_iff ((0 < (utf8 e.name).length ∧ (utf8 e.name).length ≤ maxNameBytes) ∧
    0 < (utf8 e.host).length ∧ (utf8 e.host).length ≤ maxHostBytes)
    ⟨fun h => ⟨h.1.1, h.1.2, h.2.1, h.2.2⟩,
      fun h => ⟨⟨h.name_pos, h.name_le⟩, h.host_pos, h.host_le⟩⟩

/-- The entry as the reader returns it. -/
def normalized (e : CatalogEntry) : CatalogEntry := { e with host := normalizeHost e.host }

end CatalogEntry

variable {bs rest : Bytes} {entries : List CatalogEntry}

theorem readLe_eq_some_iff {w n : ℕ} :
    readLe w bs = some (n, rest) ↔ n < 256 ^ w ∧ bs = leBytes w n ++ rest := by
  constructor
  · intro h
    obtain ⟨⟨a, b⟩, htake, heq⟩ := Option.map_eq_some_iff.mp h
    obtain ⟨hbs, hlen⟩ := takeBytes_eq_some htake
    obtain ⟨rfl, rfl⟩ := heq
    subst hlen
    exact ⟨leNat_lt a, by rw [leBytes_leNat, hbs]⟩
  · rintro ⟨hlt, rfl⟩
    rw [readLe_append, Nat.mod_eq_of_lt hlt]

theorem readLenPrefixedStr_eq_some_iff {bound : ℕ} (hbound : bound < 65536) {s : Str} :
    readLenPrefixedStr bound bs = some (s, rest) ↔
      (0 < (utf8 s).length ∧ (utf8 s).length ≤ bound) ∧ bs = encodeStr s ++ rest := by
  constructor
  · intro h
    obtain ⟨⟨len, bs'⟩, hlen, h⟩ := Option.bind_eq_some_iff.mp h
    split at h
    · simp at h
    next hok =>
    obtain ⟨⟨str, bs''⟩, htake, h⟩ := Option.bind_eq_some_iff.mp h
    obtain ⟨s', hutf, heq⟩ := Option.map_eq_some_iff.mp h
    simp only [Prod.mk.injEq] at heq
    obtain ⟨rfl, rfl⟩ := heq
    obtain ⟨-, rfl⟩ := readLe_eq_some_iff.mp hlen
    obtain ⟨rfl, rfl⟩ := takeBytes_eq_some htake
    obtain rfl : str = utf8 s' := fromUtf8_eq_some_iff.mp hutf
    exact ⟨by omega, by rw [encodeStr, append_assoc]⟩
  · rintro ⟨⟨hpos, hle⟩, rfl⟩
    rw [readLenPrefixedStr, encodeStr, append_assoc,
      readLe_eq_some_iff.mpr ⟨by omega, rfl⟩, Option.bind_some, if_neg (by dsimp only; omega),
      takeBytes_append, Option.bind_some, fromUtf8_utf8]
    rfl

theorem readFlags_eq_some_iff {cloaked : Bool} :
    readFlags bs = some (cloaked, rest) ↔
      bs = (if cloaked then entryFlagCloak else 0) :: rest := by
  cases bs with
  | nil => simp [readFlags]
  | cons flags bs =>
    have key : ∀ flags : UInt8, ∀ cloaked : Bool,
        (¬ flags &&& ~~~entryFlagCloak ≠ 0 ∧ decide (flags &&& entryFlagCloak ≠ 0) = cloaked) ↔
          flags = if cloaked then entryFlagCloak else 0 :=
      forall_byte (by decide +kernel)
    rw [cons.injEq, ← key flags cloaked, readFlags]
    split
    · next h => simp [h]
    · next h => simp [h]

theorem readHash_eq_some_iff {hash : ContentHash} :
    readHash bs = some (hash, rest) ↔ bs = hash.bytes ++ rest := by
  constructor
  · intro h
    obtain ⟨⟨a, b⟩, htake, hread⟩ := Option.bind_eq_some_iff.mp h
    obtain ⟨rfl, hlen⟩ := takeBytes_eq_some htake
    rw [dif_pos hlen] at hread
    obtain ⟨rfl, rfl⟩ := hread
    rfl
  · rintro rfl
    have htake := takeBytes_append hash.bytes rest
    rw [hash.length_bytes] at htake
    rw [readHash, htake, Option.bind_some, dif_pos hash.length_bytes]

/-- The reader of an entry takes what is written for an entry within the bounds. -/
theorem accepts_readEntry :
    Accepts readEntry encodeEntry CatalogEntry.InBounds CatalogEntry.normalized := by
  have hname : maxNameBytes < 65536 := by decide
  have hhost : maxHostBytes < 65536 := by decide
  intro bs e rest
  constructor
  · intro h
    obtain ⟨⟨cloaked, bs₁⟩, hflags, h⟩ := Option.bind_eq_some_iff.mp h
    obtain ⟨⟨hash, bs₂⟩, hhash, h⟩ := Option.bind_eq_some_iff.mp h
    obtain ⟨⟨name, bs₃⟩, hname', h⟩ := Option.bind_eq_some_iff.mp h
    obtain ⟨⟨host, bs₄⟩, hhost', h⟩ := Option.map_eq_some_iff.mp h
    obtain ⟨rfl, rfl⟩ := h
    obtain ⟨⟨hnpos, hnle⟩, rfl⟩ := (readLenPrefixedStr_eq_some_iff hname).mp hname'
    obtain ⟨⟨hhpos, hhle⟩, rfl⟩ := (readLenPrefixedStr_eq_some_iff hhost).mp hhost'
    obtain rfl := readHash_eq_some_iff.mp hhash
    obtain rfl := readFlags_eq_some_iff.mp hflags
    refine ⟨⟨name, host, hash, cloaked⟩, ⟨hnpos, hnle, hhpos, hhle⟩, rfl, ?_⟩
    simp only [encodeEntry, cons_append, append_assoc]
  · rintro ⟨e, hbounds, rfl, rfl⟩
    rw [readEntry, encodeEntry, cons_append, readFlags_eq_some_iff.mpr rfl, Option.bind_some,
      append_assoc, readHash_eq_some_iff.mpr rfl, Option.bind_some, append_assoc,
      (readLenPrefixedStr_eq_some_iff hname).mpr ⟨⟨hbounds.name_pos, hbounds.name_le⟩, rfl⟩,
      Option.bind_some,
      (readLenPrefixedStr_eq_some_iff hhost).mpr ⟨⟨hbounds.host_pos, hbounds.host_le⟩, rfl⟩]
    rfl

/-! ### A catalog -/

theorem parseBody_encodeHeader (count : ℕ) (t : UInt64) (body : Bytes) :
    parseBody (encodeHeader count t ++ body) =
      if count % 2 ^ 32 > Catalog.maxEntries then .error .malformed
      else match readMany readEntry (count % 2 ^ 32) body with
        | none => .error .malformed
        | some (entries, rest) => if rest ≠ [] then .error .malformed else .ok ⟨entries, t⟩ := by
  have hlen : ¬ (encodeHeader count t ++ body).length < headerLen := by
    rw [length_append]
    exact Nat.not_lt.mpr (Nat.le_add_right 24 body.length)
  have hver : leNat (bytesAt (encodeHeader count t ++ body) 4 2) = versionFreshness :=
    (leNat_leBytes 2 2 :)
  have hepoch : leNat (bytesAt (encodeHeader count t ++ body) 8 8) = t.toNat := by
    refine (leNat_leBytes 8 t.toNat).trans (Nat.mod_eq_of_lt ?_)
    exact t.toNat_lt
  have hcount : leNat (bytesAt (encodeHeader count t ++ body) 16 4) = count % 2 ^ 32 :=
    leNat_leBytes 4 count
  have hmagic : ¬ (encodeHeader count t ++ body).take 4 ≠ magic := not_not_intro rfl
  have hdrop : (encodeHeader count t ++ body).drop headerLen = body := rfl
  have halgo : (encodeHeader count t ++ body)[6]? = some hashAlgoBlake2b := rfl
  have hflags : (encodeHeader count t ++ body)[7]? = some 0 := rfl
  have hzero : ¬ ((bytesAt (encodeHeader count t ++ body) 20 4).any (· ≠ 0)) = true := by
    exact Bool.false_ne_true
  rw [parseBody, if_neg hlen, if_neg hmagic]
  simp only [hver, halgo, hflags, hepoch, hcount, hdrop]
  rw [if_neg (by decide), if_neg (by decide), if_neg (by decide), if_neg (by decide),
    if_neg fun h => h.1 rfl, if_neg hzero]
  simp only [if_true, UInt64.ofNat_toNat]

/-- **What the reader makes of a catalog as written**: a list of legal entries, as many as the
count says modulo 2³², with the same bytes. -/
theorem parseBody_encodeCatalog_eq_ok_iff {t : UInt64} {c : Catalog} :
    parseBody (encodeCatalog entries t) = .ok c ↔
      ∃ es : List CatalogEntry, (∀ e ∈ es, e.InBounds) ∧ es.length = entries.length % 2 ^ 32 ∧
        es.length ≤ Catalog.maxEntries ∧ es.flatMap encodeEntry = entries.flatMap encodeEntry ∧
        c = ⟨es.map CatalogEntry.normalized, t⟩ := by
  have hmany := accepts_readEntry.many (entries.length % 2 ^ 32)
  rw [encodeCatalog, parseBody_encodeHeader]
  constructor
  · intro h
    split at h
    · simp at h
    next hcount =>
    cases hread : readMany readEntry (entries.length % 2 ^ 32) (entries.flatMap encodeEntry) with
    | none => rw [hread] at h; simp at h
    | some r =>
      obtain ⟨xs, rest⟩ := r
      rw [hread] at h
      dsimp only at h
      split at h
      · simp at h
      next hrest =>
      obtain rfl := not_not.mp hrest
      cases h
      obtain ⟨es, ⟨hlen, hall⟩, rfl, hbytes⟩ := (hmany _ _ _).mp hread
      rw [append_nil] at hbytes
      exact ⟨es, hall, hlen, by omega, hbytes.symm, rfl⟩
  · rintro ⟨es, hall, hlen, hmax, hbytes, rfl⟩
    have hread := hmany.read_emit ⟨hlen, hall⟩ []
    rw [append_nil, hbytes] at hread
    rw [if_neg (by omega), hread]
    rfl

/-- The bytes are those of a list of legal entries, of the length that is declared. -/
def Resyncs (entries : List CatalogEntry) : Prop :=
  ∃ es : List CatalogEntry, (∀ e ∈ es, e.InBounds) ∧ es.length = entries.length % 2 ^ 32 ∧
    es.length ≤ Catalog.maxEntries ∧ es.flatMap encodeEntry = entries.flatMap encodeEntry

theorem encodeEntry_ne_nil (e : CatalogEntry) : encodeEntry e ≠ [] := cons_ne_nil _ _

/-- Legal entries in front of the same bytes are the same, as far as both lists go. -/
theorem flatMap_encodeEntry_prefix {es fs : List CatalogEntry}
    (hes : ∀ e ∈ es, e.InBounds) (hfs : ∀ e ∈ fs, e.InBounds)
    (heq : es.flatMap encodeEntry = fs.flatMap encodeEntry ++ rest) (hlen : fs.length ≤ es.length) :
    (es.take fs.length).map CatalogEntry.normalized = fs.map CatalogEntry.normalized ∧
      (es.drop fs.length).flatMap encodeEntry = rest := by
  rw [← take_append_drop fs.length es, flatMap_append] at heq
  exact (accepts_readEntry.many fs.length).unique
    ⟨length_take_of_le hlen, fun e he => hes e (mem_of_mem_take he)⟩ ⟨rfl, hfs⟩ heq

/-- Legal entries are read as themselves and nothing else. -/
theorem resyncs_iff_of_inBounds (h : ∀ e ∈ entries, e.InBounds) :
    Resyncs entries ↔ entries.length ≤ Catalog.maxEntries := by
  have hmax : Catalog.maxEntries < 2 ^ 32 := by decide
  constructor
  · rintro ⟨es, hes, hlen, hle, hbytes⟩
    -- a list that is longer would leave bytes behind
    have hshort : es.length ≤ entries.length := hlen ▸ Nat.mod_le _ _
    have hnone : entries.flatMap encodeEntry = es.flatMap encodeEntry ++ [] := by
      rw [append_nil, hbytes]
    obtain ⟨-, hdrop⟩ := flatMap_encodeEntry_prefix h hes hnone hshort
    rw [flatMap_eq_nil_iff] at hdrop
    have hnil : entries.drop es.length = [] := eq_nil_iff_forall_not_mem.mpr fun e he =>
      encodeEntry_ne_nil e (hdrop e he)
    exact Nat.le_trans (drop_eq_nil_iff.mp hnil) hle
  · intro hle
    exact ⟨entries, h, (Nat.mod_eq_of_lt (by omega)).symm, hle, rfl⟩

/-! ### Lengths that fit -/

/-- The lengths fit the 16 bits they are written in. -/
def CatalogEntry.Short (e : CatalogEntry) : Prop :=
  (utf8 e.name).length < 65536 ∧ (utf8 e.host).length < 65536

theorem encodeStr_prefix {s s' : Str} {rest rest' : Bytes} (hs : (utf8 s).length < 65536)
    (hs' : (utf8 s').length < 65536) (h : encodeStr s ++ rest = encodeStr s' ++ rest') :
    s = s' ∧ rest = rest' := by
  rw [encodeStr, encodeStr, append_assoc, append_assoc] at h
  obtain ⟨hlen, h⟩ := append_inj h (by simp)
  have hnat := congrArg leNat hlen
  rw [leNat_leBytes, leNat_leBytes] at hnat
  obtain ⟨hbytes, hrest⟩ := append_inj h (by omega)
  exact ⟨utf8_injective hbytes, hrest⟩

theorem encodeEntry_prefix {e e' : CatalogEntry} {rest rest' : Bytes} (he : e.Short)
    (he' : e'.Short) (h : encodeEntry e ++ rest = encodeEntry e' ++ rest') :
    e.name = e'.name ∧ e.host = e'.host ∧ rest = rest' := by
  simp only [encodeEntry, cons_append, append_assoc, cons.injEq] at h
  obtain ⟨-, h⟩ := append_inj h.2 (e.contentHash.length_bytes.trans
    e'.contentHash.length_bytes.symm)
  obtain ⟨hname, h⟩ := encodeStr_prefix he.1 he'.1 h
  obtain ⟨hhost, hrest⟩ := encodeStr_prefix he.2 he'.2 h
  exact ⟨hname, hhost, hrest⟩

theorem CatalogEntry.InBounds.short {e : CatalogEntry} (h : e.InBounds) : e.Short :=
  ⟨Nat.lt_of_le_of_lt h.name_le (by decide), Nat.lt_of_le_of_lt h.host_le (by decide)⟩

/-- While all lengths fit, a list that has the bytes of legal entries is legal. -/
theorem inBounds_of_short : ∀ {entries es : List CatalogEntry}, (∀ e ∈ entries, e.Short) →
    (∀ e ∈ es, e.InBounds) → es.flatMap encodeEntry = entries.flatMap encodeEntry →
    ∀ e ∈ entries, e.InBounds := by
  intro entries
  induction entries with
  | nil => exact fun _ _ _ => forall_mem_nil _
  | cons e entries ih =>
    intro es hshort hes hbytes
    obtain ⟨he, hshort⟩ := forall_mem_cons.mp hshort
    cases es with
    | nil => exact absurd (append_eq_nil_iff.mp hbytes.symm).1 (encodeEntry_ne_nil e)
    | cons f es =>
      obtain ⟨hf, hes⟩ := forall_mem_cons.mp hes
      obtain ⟨hname, hhost, hrest⟩ := encodeEntry_prefix hf.short he hbytes
      refine forall_mem_cons.mpr ⟨?_, ih hshort hes hrest⟩
      exact ⟨hname ▸ hf.name_pos, hname ▸ hf.name_le, hhost ▸ hf.host_pos, hhost ▸ hf.host_le⟩

/-! ### The round trip -/

/-- What is written is read back as it is or refused, and refused for its bounds only. -/
def RoundTrips (entries : List CatalogEntry) (t : UInt64) : Prop :=
  (∀ c, parseBody (encodeCatalog entries t) = .ok c →
    c = ⟨entries.map CatalogEntry.normalized, t⟩) ∧
  ((∃ c, parseBody (encodeCatalog entries t) = .ok c) ↔
    (∀ e ∈ entries, e.InBounds) ∧ entries.length ≤ Catalog.maxEntries)

theorem exists_parseBody_iff {t : UInt64} :
    (∃ c, parseBody (encodeCatalog entries t) = .ok c) ↔ Resyncs entries := by
  constructor
  · rintro ⟨c, hc⟩
    obtain ⟨es, hes, hlen, hle, hbytes, -⟩ := parseBody_encodeCatalog_eq_ok_iff.mp hc
    exact ⟨es, hes, hlen, hle, hbytes⟩
  · rintro ⟨es, hes, hlen, hle, hbytes⟩
    exact ⟨_, parseBody_encodeCatalog_eq_ok_iff.mpr ⟨es, hes, hlen, hle, hbytes, rfl⟩⟩

/-- **While all lengths fit 16 bits nothing is read as something else**: what is read is what was
written, and it is read if and only if the entries are legal and not too many. -/
theorem short_catalog_read_iff (entries : List {e : CatalogEntry // e.Short}) (t : UInt64)
    (c : Catalog) :
    parseBody (encodeCatalog (entries.map Subtype.val) t) = .ok c ↔
      (∀ e ∈ entries, e.1.InBounds) ∧ entries.length ≤ Catalog.maxEntries ∧
        c = ⟨entries.map fun e => e.1.normalized, t⟩ := by
  have hshort : ∀ e ∈ entries.map Subtype.val, e.Short := forall_mem_map.mpr fun e _ => e.2
  have hmax : Catalog.maxEntries < 2 ^ 32 := by decide
  have hread : (∀ e ∈ entries.map Subtype.val, e.InBounds) → entries.length ≤ Catalog.maxEntries →
      parseBody (encodeCatalog (entries.map Subtype.val) t) =
        .ok ⟨entries.map fun e => e.1.normalized, t⟩ := fun hall hle =>
    parseBody_encodeCatalog_eq_ok_iff.mpr ⟨_, hall, by rw [length_map]; omega, by simpa using hle,
      rfl, by rw [map_map]; rfl⟩
  constructor
  · intro hc
    obtain ⟨es, hes, hlen, hle, hbytes⟩ := exists_parseBody_iff.mp ⟨c, hc⟩
    have hall := inBounds_of_short hshort hes hbytes
    have hle := (resyncs_iff_of_inBounds hall).mp ⟨es, hes, hlen, hle, hbytes⟩
    rw [length_map] at hle
    rw [hread hall hle] at hc
    exact ⟨forall_mem_map.mp hall, hle, (Except.ok.inj hc).symm⟩
  · rintro ⟨hall, hle, rfl⟩
    exact hread (forall_mem_map.mpr hall) hle

/-- **When the round trip holds**: the entries are legal, or no other list of legal entries
has their bytes. -/
theorem catalog_roundTrip_iff (entries : List CatalogEntry) (t : UInt64) :
    RoundTrips entries t ↔ (∀ e ∈ entries, e.InBounds) ∨ ¬ Resyncs entries := by
  by_cases hall : ∀ e ∈ entries, e.InBounds
  · refine iff_of_true ⟨fun c hc => ?_, ?_⟩ (.inl hall)
    · obtain ⟨es, hes, hlen, hle, hbytes, rfl⟩ := parseBody_encodeCatalog_eq_ok_iff.mp hc
      have hmax : entries.length ≤ Catalog.maxEntries :=
        (resyncs_iff_of_inBounds hall).mp ⟨es, hes, hlen, hle, hbytes⟩
      have hbound : Catalog.maxEntries < 2 ^ 32 := by decide
      rw [Nat.mod_eq_of_lt (by omega)] at hlen
      have hnone : entries.flatMap encodeEntry = es.flatMap encodeEntry ++ [] := by
        rw [append_nil, hbytes]
      obtain ⟨hmap, -⟩ := flatMap_encodeEntry_prefix hall hes hnone hlen.le
      rw [hlen, take_length] at hmap
      rw [hmap]
    · rw [exists_parseBody_iff, resyncs_iff_of_inBounds hall]
      exact ⟨fun h => ⟨hall, h⟩, fun h => h.2⟩
  · constructor
    · rintro ⟨-, hok⟩
      exact .inr fun hres => hall (hok.mp (exists_parseBody_iff.mpr hres)).1
    · rintro (h | hres)
      · exact absurd h hall
      · refine ⟨fun c hc => absurd (exists_parseBody_iff.mp ⟨c, hc⟩) hres, ?_⟩
        rw [exists_parseBody_iff]
        exact iff_of_false hres fun h => hall h.1

/-! ### A name that is too long -/

/-- A text of one-byte characters. -/
def asciiText (bs : Bytes) : Str := bs.map fun b => Char.ofNat b.toNat

theorem utf8_asciiText {bs : Bytes} (h : ∀ b ∈ bs, b.toNat < 0x80) : utf8 (asciiText bs) = bs := by
  induction bs with
  | nil => rfl
  | cons b bs ih =>
    obtain ⟨hb, hbs⟩ := forall_mem_cons.mp h
    rw [asciiText, map_cons, utf8_cons, utf8EncodeChar_ofNat (Or.inl (by omega)),
      if_pos (by omega), UInt8.ofNat_toNat, singleton_append]
    exact congrArg (b :: ·) (ih hbs)

def Ascii (bs : Bytes) : Prop := ∀ b ∈ bs, b.toNat < 0x80

instance (bs : Bytes) : Decidable (Ascii bs) := List.decidableBAll _ _

theorem ascii_append {bs cs : Bytes} : Ascii (bs ++ cs) ↔ Ascii bs ∧ Ascii cs :=
  forall_mem_append

theorem ascii_flatten_replicate {bs : Bytes} (h : Ascii bs) (n : ℕ) :
    Ascii (List.replicate n bs).flatten := by
  intro b hb
  obtain ⟨l, hl, hb⟩ := mem_flatten.mp hb
  rw [eq_of_mem_replicate hl] at hb
  exact h b hb

theorem length_flatten_replicate (l : Bytes) (n : ℕ) :
    (List.replicate n l).flatten.length = n * l.length := by
  simp

theorem flatten_replicate_flatten (l : Bytes) (m n : ℕ) :
    (List.replicate m (List.replicate n l).flatten).flatten =
      (List.replicate (m * n) l).flatten := by
  rw [← flatten_replicate_replicate, flatten_flatten, map_replicate]

/-- What can be moved over one block can be moved over all of them. -/
theorem append_flatten_replicate {x y z : Bytes} (h : z ++ x = y ++ z) : ∀ n : ℕ,
    z ++ (List.replicate n x).flatten = (List.replicate n y).flatten ++ z := by
  intro n
  induction n with
  | zero => simp
  | succ n ih =>
    rw [replicate_succ, flatten_cons, ← append_assoc, h, append_assoc, ih,
      ← append_assoc, ← flatten_cons, ← replicate_succ]

/-- An entry whose texts have one byte a character. -/
def asciiEntry (hash : ContentHash) (name host : Bytes) : CatalogEntry where
  name := asciiText name
  host := asciiText host
  contentHash := hash
  cloaked := false

theorem encodeEntry_asciiEntry (hash : ContentHash) {name host : Bytes} (hname : Ascii name)
    (hhost : Ascii host) :
    encodeEntry (asciiEntry hash name host) = 0 :: (hash.bytes ++
      (leBytes 2 name.length ++ name ++ (leBytes 2 host.length ++ host))) := by
  rw [encodeEntry, encodeStr, encodeStr, asciiEntry, utf8_asciiText hname, utf8_asciiText hhost]
  rfl

theorem inBounds_asciiEntry {hash : ContentHash} {name host : Bytes} (hname : Ascii name)
    (hhost : Ascii host) (hnameLen : 0 < name.length ∧ name.length ≤ maxNameBytes)
    (hhostLen : 0 < host.length ∧ host.length ≤ maxHostBytes) :
    (asciiEntry hash name host).InBounds := by
  rw [← utf8_asciiText hname] at hnameLen
  rw [← utf8_asciiText hhost] at hhostLen
  exact ⟨hnameLen.1, hnameLen.2, hhostLen.1, hhostLen.2⟩

def letters (n : ℕ) : Bytes := List.replicate n 0x61

theorem ascii_letters (n : ℕ) : Ascii (letters n) := fun b hb => by
  rw [eq_of_mem_replicate hb]
  decide

theorem length_letters (n : ℕ) : (letters n).length = n := length_replicate

def letterHash : ContentHash := ⟨letters 32, rfl⟩

/-- A record inside the long name. -/
def innerEntry : CatalogEntry := asciiEntry letterHash (letters 512) (letters 120)

/-- Its bytes. -/
def innerBytes : Bytes :=
  0 :: (letters 32 ++ ([0, 2] ++ letters 512 ++ ([120, 0] ++ letters 120)))

/-- The record in which the long name ends, as far as it is inside the name. -/
def straddleHead : Bytes :=
  0 :: (letters 32 ++ ([0, 2] ++ letters 512 ++ ([95, 0] ++ letters 91)))

def straddleEntry : CatalogEntry :=
  asciiEntry letterHash (letters 512) (letters 91 ++ [1, 0, 0x61, 0])

/-- The bytes of the long name. -/
def longBytes : Bytes :=
  [0x61, 1, 0, 0x61] ++ ((List.replicate 97 innerBytes).flatten ++ straddleHead)

def longEntry : CatalogEntry := asciiEntry letterHash longBytes [0x61]

/-- What is left of the long entry. -/
def cutEntry : CatalogEntry := asciiEntry letterHash [0x61] [0x61]

/-- The address of the entries that follow. -/
def tailHash : ContentHash := ⟨[0, 36, 0] ++ letters 29, rfl⟩

/-- The entries that follow. -/
def tailEntry : CatalogEntry := asciiEntry tailHash [2] [0x61]

/-- The bytes of such an entry after the first four. -/
def tailRest : Bytes := letters 29 ++ [1, 0, 2, 1, 0, 0x61]

def tailBytes : Bytes := [0, 0, 36, 0] ++ tailRest

def lastEntry : CatalogEntry := asciiEntry tailHash [2] [0x61, 0x61]

def lastRest : Bytes := letters 29 ++ [1, 0, 2, 2, 0, 0x61, 0x61]

/-- The address that is read one byte late. -/
def lateHash : ContentHash := ⟨[36, 0] ++ letters 29 ++ [1], rfl⟩

/-- What is read as a name: the end of one of them, thirteen more, the beginning of another. -/
def lateName : Bytes := [1, 0, 0x61] ++ ((List.replicate 13 tailBytes).flatten ++ [0, 0])

/-- Fifteen of them in one record, which starts at the address of the first. -/
def swallowEntry : CatalogEntry := asciiEntry lateHash lateName (tailRest ++ [0])

def swallowLast : CatalogEntry := asciiEntry lateHash lateName lastRest

/-- A catalog with one name of 65537 bytes. -/
def longCatalog : List CatalogEntry :=
  longEntry :: (List.replicate 104 tailEntry ++ [lastEntry])

/-- What it is read as. -/
def misreadCatalog : List CatalogEntry :=
  cutEntry :: (List.replicate 97 innerEntry ++ straddleEntry ::
    (List.replicate 6 swallowEntry ++ [swallowLast]))

theorem length_longBytes : longBytes.length = 65537 := by
  have hinner : innerBytes.length = 669 := by
    rw [innerBytes, length_cons, length_append, length_append, length_append,
      length_append, length_letters, length_letters, length_letters]
    rfl
  have hhead : straddleHead.length = 640 := by
    rw [straddleHead, length_cons, length_append, length_append, length_append,
      length_append, length_letters, length_letters, length_letters]
    rfl
  rw [longBytes, length_append, length_append, length_flatten_replicate, hinner, hhead]
  rfl

theorem ascii_longBytes : Ascii longBytes := by
  have hinner : Ascii innerBytes := by
    rw [innerBytes, ← singleton_append]
    simp only [ascii_append, ascii_letters, and_true]
    decide
  have hhead : Ascii straddleHead := by
    rw [straddleHead, ← singleton_append]
    simp only [ascii_append, ascii_letters, and_true]
    decide
  exact ascii_append.mpr ⟨by decide, ascii_append.mpr ⟨ascii_flatten_replicate hinner 97, hhead⟩⟩

theorem ascii_lateName : Ascii lateName :=
  ascii_append.mpr ⟨by decide, ascii_append.mpr
    ⟨ascii_flatten_replicate (ascii_append.mpr ⟨by decide,
      ascii_append.mpr ⟨ascii_letters 29, by decide⟩⟩) 13, by decide⟩⟩

theorem length_lateName : lateName.length = 512 := by
  have htail : tailBytes.length = 39 := by decide
  rw [lateName, length_append, length_append, length_flatten_replicate, htail]
  rfl

/-- The length of the long name is written as 1. -/
theorem encodeEntry_longEntry :
    encodeEntry longEntry = 0 :: (letters 32 ++ ([1, 0] ++ (longBytes ++ [1, 0, 0x61]))) := by
  have hbytes : leBytes 2 65537 = [1, 0] := by decide
  have hhost : leBytes 2 ([0x61] : Bytes).length ++ [0x61] = [1, 0, 0x61] := by decide
  rw [longEntry, encodeEntry_asciiEntry _ ascii_longBytes (by decide), length_longBytes, hbytes,
    append_assoc, hhost, letterHash]

theorem encodeEntry_innerEntry : encodeEntry innerEntry = innerBytes := by
  have hname : leBytes 2 512 = [0, 2] := by decide
  have hhost : leBytes 2 120 = [120, 0] := by decide
  rw [innerEntry, encodeEntry_asciiEntry _ (ascii_letters _) (ascii_letters _), length_letters,
    length_letters, hname, hhost, letterHash, innerBytes]

theorem ascii_straddleHost : Ascii (letters 91 ++ [1, 0, 0x61, 0]) :=
  ascii_append.mpr ⟨ascii_letters 91, by decide⟩

theorem encodeEntry_straddleEntry :
    encodeEntry straddleEntry = straddleHead ++ [1, 0, 0x61, 0] := by
  have hname : leBytes 2 512 = [0, 2] := by decide
  have hhost : leBytes 2 (91 + [1, 0, 0x61, (0 : UInt8)].length) = [95, 0] := by decide
  rw [straddleEntry, encodeEntry_asciiEntry _ (ascii_letters _) ascii_straddleHost, length_letters,
    length_append, length_letters, hname, hhost, letterHash, straddleHead]
  simp only [append_assoc, cons_append]

theorem encodeEntry_tailEntry : encodeEntry tailEntry = tailBytes := by decide

theorem encodeEntry_lastEntry : encodeEntry lastEntry = [0, 0, 36, 0] ++ lastRest := by decide

/-- One byte late, a record swallows the rest of an entry and fourteen more. -/
theorem cons_encodeEntry_late {host : Bytes} (hascii : Ascii host) (hlen : host.length = 36) :
    0 :: encodeEntry (asciiEntry lateHash lateName host) =
      (List.replicate 14 tailBytes).flatten ++ ([0, 0, 36, 0] ++ host) := by
  have hname : leBytes 2 512 = [0, 2] := by decide
  have hhost : leBytes 2 36 = [36, 0] := by decide
  have hsucc : (replicate 14 tailBytes).flatten =
      tailBytes ++ (replicate 13 tailBytes).flatten := rfl
  rw [encodeEntry_asciiEntry _ ascii_lateName hascii, length_lateName, hlen, hname, hhost, hsucc,
    lateHash, lateName]
  generalize (replicate 13 tailBytes).flatten = thirteen
  simp only [tailBytes, tailRest, append_assoc, cons_append, nil_append]

theorem ascii_tailRest : Ascii (tailRest ++ [0]) := by decide

theorem ascii_lastRest : Ascii lastRest := by decide

theorem flatMap_misreadCatalog :
    misreadCatalog.flatMap encodeEntry = longCatalog.flatMap encodeEntry := by
  have hcut : encodeEntry cutEntry = 0 :: (letters 32 ++ ([1, 0] ++ [0x61, 1, 0, 0x61])) := by
    decide
  -- a swallowing record stands one byte late in fifteen of the entries
  have hswallow : [0] ++ encodeEntry swallowEntry =
      (replicate 15 tailBytes).flatten ++ [0] := by
    have hsucc : (replicate 15 tailBytes).flatten =
        (replicate 14 tailBytes).flatten ++ tailBytes := by
      rw [replicate_succ', flatten_concat]
    rw [singleton_append, swallowEntry, cons_encodeEntry_late ascii_tailRest (by decide),
      hsucc, tailBytes]
    simp only [append_assoc]
  have hsix := append_flatten_replicate hswallow 6
  rw [flatten_replicate_flatten] at hsix
  have hlast : [0] ++ encodeEntry swallowLast =
      (replicate 14 tailBytes).flatten ++ encodeEntry lastEntry := by
    rw [singleton_append, swallowLast, cons_encodeEntry_late ascii_lastRest (by decide),
      encodeEntry_lastEntry]
  have hsum : (replicate 104 tailBytes).flatten =
      (replicate (6 * 15) tailBytes).flatten ++ (replicate 14 tailBytes).flatten := by
    rw [← flatten_append, replicate_append_replicate]
  have hrest : [0] ++ ((replicate 6 (encodeEntry swallowEntry)).flatten ++
      encodeEntry swallowLast) =
      (replicate 104 tailBytes).flatten ++ encodeEntry lastEntry := by
    rw [← append_assoc, hsix, append_assoc, hlast, ← append_assoc, ← hsum]
  simp only [misreadCatalog, longCatalog, flatMap_cons, flatMap_append,
    flatMap_replicate, flatMap_nil, append_nil, encodeEntry_tailEntry, ← hrest,
    hcut, encodeEntry_innerEntry, encodeEntry_straddleEntry, encodeEntry_longEntry, longBytes]
  simp only [append_assoc, cons_append, nil_append]

theorem inBounds_misreadCatalog : ∀ e ∈ misreadCatalog, e.InBounds := by
  have hname : 0 < (letters 512).length ∧ (letters 512).length ≤ maxNameBytes := by
    rw [length_letters]
    decide
  have hlate : 0 < lateName.length ∧ lateName.length ≤ maxNameBytes := by
    rw [length_lateName]
    decide
  intro e he
  rw [misreadCatalog, mem_cons, mem_append, mem_cons, mem_append, mem_singleton] at he
  rcases he with rfl | he | rfl | he | rfl
  · exact inBounds_asciiEntry (by decide) (by decide) (by decide) (by decide)
  · rw [eq_of_mem_replicate he]
    exact inBounds_asciiEntry (ascii_letters _) (ascii_letters _) hname (by decide)
  · exact inBounds_asciiEntry (ascii_letters _) ascii_straddleHost hname (by decide)
  · rw [eq_of_mem_replicate he]
    exact inBounds_asciiEntry ascii_lateName ascii_tailRest hlate (by decide)
  · exact inBounds_asciiEntry ascii_lateName ascii_lastRest hlate (by decide)

/-- A name of 65537 bytes goes through, and the device is given another catalog: of its 106
entries, 97 were text inside that name. -/
theorem long_name_misread :
    parseBody (encodeCatalog longCatalog 0) =
      .ok ⟨misreadCatalog.map CatalogEntry.normalized, 0⟩ ∧
    innerEntry.normalized ∈ misreadCatalog.map CatalogEntry.normalized ∧
    innerEntry.normalized ∉ longCatalog.map CatalogEntry.normalized := by
  refine ⟨parseBody_encodeCatalog_eq_ok_iff.mpr ⟨misreadCatalog, inBounds_misreadCatalog, ?_, ?_,
    flatMap_misreadCatalog, rfl⟩, ?_, ?_⟩
  · simp [misreadCatalog, longCatalog]
  · simp [misreadCatalog, Catalog.maxEntries]
  · exact mem_map_of_mem (by simp [misreadCatalog])
  · intro h
    obtain ⟨e, he, heq⟩ := mem_map.mp h
    -- the names of these entries are shorter, but for the long one
    have hname : e.normalized.name = innerEntry.normalized.name := congrArg CatalogEntry.name heq
    have hlen : e.name.length = 512 := by
      rw [show e.name = asciiText (letters 512) from hname, asciiText, length_map, length_letters]
    rw [longCatalog, mem_cons, mem_append, mem_singleton] at he
    rcases he with rfl | he | rfl
    · rw [longEntry, asciiEntry, asciiText, length_map, length_longBytes] at hlen
      omega
    · rw [eq_of_mem_replicate he] at hlen
      exact absurd hlen (by decide)
    · exact absurd hlen (by decide)

end Mirror
end TortaCore
