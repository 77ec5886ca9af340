import TortaCore.Runtime.Tier
import TortaCore.Store.Dict
import TortaCore.Wire.Cursor

/-!
# The content-addressed cache

The assets of the mirror, by the digest of their bytes (`mirror/cache.rs`).  An asset enters
by one of three calls, each with checks of its own: the two verified inserts compare the
digest with the address that is expected, and the load from a directory compares it with
the name of the file.  A store with a directory writes an asset there before it admits it.

The digest is a parameter.

## Main definitions

* `hexLower`, `parseHexHash`: the name of an asset's file.
* `Backed`, with `tryInsertVerified`, `insertVerified` and `loadFromDisk`: a store with the
  files.
* `CacheStore.Sound`, `CacheStore.Extends`: what every store keeps, and what every call
  keeps of it.
-/

namespace TortaCore
namespace Mirror

open Text Store Wire List Option
open TortaCore.Runtime

/-- A content address: 32 bytes. -/
structure ContentHash where
  bytes : Bytes
  length_bytes : bytes.length = 32
  deriving DecidableEq

def maxAssetBytes : ℕ := 8 * 1024 * 1024

/-- `cache::MAX_ENTRIES`. -/
def maxEntries : ℕ := 1024

/-! ### Names of files -/

def hexDigit (n : ℕ) : Char := "0123456789abcdef".toList.getD n '0'

/-- The name of an asset's file. -/
def hexLower (hash : ContentHash) : Str :=
  hash.bytes.flatMap fun b => [hexDigit (b.toNat / 16), hexDigit (b.toNat % 16)]

def hexVal (c : UInt8) : Option ℕ :=
  if 0x30 ≤ c ∧ c ≤ 0x39 then some (c.toNat - 0x30)
  else if 0x61 ≤ c ∧ c ≤ 0x66 then some (c.toNat - 0x61 + 10)
  else none

def hexPairs : Bytes → Option Bytes
  | hi :: lo :: rest =>
    (hexVal hi).bind fun hi => (hexVal lo).bind fun lo =>
      (hexPairs rest).map (UInt8.ofNat (hi * 16 + lo) :: ·)
  | [] => some []
  | [_] => none

def parseHexHash (name : Str) : Option ContentHash :=
  if (utf8 name).length ≠ 64 then none
  else (hexPairs (utf8 name)).bind fun out =>
    if h : out.length = 32 then some ⟨out, h⟩ else none

/-- A byte is read back from its two digits, and neither of them is a dot. -/
theorem hexDigit_facts (b : UInt8) :
    ∃ hi lo, String.utf8EncodeChar (hexDigit (b.toNat / 16)) = [hi] ∧
      String.utf8EncodeChar (hexDigit (b.toNat % 16)) = [lo] ∧
      hexVal hi = some (b.toNat / 16) ∧ hexVal lo = some (b.toNat % 16) ∧
      hexDigit (b.toNat / 16) ≠ '.' := by
  have key : ∀ n < 16, (String.utf8EncodeChar (hexDigit n)).length = 1 ∧
      (String.utf8EncodeChar (hexDigit n)).head?.bind hexVal = some n ∧ hexDigit n ≠ '.' := by
    decide
  have hb := b.toNat_lt
  obtain ⟨hlenHi, hvalHi, hdot⟩ := key (b.toNat / 16) (by omega)
  obtain ⟨hlenLo, hvalLo, -⟩ := key (b.toNat % 16) (by omega)
  obtain ⟨hi, hhi⟩ := length_eq_one_iff.mp hlenHi
  obtain ⟨lo, hlo⟩ := length_eq_one_iff.mp hlenLo
  rw [hhi] at hvalHi
  rw [hlo] at hvalLo
  exact ⟨hi, lo, hhi, hlo, hvalHi, hvalLo, hdot⟩

theorem hexPairs_hex : ∀ bytes : Bytes,
    (utf8 (bytes.flatMap fun b => [hexDigit (b.toNat / 16), hexDigit (b.toNat % 16)])).length =
      2 * bytes.length ∧
    hexPairs (utf8 (bytes.flatMap fun b => [hexDigit (b.toNat / 16), hexDigit (b.toNat % 16)])) =
      some bytes := by
  intro bytes
  induction bytes with
  | nil => exact ⟨rfl, rfl⟩
  | cons b bytes ih =>
    obtain ⟨hi, lo, hhi, hlo, hvalHi, hvalLo, -⟩ := hexDigit_facts b
    have hbyte : UInt8.ofNat (b.toNat / 16 * 16 + b.toNat % 16) = b := by
      rw [Nat.div_add_mod', UInt8.ofNat_toNat]
    rw [flatMap_cons, cons_append, cons_append, nil_append, utf8_cons, utf8_cons, hhi, hlo]
    constructor
    · simp only [cons_append, nil_append, length_cons, ih.1]
      omega
    · simp only [cons_append, nil_append, hexPairs, hvalHi, hvalLo, bind_some,
        ih.2, map_some, hbyte]

/-- **The name of a file gives its address back.** -/
theorem parseHexHash_hexLower (hash : ContentHash) : parseHexHash (hexLower hash) = some hash := by
  obtain ⟨hlen, hpairs⟩ := hexPairs_hex hash.bytes
  have hlen64 : (utf8 (hexLower hash)).length = 64 := by rw [hexLower, hlen, hash.length_bytes]
  rw [parseHexHash, if_neg (not_not_intro hlen64), hexLower, hpairs, bind_some,
    dif_pos hash.length_bytes]

theorem hexLower_injective : Function.Injective hexLower := fun a b h =>
  some.inj (by rw [← parseHexHash_hexLower a, h, parseHexHash_hexLower b])

/-- No asset's file is a file that a write leaves behind: the name has no dot in front. -/
theorem hexLower_ne_tmpName (hash hash' : ContentHash) :
    hexLower hash ≠ tmpName (hexLower hash') := by
  intro h
  cases hbytes : hash.bytes with
  | nil => exact absurd (hbytes ▸ hash.length_bytes) (by decide)
  | cons b bytes =>
    obtain ⟨-, -, -, -, -, -, hdot⟩ := hexDigit_facts b
    rw [hexLower, hbytes, flatMap_cons, tmpName] at h
    exact hdot (cons.inj h).1

/-! ### The store -/

section Store

variable (H : Bytes → ContentHash)

/-- Bytes with their address. -/
structure CacheEntry where
  hash : ContentHash
  bytes : Bytes
  hash_eq : hash = H bytes

def CacheEntry.new (bytes : Bytes) : CacheEntry H := ⟨H bytes, bytes, rfl⟩

structure CacheStore where
  entries : Dict ContentHash (CacheEntry H)
  capacity : ℕ
  dir : Option Str

inductive CacheReject where
  | contentAddressMismatch
  | tooLarge
  | storeFull
  deriving DecidableEq

end Store

variable {H : Bytes → ContentHash}

namespace CacheStore

variable (H) in
def new : CacheStore H := ⟨.empty, maxEntries, none⟩

variable (H) in
def withCapacity (capacity : ℕ) : CacheStore H := ⟨.empty, max capacity 1, none⟩

variable (H) in
def withDir (dir : Str) : CacheStore H := ⟨.empty, maxEntries, some dir⟩

def get (s : CacheStore H) (hash : ContentHash) : Option (CacheEntry H) := s.entries.get? hash

def contains (s : CacheStore H) (hash : ContentHash) : Bool := (s.get hash).isSome

def len (s : CacheStore H) : ℕ := s.entries.rows.length

def insert (s : CacheStore H) (entry : CacheEntry H) : CacheStore H :=
  { s with entries := s.entries.set entry.hash entry }

/-- What every store keeps. -/
structure Sound (s : CacheStore H) : Prop where
  addressed : ∀ {hash : ContentHash} {e : CacheEntry H}, s.get hash = some e → hash = H e.bytes
  sized : ∀ {hash : ContentHash} {e : CacheEntry H}, s.get hash = some e →
    e.bytes.length ≤ maxAssetBytes
  bounded : s.len ≤ s.capacity

/-- The entries of one store are still there in the other. -/
def Extends (s s' : CacheStore H) : Prop :=
  ∀ (hash : ContentHash) (e : CacheEntry H), s.get hash = some e → s'.get hash = some e

theorem Extends.refl (s : CacheStore H) : s.Extends s := fun _ _ h => h

theorem Extends.trans {s s' s'' : CacheStore H} (h : s.Extends s') (h' : s'.Extends s'') :
    s.Extends s'' := fun hash e he => h' hash e (h hash e he)

variable {s : CacheStore H} {entry : CacheEntry H}

theorem sound_of_empty (h : s.entries = .empty) : s.Sound where
  addressed he := by simp [get, h] at he
  sized he := by simp [get, h] at he
  bounded := by simp [len, h, Dict.empty]

theorem get_insert (s : CacheStore H) (entry : CacheEntry H) (hash : ContentHash) :
    (s.insert entry).get hash = if entry.hash = hash then some entry else s.get hash :=
  s.entries.get?_set _ _ _

theorem len_insert (h : s.get entry.hash = none) :
    (s.insert entry).len = s.len + 1 :=
  length_assocSet_of_get_eq_none h

theorem contains_eq_false_iff {hash : ContentHash} :
    s.contains hash = false ↔ s.get hash = none := by
  rw [contains, isSome_eq_false_iff, isNone_iff_eq_none]

/-- A new address with an asset of a legal size, while there is room. -/
structure Admissible (s : CacheStore H) (entry : CacheEntry H) : Prop where
  fresh : s.get entry.hash = none
  room : s.len < s.capacity
  size : entry.bytes.length ≤ maxAssetBytes

theorem Sound.insert (h : s.Sound) (hadm : s.Admissible entry) : (s.insert entry).Sound where
  addressed he := by
    rw [get_insert] at he
    split at he
    · next heq =>
      cases he
      rw [← heq, entry.hash_eq]
    · exact h.addressed he
  sized he := by
    rw [get_insert] at he
    split at he
    · cases he
      exact hadm.size
    · exact h.sized he
  bounded := Nat.le_trans (length_assocSet_le _ _ _) hadm.room

theorem extends_insert (h : s.get entry.hash = none) :
    s.Extends (s.insert entry) := by
  intro hash e he
  rw [get_insert, if_neg]
  · exact he
  · rintro rfl
    rw [h] at he
    simp at he

end CacheStore

/-! ### Verified inserts -/

/-- A store with the files. -/
structure Backed (H : Bytes → ContentHash) where
  store : CacheStore H
  disk : Disk

namespace Backed

/-- The tail of an admission: the bound, the file, the row.  The write may meet a fault. -/
def admitEntry (fault : Option IoFault) (s : Backed H) (entry : CacheEntry H) :
    Except CacheReject ContentHash × Backed H :=
  if s.store.contains entry.hash then (.ok entry.hash, s)
  else if s.store.len ≥ s.store.capacity then (.error .storeFull, s)
  else match s.store.dir with
    | some dir =>
      match writeAtomic fault s.disk dir (hexLower entry.hash) entry.bytes with
      | (true, disk) => (.ok entry.hash, ⟨s.store.insert entry, disk⟩)
      | (false, disk) => (.error .storeFull, ⟨s.store, disk⟩)
    | none => (.ok entry.hash, ⟨s.store.insert entry, s.disk⟩)

def tryInsertVerified (fault : Option IoFault) (s : Backed H) (expected : ContentHash)
    (bytes : Bytes) : Except CacheReject ContentHash × Backed H :=
  if bytes.length > maxAssetBytes then (.error .tooLarge, s)
  else
    let entry := CacheEntry.new H bytes
    if entry.hash ≠ expected then (.error .contentAddressMismatch, s)
    else s.admitEntry fault entry

def insertVerified (fault : Option IoFault) (s : Backed H) (expected : ContentHash)
    (bytes : Bytes) : Option ContentHash × Backed H :=
  let r := s.tryInsertVerified fault expected bytes
  (r.1.toOption, r.2)

/-- The files of all assets are the same. -/
def SameAssets (s s' : Backed H) : Prop :=
  ∀ dir hash, s'.disk dir (hexLower hash) = s.disk dir (hexLower hash)

/-- The asset is new and admitted, and its file, in a store with a directory, is written. -/
structure Added (s : Backed H) (bytes : Bytes) (s' : Backed H) : Prop where
  admissible : s.store.Admissible (.new H bytes)
  store_eq : s'.store = s.store.insert (.new H bytes)
  file_eq : ∀ dir hash, s'.disk dir (hexLower hash) =
    if s.store.dir = some dir ∧ hash = H bytes then some bytes else s.disk dir (hexLower hash)

variable {bytes : Bytes} {fault : Option IoFault} {s : Backed H} {hash : ContentHash}

theorem admitEntry_cases (fault : Option IoFault) (s : Backed H)
    (hsize : bytes.length ≤ maxAssetBytes) :
    ((∃ reject, (s.admitEntry fault (.new H bytes)).1 = .error reject) ∧
      (s.admitEntry fault (.new H bytes)).2.store = s.store ∧
      s.SameAssets (s.admitEntry fault (.new H bytes)).2) ∨
    ((s.admitEntry fault (.new H bytes)).1 = .ok (H bytes) ∧
      (s.admitEntry fault (.new H bytes)).2 = s ∧ s.store.contains (H bytes) = true) ∨
    ((s.admitEntry fault (.new H bytes)).1 = .ok (H bytes) ∧
      s.Added bytes (s.admitEntry fault (.new H bytes)).2) := by
  have hhash : (CacheEntry.new H bytes).hash = H bytes := rfl
  simp only [admitEntry, hhash]
  by_cases hin : s.store.contains (H bytes) = true
  · rw [if_pos hin]
    exact .inr (.inl ⟨rfl, rfl, hin⟩)
  rw [if_neg hin]
  by_cases hfull : s.store.len ≥ s.store.capacity
  · rw [if_pos hfull]
    exact .inl ⟨⟨_, rfl⟩, rfl, fun _ _ => rfl⟩
  rw [if_neg hfull]
  have hadm : s.store.Admissible (.new H bytes) :=
    ⟨CacheStore.contains_eq_false_iff.mp (Bool.eq_false_iff.mpr hin), Nat.lt_of_not_le hfull, hsize⟩
  cases hdir : s.store.dir with
  | none =>
    exact .inr (.inr ⟨rfl, hadm, rfl, fun dir hash => by rw [if_neg (by simp [hdir])]⟩)
  | some d =>
    have hok := writeAtomic_fst fault s.disk d (hexLower (H bytes)) bytes
    have hfile := fun dir hash => @writeAtomic_file fault s.disk d dir (hexLower (H bytes))
      (hexLower hash) bytes (hexLower_ne_tmpName hash (H bytes))
    dsimp only [CacheEntry.new]
    cases hw : writeAtomic fault s.disk d (hexLower (H bytes)) bytes with
    | mk ok disk =>
      rw [hw] at hok hfile
      dsimp only at hok hfile
      subst hok
      cases fault with
      | some fault => exact .inl ⟨⟨_, rfl⟩, rfl, fun dir hash => by simp [hfile]⟩
      | none =>
        refine .inr (.inr ⟨rfl, hadm, rfl, fun dir hash => (hfile dir hash).trans ?_⟩)
        simp only [isNone_none, true_and, hdir, some.injEq,
          hexLower_injective.eq_iff, @eq_comm _ dir]

/-- **All that a verified insert can do**: refuse and leave the assets, find the asset there,
or add it. -/
theorem tryInsertVerified_cases (fault : Option IoFault) (s : Backed H) (expected : ContentHash)
    (bytes : Bytes) :
    ((∃ reject, (s.tryInsertVerified fault expected bytes).1 = .error reject) ∧
      (s.tryInsertVerified fault expected bytes).2.store = s.store ∧
      s.SameAssets (s.tryInsertVerified fault expected bytes).2) ∨
    ((s.tryInsertVerified fault expected bytes).1 = .ok expected ∧
      (s.tryInsertVerified fault expected bytes).2 = s ∧ s.store.contains expected = true) ∨
    ((s.tryInsertVerified fault expected bytes).1 = .ok expected ∧ expected = H bytes ∧
      s.Added bytes (s.tryInsertVerified fault expected bytes).2) := by
  unfold tryInsertVerified
  by_cases hsize : bytes.length > maxAssetBytes
  · rw [if_pos hsize]
    exact .inl ⟨⟨_, rfl⟩, rfl, fun _ _ => rfl⟩
  rw [if_neg hsize]
  by_cases hhash : (CacheEntry.new H bytes).hash ≠ expected
  · rw [if_pos hhash]
    exact .inl ⟨⟨_, rfl⟩, rfl, fun _ _ => rfl⟩
  rw [if_neg hhash]
  obtain rfl : H bytes = expected := not_not.mp hhash
  rcases s.admitEntry_cases fault (Nat.le_of_not_gt hsize) with h | h | ⟨hok, hadded⟩
  · exact .inl h
  · exact .inr (.inl h)
  · exact .inr (.inr ⟨hok, rfl, hadded⟩)

/-- An insert is taken when the size is legal and the asset is there, or there is room and no fault
to meet. -/
theorem insertVerified_fst (hsize : bytes.length ≤ maxAssetBytes)
    (h : s.store.contains (H bytes) = true ∨
      (s.store.len < s.store.capacity ∧ (s.store.dir = none ∨ fault = none))) :
    (s.insertVerified fault (H bytes) bytes).1 = some (H bytes) := by
  have hhash : (CacheEntry.new H bytes).hash = H bytes := rfl
  rw [insertVerified, tryInsertVerified, if_neg (Nat.not_lt_of_le hsize)]
  simp only [hhash, ne_eq, not_true_eq_false, if_false, admitEntry]
  by_cases hin : s.store.contains (H bytes) = true
  · rw [if_pos hin]
    rfl
  obtain ⟨hroom, hfault⟩ := h.resolve_left hin
  rw [if_neg hin, if_neg (Nat.not_le_of_lt hroom)]
  cases hdir : s.store.dir with
  | none => rfl
  | some dir =>
    rw [hdir] at hfault
    obtain rfl := hfault.resolve_left (by simp)
    have hok := writeAtomic_fst none s.disk dir (hexLower (H bytes)) bytes
    dsimp only
    split
    · rfl
    · next hw =>
      rw [CacheEntry.new] at hw
      simp [hw] at hok

theorem contains_of_insertVerified {expected hash : ContentHash}
    (h : (s.insertVerified fault expected bytes).1 = some hash) :
    (s.insertVerified fault expected bytes).2.store.contains expected = true := by
  rw [insertVerified] at h ⊢
  rcases s.tryInsertVerified_cases fault expected bytes with
    ⟨⟨reject, hreject⟩, -⟩ | ⟨-, heq, hin⟩ | ⟨-, rfl, hadded⟩
  · rw [hreject] at h
    cases h
  · rw [heq]
    exact hin
  · rw [hadded.store_eq, CacheStore.contains, CacheStore.get_insert]
    simp [CacheEntry.new]

/-! ### Loading a directory -/

/-- What a directory lists: a name, if it is text, and the file's bytes, if they can be read. -/
structure DirEntry where
  name : Option Str
  file : Option Bytes

variable (H) in
/-- The asset in a file whose name is the address of its bytes. -/
def DirEntry.asset? (f : DirEntry) : Option (CacheEntry H) :=
  f.name.bind fun name => (parseHexHash name).bind fun claimed => f.file.bind fun bytes =>
    let entry := CacheEntry.new H bytes
    if entry.hash ≠ claimed then none
    else if entry.bytes.length > maxAssetBytes then none
    else some entry

/-- The loop over the listing, with the count of the assets admitted. -/
def loadLoop (loaded : ℕ) (s : CacheStore H) : List DirEntry → ℕ × CacheStore H
  | [] => (loaded, s)
  | f :: rest =>
    match f.asset? H with
    | none => loadLoop loaded s rest
    | some entry =>
      if s.contains entry.hash then loadLoop loaded s rest
      else if s.len ≥ s.capacity then (loaded, s)
      else loadLoop (loaded + 1) (s.insert entry) rest

/-- A directory that cannot be read gives nothing. -/
def loadFromDisk (s : Backed H) (listing : Option (List DirEntry)) : ℕ × Backed H :=
  match listing with
  | none => (0, s)
  | some files =>
    let r := loadLoop 0 s.store files
    (r.1, ⟨r.2, s.disk⟩)

theorem size_of_asset {f : DirEntry} {entry : CacheEntry H} (h : f.asset? H = some entry) :
    entry.bytes.length ≤ maxAssetBytes := by
  simp only [DirEntry.asset?, bind_eq_some_iff] at h
  obtain ⟨name, -, claimed, -, bytes, -, h⟩ := h
  split at h
  · simp at h
  split at h
  · simp at h
  · next hsize =>
    cases h
    exact Nat.le_of_not_gt hsize

/-- What a load does is a run of admissible inserts. -/
theorem loadLoop_induction {P : CacheStore H → Prop}
    (hinsert : ∀ (s : CacheStore H) (entry : CacheEntry H), s.Admissible entry → P s →
      P (s.insert entry)) :
    ∀ (files : List DirEntry) (loaded : ℕ) (s : CacheStore H), P s →
      P (loadLoop loaded s files).2 := by
  intro files
  induction files with
  | nil => exact fun _ _ h => h
  | cons f rest ih =>
    intro loaded s h
    unfold loadLoop
    cases hasset : f.asset? H with
    | none => exact ih _ _ h
    | some entry =>
      dsimp only
      split
      · exact ih _ _ h
      next hin =>
      split
      · exact h
      · next hfull =>
        exact ih _ _ (hinsert s entry ⟨CacheStore.contains_eq_false_iff.mp
          (Bool.eq_false_iff.mpr hin), Nat.lt_of_not_le hfull, size_of_asset hasset⟩ h)

/-! ### Runs -/

/-- The calls on a store. -/
inductive CacheCall where
  | tryInsert (fault : Option IoFault) (expected : ContentHash) (bytes : Bytes)
  | insert (fault : Option IoFault) (expected : ContentHash) (bytes : Bytes)
  | load (listing : Option (List DirEntry))

def step (s : Backed H) : CacheCall → Backed H
  | .tryInsert fault expected bytes => (s.tryInsertVerified fault expected bytes).2
  | .insert fault expected bytes => (s.insertVerified fault expected bytes).2
  | .load listing => (s.loadFromDisk listing).2

def run (s : Backed H) (calls : List CacheCall) : Backed H := calls.foldl step s

/-- What a call does: it leaves the store and the assets, adds one asset, or loads a listing. -/
theorem step_cases (s : Backed H) (c : CacheCall) :
    ((s.step c).store = s.store ∧ s.SameAssets (s.step c)) ∨
    (∃ bytes, s.Added bytes (s.step c)) ∨
    (∃ files, c = .load (some files) ∧ (s.step c).store = (loadLoop 0 s.store files).2 ∧
      (s.step c).disk = s.disk) := by
  have hinsert : ∀ fault expected bytes,
      ((s.tryInsertVerified fault expected bytes).2.store = s.store ∧
        s.SameAssets (s.tryInsertVerified fault expected bytes).2) ∨
      s.Added bytes (s.tryInsertVerified fault expected bytes).2 := by
    intro fault expected bytes
    rcases s.tryInsertVerified_cases fault expected bytes with
      ⟨-, hstore, hsame⟩ | ⟨-, heq, -⟩ | ⟨-, -, hadded⟩
    · exact .inl ⟨hstore, hsame⟩
    · exact .inl ⟨by rw [heq], fun dir hash => by rw [heq]⟩
    · exact .inr hadded
  cases c with
  | tryInsert fault expected bytes =>
    exact (hinsert fault expected bytes).imp_right fun h => .inl ⟨bytes, h⟩
  | insert fault expected bytes =>
    exact (hinsert fault expected bytes).imp_right fun h => .inl ⟨bytes, h⟩
  | load listing =>
    cases listing with
    | none => exact .inl ⟨rfl, fun _ _ => rfl⟩
    | some files => exact .inr (.inr ⟨files, rfl, rfl, rfl⟩)

theorem sound_step (h : s.store.Sound) (c : CacheCall) : (s.step c).store.Sound := by
  rcases s.step_cases c with ⟨hstore, -⟩ | ⟨bytes, hadded⟩ | ⟨files, -, hstore, -⟩
  · rwa [hstore]
  · rw [hadded.store_eq]
    exact h.insert hadded.admissible
  · rw [hstore]
    exact loadLoop_induction (fun _ _ hadm hs => hs.insert hadm) files 0 s.store h

/-- The entries stay, and the bound and the directory do not change. -/
def Grows (s s' : CacheStore H) : Prop :=
  s.Extends s' ∧ s'.capacity = s.capacity ∧ s'.dir = s.dir

theorem grows_step (s : Backed H) (c : CacheCall) : Grows s.store (s.step c).store := by
  rcases s.step_cases c with ⟨hstore, -⟩ | ⟨bytes, hadded⟩ | ⟨files, -, hstore, -⟩
  · rw [hstore]
    exact ⟨.refl _, rfl, rfl⟩
  · rw [hadded.store_eq]
    exact ⟨CacheStore.extends_insert hadded.admissible.fresh, rfl, rfl⟩
  · rw [hstore]
    refine loadLoop_induction (fun s' entry hadm hgrows => ?_) files 0 s.store ⟨.refl _, rfl, rfl⟩
    exact ⟨hgrows.1.trans (CacheStore.extends_insert hadm.fresh), hgrows.2⟩

/-- The address is in the store after an insert of its bytes that finds it there, or that has a
legal size, room, and no fault to meet. -/
theorem contains_insertVerified {expected : ContentHash} (hhash : H bytes = expected)
    (h : s.store.contains expected = true ∨ (bytes.length ≤ maxAssetBytes ∧
      s.store.len < s.store.capacity ∧ (s.store.dir = none ∨ fault = none))) :
    (s.insertVerified fault expected bytes).2.store.contains expected = true := by
  subst hhash
  rcases h with hin | ⟨hsize, hroom⟩
  · obtain ⟨e, he⟩ := isSome_iff_exists.mp hin
    exact isSome_of_eq_some ((s.grows_step (.insert fault (H bytes) bytes)).1 _ e he)
  · exact contains_of_insertVerified (insertVerified_fst hsize (.inr hroom))

/-- The asset is in the store, and in the directory if the store has one. -/
def OnDisk (s : Backed H) (hash : ContentHash) : Prop :=
  ∃ e, s.store.get hash = some e ∧
    ∀ dir, s.store.dir = some dir → s.disk dir (hexLower hash) = some e.bytes

theorem OnDisk.step (h : s.OnDisk hash) (c : CacheCall) :
    (s.step c).OnDisk hash := by
  obtain ⟨e, he, hfile⟩ := h
  obtain ⟨hext, -, hdir⟩ := s.grows_step c
  refine ⟨e, hext hash e he, fun dir hd => ?_⟩
  have hsd : s.store.dir = some dir := hdir ▸ hd
  rw [← hfile dir hsd]
  rcases s.step_cases c with ⟨-, hsame⟩ | ⟨bytes, hadded⟩ | ⟨files, -, -, hdisk⟩
  · exact hsame dir hash
  · rw [hadded.file_eq, if_neg]
    -- a file is written for a new address only
    rintro ⟨-, rfl⟩
    exact absurd (hadded.admissible.fresh.symm.trans he) (by simp)
  · rw [hdisk]

/-- An insert is what added the address. -/
def AddedBy (s : Backed H) (c : CacheCall) (hash : ContentHash) : Prop :=
  (∀ listing, c ≠ .load listing) ∧ s.store.get hash = none ∧ (s.step c).store.contains hash = true

theorem AddedBy.onDisk {c : CacheCall} (h : s.AddedBy c hash) : (s.step c).OnDisk hash := by
  obtain ⟨hc, hnone, hin⟩ := h
  obtain ⟨e, he⟩ := isSome_iff_exists.mp hin
  rcases s.step_cases c with ⟨hstore, -⟩ | ⟨bytes, hadded⟩ | ⟨files, hload, -⟩
  · rw [hstore, hnone] at he
    simp at he
  · rw [hadded.store_eq, CacheStore.get_insert] at he
    split at he
    · next heq =>
      cases he
      refine ⟨.new H bytes, ?_, fun dir hdir => ?_⟩
      · rw [hadded.store_eq, CacheStore.get_insert, if_pos heq]
      · have hsd : s.store.dir = some dir := (s.grows_step c).2.2 ▸ hdir
        rw [hadded.file_eq, if_pos ⟨hsd, heq.symm⟩]
        rfl
    · rw [hnone] at he
      simp at he
  · exact absurd hload (hc _)

theorem run_append (s : Backed H) (pre post : List CacheCall) :
    s.run (pre ++ post) = (s.run pre).run post := foldl_append ..

theorem sound_run (h : s.store.Sound) : ∀ calls : List CacheCall,
    (s.run calls).store.Sound := by
  intro calls
  induction calls generalizing s with
  | nil => exact h
  | cons c calls ih => exact ih (sound_step h c)

theorem grows_run (s : Backed H) : ∀ calls : List CacheCall,
    Grows s.store (s.run calls).store := by
  intro calls
  induction calls generalizing s with
  | nil => exact ⟨.refl _, rfl, rfl⟩
  | cons c calls ih =>
    obtain ⟨hext, hcap, hdir⟩ := s.grows_step c
    obtain ⟨hext', hcap', hdir'⟩ := ih (s.step c)
    exact ⟨hext.trans hext', hcap'.trans hcap, hdir'.trans hdir⟩

theorem OnDisk.run (h : s.OnDisk hash) :
    ∀ calls : List CacheCall, (s.run calls).OnDisk hash := by
  intro calls
  induction calls generalizing s with
  | nil => exact h
  | cons c calls ih => exact ih (h.step c)

/-- What an insert added is on disk from then on. -/
theorem onDisk_run {pre post : List CacheCall} {c : CacheCall}
    (h : (s.run pre).AddedBy c hash) : (s.run (pre ++ c :: post)).OnDisk hash := by
  rw [run_append]
  exact h.onDisk.run post

end Backed

end Mirror
end TortaCore
