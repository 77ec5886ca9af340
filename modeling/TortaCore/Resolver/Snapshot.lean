import TortaCore.Resolver.Cache

/-!
# Cache snapshots

`snapshot` writes the entries of the cache that can still serve, most recently used
first, each with two wall-clock deadlines: the end of its time to live and the end of its
stale service.  `restore_with` reads such a payload back into a cache, under another
clock.

Reading is guarded throughout, but the deadline of an entry that comes back stale is the
sum `now + grace`, and `Instant` addition panics on overflow.  A snapshot taken in
unbounded mode writes `u64::MAX` as the end of stale service.

## Main definitions

* `SnapRecord`, `encodeRecord`, `readRecord`: the frame of one entry.
* `Cache.snapshot`, `Cache.restoreWith`: writer and reader.
-/

namespace TortaCore
namespace Resolver

open Text Dns Store Wire List Option

/-- `SNAP_VERSION`. -/
def snapVersion : UInt8 := 2

/-- One entry on disk. -/
structure SnapRecord where
  qname : Str
  qtype : ℕ
  qclass : ℕ
  kind : UInt8
  expiryUnix : ℕ
  staleUntilUnix : ℕ
  epoch : ℕ
  wire : Bytes
  deriving DecidableEq

def SnapRecord.key (r : SnapRecord) : Key := ⟨r.qname, r.qtype, r.qclass⟩

/-! ### The writer -/

def encodeRecord (r : SnapRecord) : Bytes :=
  beBytes 2 (utf8 r.qname).length ++ (utf8 r.qname ++ (beBytes 2 r.qtype ++ (beBytes 2 r.qclass ++
    (r.kind :: (beBytes 8 r.expiryUnix ++ (beBytes 8 r.staleUntilUnix ++ (beBytes 8 r.epoch ++
      (beBytes 4 r.wire.length ++ r.wire))))))))

/-- When an entry stops being fresh. -/
def expiryUnix (e : Entry) (now : ℤ) (nowUnix : ℕ) : ℕ := satAdd nowUnix (e.ttl - e.age now)

/-- When an entry stops being served stale. -/
def staleUntilUnix (mode : StaleMode) (e : Entry) (now : ℤ) (nowUnix : ℕ) : ℕ :=
  match mode with
  | .off => expiryUnix e now nowUnix
  | .unbounded => u64Max
  | .window w => satAdd nowUnix (satAdd e.ttl w - e.age now)

/-- Whether an entry is written: not an immortal one, not one that can serve no more, and
not one whose lengths do not fit their fields. -/
def carries (mode : StaleMode) (now : ℤ) (s : Slot) : Bool :=
  !s.entry.immortal && (s.entry.isFresh now || s.entry.isUsableStale now mode) &&
    ((utf8 s.key.qname).length < 2 ^ 16 && s.entry.wire.length < 2 ^ 32)

def toRecord (mode : StaleMode) (now : ℤ) (nowUnix : ℕ) (s : Slot) : SnapRecord where
  qname := s.key.qname
  qtype := s.key.qtype
  qclass := s.key.qclass
  kind :=
    match s.entry.kind with
    | .positive => 0
    | .negative => 1
  expiryUnix := Resolver.expiryUnix s.entry now nowUnix
  staleUntilUnix := Resolver.staleUntilUnix mode s.entry now nowUnix
  epoch := s.entry.epoch
  wire := s.entry.wire

/-- The loop of `snapshot`: it ends at the first entry that exceeds the budget. -/
def snapshotLoop (mode : StaleMode) (now : ℤ) (nowUnix budget : ℕ) :
    List Slot → Bytes → ℕ → Bytes × ℕ
  | [], out, count => (out, count)
  | s :: rest, out, count =>
    if !carries mode now s then snapshotLoop mode now nowUnix budget rest out count
    else
      let entry := encodeRecord (toRecord mode now nowUnix s)
      if out.length + entry.length > budget then (out, count)
      else
        snapshotLoop mode now nowUnix budget rest (out ++ entry) (min (count + 1) (2 ^ 32 - 1))

/-! ### The reader -/

def readRecord (cur : Bytes) : Option (SnapRecord × Bytes) :=
  (readBe 2 cur).bind fun (qnameLen, cur) =>
  (takeBytes qnameLen cur).bind fun (qnameBytes, cur) =>
  (fromUtf8 qnameBytes).bind fun qname =>
  (readBe 2 cur).bind fun (qtype, cur) =>
  (readBe 2 cur).bind fun (qclass, cur) =>
  (takeBytes 1 cur).bind fun (kindByte, cur) =>
  (readBe 8 cur).bind fun (expiry, cur) =>
  (readBe 8 cur).bind fun (staleUntil, cur) =>
  (readBe 8 cur).bind fun (epoch, cur) =>
  (readBe 4 cur).bind fun (wireLen, cur) =>
  (takeBytes wireLen cur).map fun (wire, cur) =>
    (⟨qname, qtype, qclass, kindByte.headD 0, expiry, staleUntil, epoch, wire⟩, cur)

/-- Ways in which the reader can panic. -/
inductive Panic where
  /-- `overflow when adding duration to instant`. -/
  | instantOverflow
  deriving DecidableEq

/-- What a frame becomes: nothing when its time is over, a fresh entry before its expiry,
and otherwise an entry with a deadline of its own. -/
def rehydrated (mode : StaleMode) (now : ℤ) (nowUnix : ℕ) (r : SnapRecord) :
    Except Panic (Option Entry) :=
  let kind := if r.kind = 1 then .negative else .positive
  if nowUnix < r.expiryUnix then
    .ok (some ⟨r.wire, now, r.expiryUnix - nowUnix, kind, r.epoch, false, none⟩)
  else if mode ≠ .off ∧ nowUnix < r.staleUntilUnix then
    let deadline := now + (r.staleUntilUnix - nowUnix : ℕ)
    if deadline > instantMax then .error .instantOverflow
    else .ok (some ⟨r.wire, now, 0, kind, r.epoch, false, some deadline⟩)
  else .ok none

namespace Cache

variable {hash : Key → ℕ}

def snapshot (c : Cache hash) (now : ℤ) (nowUnix budget : ℕ) : Bytes :=
  let out := snapshotLoop c.staleMode now nowUnix budget c.entries.reverse
    (snapVersion :: beBytes 4 0) 0
  -- the count is written over its placeholder
  out.1.take 1 ++ (beBytes 4 out.2 ++ out.1.drop 5)

/-- The loop of `restore_with`. -/
def restoreLoop (now : ℤ) (nowUnix : ℕ) (admits : Bytes → Bool) :
    ℕ → Bytes → Cache hash → ℕ → Except Panic (Cache hash × ℕ)
  | 0, _, c, restored => .ok (c, restored)
  | count + 1, cur, c, restored =>
    match readRecord cur with
    | none => .ok (c, restored)
    | some (r, cur) =>
      match rehydrated c.staleMode now nowUnix r with
      | .error p => .error p
      | .ok none => restoreLoop now nowUnix admits count cur c restored
      | .ok (some entry) =>
        if !admits r.wire then restoreLoop now nowUnix admits count cur c restored
        else restoreLoop now nowUnix admits count cur (c.insertEntry r.key entry) (restored + 1)

/-- `restore_with`: the cache afterwards and the number of entries admitted. -/
def restoreWith (c : Cache hash) (payload : Bytes) (now : ℤ) (nowUnix : ℕ)
    (admits : Bytes → Bool) : Except Panic (Cache hash × ℕ) :=
  match payload with
  | [] => .ok (c, 0)
  | ver :: rest =>
    if ver ≠ snapVersion then .ok (c, 0)
    else
      match readBe 4 rest with
      | none => .ok (c, 0)
      | some (count, cur) => restoreLoop now nowUnix admits count cur c 0

end Cache

/-! ### Frames -/

/-- The frames that can be read one after the other, at most `count`. -/
def recordsFrom : ℕ → Bytes → List SnapRecord
  | 0, _ => []
  | count + 1, cur =>
    match readRecord cur with
    | none => []
    | some (r, cur) => r :: recordsFrom count cur

/-- The frames of a payload. -/
def records (payload : Bytes) : List SnapRecord :=
  match payload with
  | [] => []
  | ver :: rest =>
    if ver ≠ snapVersion then []
    else
      match readBe 4 rest with
      | none => []
      | some (count, cur) => recordsFrom count cur

namespace Cache

variable {hash : Key → ℕ}

/-- What one frame does to the cache and the number of admitted entries. -/
def restoreRecord (now : ℤ) (nowUnix : ℕ) (admits : Bytes → Bool) (st : Cache hash × ℕ)
    (r : SnapRecord) : Except Panic (Cache hash × ℕ) :=
  match rehydrated st.1.staleMode now nowUnix r with
  | .error p => .error p
  | .ok none => .ok st
  | .ok (some entry) =>
    if admits r.wire then .ok (st.1.insertEntry r.key entry, st.2 + 1) else .ok st

theorem restoreLoop_eq (now : ℤ) (nowUnix : ℕ) (admits : Bytes → Bool) (count : ℕ) (cur : Bytes)
    (c : Cache hash) (restored : ℕ) :
    restoreLoop now nowUnix admits count cur c restored =
      (recordsFrom count cur).foldlM (restoreRecord now nowUnix admits) (c, restored) := by
  induction count generalizing cur c restored with
  | zero => rfl
  | succ count ih =>
    rw [restoreLoop, recordsFrom]
    cases hread : readRecord cur with
    | none => rfl
    | some w =>
      obtain ⟨r, cur⟩ := w
      rw [foldlM_cons]
      unfold restoreRecord
      dsimp only
      cases hr : rehydrated c.staleMode now nowUnix r with
      | error p => rfl
      | ok o =>
        cases o with
        | none => exact ih cur c restored
        | some entry =>
          cases admits r.wire with
          | false => exact ih cur c restored
          | true => exact ih cur (c.insertEntry r.key entry) (restored + 1)

theorem restoreWith_eq (c : Cache hash) (payload : Bytes) (now : ℤ) (nowUnix : ℕ)
    (admits : Bytes → Bool) :
    c.restoreWith payload now nowUnix admits =
      (records payload).foldlM (restoreRecord now nowUnix admits) (c, 0) := by
  unfold restoreWith records
  cases payload with
  | nil => rfl
  | cons ver rest =>
    dsimp only
    split
    · rfl
    · cases hcount : readBe 4 rest with
      | none => rfl
      | some w => exact restoreLoop_eq now nowUnix admits w.1 w.2 c 0

/-! ### Panics -/

/-- The frame is dead, fresh, or its deadline fits an `Instant`. -/
def Lands (mode : StaleMode) (now : ℤ) (nowUnix : ℕ) (r : SnapRecord) : Prop :=
  mode ≠ .off → r.expiryUnix ≤ nowUnix → nowUnix < r.staleUntilUnix →
    now + (r.staleUntilUnix - nowUnix : ℕ) ≤ instantMax

variable {now : ℤ} {nowUnix : ℕ} {r : SnapRecord}

theorem rehydrated_isOk_iff {mode : StaleMode} :
    (∃ o, rehydrated mode now nowUnix r = .ok o) ↔ Lands mode now nowUnix r := by
  unfold Lands
  fun_cases rehydrated with
  | case1 _ hfresh => exact ⟨fun _ _ hexp => absurd hfresh (by omega), fun _ => ⟨_, rfl⟩⟩
  | case2 hfresh hstale deadline hover =>
    refine ⟨fun ⟨_, h⟩ => (nomatch h), fun h => ?_⟩
    have hfits := h hstale.1 (by omega) hstale.2
    omega
  | case3 => exact ⟨fun _ _ _ _ => by omega, fun _ => ⟨_, rfl⟩⟩
  | case4 hfresh hstale =>
    exact ⟨fun _ hmode _ huntil => absurd ⟨hmode, huntil⟩ hstale, fun _ => ⟨_, rfl⟩⟩

@[simp] theorem staleMode_insertEntry (c : Cache hash) (key : Key) (entry : Entry) :
    (c.insertEntry key entry).staleMode = c.staleMode := rfl

@[simp] theorem cap_insertEntry (c : Cache hash) (key : Key) (entry : Entry) :
    (c.insertEntry key entry).cap = c.cap := rfl

theorem staleMode_of_restoreRecord {admits : Bytes → Bool} {st st' : Cache hash × ℕ}
    (h : restoreRecord now nowUnix admits st r = .ok st') : st'.1.staleMode = st.1.staleMode := by
  revert h
  fun_cases restoreRecord with
  | case1 => exact fun h => by cases h
  | _ => rintro ⟨⟩; rfl

theorem restoreRecord_isOk_iff (admits : Bytes → Bool) {st : Cache hash × ℕ} :
    (∃ st', restoreRecord now nowUnix admits st r = .ok st') ↔
      Lands st.1.staleMode now nowUnix r := by
  rw [← rehydrated_isOk_iff]
  unfold restoreRecord
  cases rehydrated st.1.staleMode now nowUnix r with
  | error p => exact ⟨fun ⟨_, h⟩ => (nomatch h), fun ⟨_, h⟩ => (nomatch h)⟩
  | ok o =>
    refine ⟨fun _ => ⟨o, rfl⟩, fun _ => ?_⟩
    cases o with
    | none => exact ⟨st, rfl⟩
    | some entry =>
      dsimp only
      split
      · exact ⟨_, rfl⟩
      · exact ⟨_, rfl⟩

/-- The fold goes through when every frame lands. -/
theorem foldlM_isOk_iff {admits : Bytes → Bool} (rs : List SnapRecord) (st : Cache hash × ℕ) :
    (∃ st', rs.foldlM (restoreRecord now nowUnix admits) st = .ok st') ↔
      ∀ r ∈ rs, Lands st.1.staleMode now nowUnix r := by
  induction rs generalizing st with
  | nil => exact ⟨fun _ r hr => (nomatch hr), fun _ => ⟨st, rfl⟩⟩
  | cons r rs ih =>
    rw [foldlM_cons, forall_mem_cons, ← restoreRecord_isOk_iff admits]
    cases hstep : restoreRecord now nowUnix admits st r with
    | error p => exact ⟨fun ⟨_, h⟩ => (nomatch h), fun ⟨⟨_, h⟩, _⟩ => (nomatch h)⟩
    | ok st₁ =>
      have hmode := staleMode_of_restoreRecord hstep
      have hrest := ih st₁
      rw [hmode] at hrest
      exact ⟨fun h => ⟨⟨st₁, rfl⟩, hrest.mp h⟩, fun h => hrest.mpr h.2⟩

/-- **A restore does not panic exactly when every frame that comes back stale has a
deadline that fits an `Instant`**, for every cache, payload, clock and gate. -/
theorem restoreWith_ok_iff (c : Cache hash) (payload : Bytes) (now : ℤ) (nowUnix : ℕ)
    (admits : Bytes → Bool) :
    (∃ st, c.restoreWith payload now nowUnix admits = .ok st) ↔
      ∀ r ∈ records payload, c.staleMode ≠ .off → r.expiryUnix ≤ nowUnix →
        nowUnix < r.staleUntilUnix → now + (r.staleUntilUnix - nowUnix : ℕ) ≤ instantMax := by
  rw [restoreWith_eq]
  exact foldlM_isOk_iff (records payload) (c, 0)

/-- A cache in unbounded mode stores an answer with thirty seconds to live and is written
out; the device comes up again an hour later. -/
theorem restoreWith_panics_on_own_snapshot :
    Except.map (fun _ => ()) ((withPolicy (fun k => k.qname.length) 16 0 0 0 u64Max).restoreWith
      (((withPolicy (fun k => k.qname.length) 16 0 0 0 u64Max).put true ⟨7, ['a'], 1, 1⟩
        [0, 7, 129, 128, 0, 1, 0, 1, 0, 0, 0, 0, 1, 97, 0, 0, 1, 0, 1,
          192, 12, 0, 1, 0, 1, 0, 0, 0, 30, 0, 4, 1, 2, 3, 4] 100 0).snapshot 110
            1700000000 4096)
      5 1700003600 (fun _ => true)) = .error .instantOverflow := by
  decide +kernel

end Cache

/-! ### The writer is read back -/

/-- Every field of the frame fits its width. -/
structure SnapRecord.Fits (r : SnapRecord) : Prop where
  qname : (utf8 r.qname).length < 256 ^ 2
  qtype : r.qtype < 256 ^ 2
  qclass : r.qclass < 256 ^ 2
  expiry : r.expiryUnix < 256 ^ 8
  staleUntil : r.staleUntilUnix < 256 ^ 8
  epoch : r.epoch < 256 ^ 8
  wire : r.wire.length < 256 ^ 4

theorem readBe_append_of_lt {w n : ℕ} (h : n < 256 ^ w) (bs : Bytes) :
    readBe w (beBytes w n ++ bs) = some (n, bs) := by
  rw [readBe_append, Nat.mod_eq_of_lt h]

theorem readRecord_encodeRecord {r : SnapRecord} (h : r.Fits) (rest : Bytes) :
    readRecord (encodeRecord r ++ rest) = some (r, rest) := by
  have hkind : ∀ bs : Bytes, takeBytes 1 (r.kind :: bs) = some ([r.kind], bs) := fun bs =>
    takeBytes_append [r.kind] bs
  simp only [readRecord, encodeRecord, append_assoc, cons_append, readBe_append_of_lt h.qname,
    readBe_append_of_lt h.qtype, readBe_append_of_lt h.qclass, readBe_append_of_lt h.expiry,
    readBe_append_of_lt h.staleUntil, readBe_append_of_lt h.epoch, readBe_append_of_lt h.wire,
    takeBytes_append, fromUtf8_utf8, hkind, bind_some, map_some]
  rfl

theorem readRecord_nil : readRecord [] = none := rfl

theorem recordsFrom_flatMap (rs : List SnapRecord) (count : ℕ) (h : ∀ r ∈ rs, r.Fits) :
    recordsFrom count (rs.flatMap encodeRecord) = rs.take count := by
  induction rs generalizing count with
  | nil =>
    cases count with
    | zero => rfl
    | succ count => rw [recordsFrom, flatMap_nil, readRecord_nil, take_nil]
  | cons r rs ih =>
    obtain ⟨hr, hrs⟩ := forall_mem_cons.mp h
    cases count with
    | zero => rfl
    | succ count =>
      rw [recordsFrom, flatMap_cons, readRecord_encodeRecord hr, take_succ_cons]
      dsimp only
      rw [ih count hrs]

/-- The frames that go out before the budget is used up. -/
def withinBudget (budget : ℕ) : ℕ → List SnapRecord → List SnapRecord
  | _, [] => []
  | used, r :: rs =>
    if used + (encodeRecord r).length > budget then []
    else r :: withinBudget budget (used + (encodeRecord r).length) rs

theorem prefix_withinBudget (budget : ℕ) (rs : List SnapRecord) (used : ℕ) :
    withinBudget budget used rs <+: rs := by
  induction rs generalizing used with
  | nil => exact prefix_refl _
  | cons r rs ih =>
    rw [withinBudget]
    split
    · exact nil_prefix
    · exact prefix_cons_inj r |>.mpr (ih _)

theorem withinBudget_eq_self {budget : ℕ} {rs : List SnapRecord} {used : ℕ}
    (h : used + (rs.flatMap encodeRecord).length ≤ budget) : withinBudget budget used rs = rs := by
  induction rs generalizing used with
  | nil => rfl
  | cons r rs ih =>
    rw [flatMap_cons, length_append] at h
    rw [withinBudget, if_neg (by omega), ih (by omega)]

/-- What the loop of `snapshot` adds to its buffer. -/
theorem snapshotLoop_eq (mode : StaleMode) (now : ℤ) (nowUnix budget : ℕ) (slots : List Slot)
    (out : Bytes) (count : ℕ) (hcount : count ≤ 2 ^ 32 - 1) :
    let rs := withinBudget budget out.length
      ((slots.filter (carries mode now)).map (toRecord mode now nowUnix))
    snapshotLoop mode now nowUnix budget slots out count =
      (out ++ rs.flatMap encodeRecord, min (count + rs.length) (2 ^ 32 - 1)) := by
  induction slots generalizing out count with
  | nil =>
    simp only [snapshotLoop, filter_nil, map_nil, withinBudget, flatMap_nil,
      append_nil, length_nil, Nat.add_zero, Nat.min_eq_left hcount]
  | cons s slots ih =>
    rw [snapshotLoop]
    cases hs : carries mode now s with
    | false =>
      have hskip : (s :: slots).filter (carries mode now) = slots.filter (carries mode now) :=
        filter_cons_of_neg (by simp [hs])
      rw [hskip]
      exact ih out count hcount
    | true =>
      rw [filter_cons_of_pos hs, map_cons, withinBudget, if_neg (show ¬ (!true) = true by simp)]
      dsimp only
      by_cases hfull : out.length + (encodeRecord (toRecord mode now nowUnix s)).length > budget
      · -- `break`: the entries behind are not tried, even if they would fit
        rw [if_pos hfull, if_pos hfull]
        simp only [flatMap_nil, append_nil, length_nil, Nat.add_zero, Nat.min_eq_left hcount]
      · have hnext := ih (out ++ encodeRecord (toRecord mode now nowUnix s))
          (min (count + 1) (2 ^ 32 - 1)) (Nat.min_le_right _ _)
        rw [length_append] at hnext
        rw [if_neg hfull, if_neg hfull, hnext, flatMap_cons, append_assoc, length_cons]
        congr 1
        omega

/-- What the type of a key or an entry says of its integers. -/
structure Slot.Typed (s : Slot) : Prop where
  qtype : s.key.qtype < 2 ^ 16
  qclass : s.key.qclass < 2 ^ 16
  epoch : s.entry.epoch < 2 ^ 64

theorem satAdd_lt (a b : ℕ) : satAdd a b < 256 ^ 8 := by
  unfold satAdd u64Max
  omega

theorem toRecord_fits {mode : StaleMode} {now : ℤ} {nowUnix : ℕ} {s : Slot} (htyped : s.Typed)
    (hs : carries mode now s = true) : (toRecord mode now nowUnix s).Fits := by
  simp only [carries, Bool.and_eq_true, decide_eq_true_eq] at hs
  obtain ⟨-, hqname, hwire⟩ := hs
  refine ⟨hqname, htyped.qtype, htyped.qclass, satAdd_lt _ _, ?_, htyped.epoch, hwire⟩
  show staleUntilUnix mode s.entry now nowUnix < 256 ^ 8
  unfold staleUntilUnix
  split
  · exact satAdd_lt _ _
  · unfold u64Max
    omega
  · exact satAdd_lt _ _

namespace Cache

variable {hash : Key → ℕ}

/-- The slots a snapshot carries, in the order it writes them. -/
def carriedSlots (c : Cache hash) (now : ℤ) : List Slot :=
  c.entries.reverse.filter (carries c.staleMode now)

/-- Their frames. -/
def frames (c : Cache hash) (now : ℤ) (nowUnix : ℕ) : List SnapRecord :=
  (c.carriedSlots now).map (toRecord c.staleMode now nowUnix)

theorem snapshot_eq (c : Cache hash) (now : ℤ) (nowUnix budget : ℕ) :
    let rs := withinBudget budget 5 (c.frames now nowUnix)
    c.snapshot now nowUnix budget =
      snapVersion :: (beBytes 4 (min rs.length (2 ^ 32 - 1)) ++ rs.flatMap encodeRecord) := by
  intro rs
  have hloop := snapshotLoop_eq c.staleMode now nowUnix budget c.entries.reverse
    (snapVersion :: beBytes 4 0) 0 (by omega)
  dsimp only at hloop
  rw [length_cons, length_beBytes, Nat.zero_add] at hloop
  rw [snapshot, hloop]
  rfl

/-- **A snapshot is read back as the frames that fit the budget**; the count field bounds
their number. -/
theorem records_snapshot {c : Cache hash} (htyped : ∀ s ∈ c.entries, s.Typed) (now : ℤ)
    (nowUnix budget : ℕ) :
    records (c.snapshot now nowUnix budget) =
      (withinBudget budget 5 (c.frames now nowUnix)).take (2 ^ 32 - 1) := by
  have hfits : ∀ r ∈ withinBudget budget 5 (c.frames now nowUnix), r.Fits := by
    intro r hr
    obtain ⟨s, hs, rfl⟩ := mem_map.mp ((prefix_withinBudget budget _ 5).subset hr)
    obtain ⟨hmem, hcarries⟩ := mem_filter.mp hs
    exact toRecord_fits (htyped s (mem_reverse.mp hmem)) hcarries
  rw [snapshot_eq]
  unfold records
  dsimp only
  rw [if_neg (not_not.mpr rfl), readBe_append_of_lt (by omega)]
  dsimp only
  rw [recordsFrom_flatMap _ _ hfits, take_eq_take_iff]
  omega

end Cache

/-! ### Where restored entries come from -/

/-- A frame comes back fresh before its expiry, or stale with a deadline of its own. -/
theorem rehydrated_eq_some {mode : StaleMode} {now : ℤ} {nowUnix : ℕ} {r : SnapRecord}
    {e : Entry} (h : rehydrated mode now nowUnix r = .ok (some e)) :
    e.wire = r.wire ∧ e.stored = now ∧ e.epoch = r.epoch ∧ e.immortal = false ∧
      ((nowUnix < r.expiryUnix ∧ e.ttl = r.expiryUnix - nowUnix ∧ e.staleDeadline = none) ∨
       (mode ≠ .off ∧ r.expiryUnix ≤ nowUnix ∧ nowUnix < r.staleUntilUnix ∧ e.ttl = 0 ∧
          e.staleDeadline = some (now + (r.staleUntilUnix - nowUnix : ℕ)))) := by
  revert h
  fun_cases rehydrated with
  | case1 _ hfresh =>
    rintro ⟨⟩
    exact ⟨rfl, rfl, rfl, rfl, .inl ⟨hfresh, rfl, rfl⟩⟩
  | case3 _ hfresh hstale =>
    rintro ⟨⟩
    exact ⟨rfl, rfl, rfl, rfl, .inr ⟨hstale.1, by omega, hstale.2, rfl, rfl⟩⟩
  | _ => exact fun h => by cases h

namespace Cache

variable {hash : Key → ℕ}

variable {admits : Bytes → Bool} {now : ℤ} {nowUnix : ℕ} {r : SnapRecord} {n : ℕ}
  {c c' : Cache hash} {payload : Bytes}

/-- A slot after a frame was there before, or is the frame's, admitted by the gate. -/
theorem mem_entries_restoreRecord {st st' : Cache hash × ℕ}
    (h : restoreRecord now nowUnix admits st r = .ok st') {s : Slot} (hs : s ∈ st'.1.entries) :
    s ∈ st.1.entries ∨ (s.key = r.key ∧ admits r.wire = true ∧
      rehydrated st.1.staleMode now nowUnix r = .ok (some s.entry)) := by
  revert h
  fun_cases restoreRecord with
  | case1 => exact fun h => by cases h
  | case3 entry hentry hadmit =>
    rintro ⟨⟩
    obtain hold | rfl := mem_entries_insertEntry hs
    · exact .inl hold
    · exact .inr ⟨rfl, hadmit, hentry⟩
  | _ => rintro ⟨⟩; exact .inl hs

/-! ### A restore that panics -/

/-- The cache a restore leaves behind when it may end in a panic: the frames before that
are in. -/
def restoreUpTo (now : ℤ) (nowUnix : ℕ) (admits : Bytes → Bool) :
    List SnapRecord → Cache hash → Cache hash
  | [], c => c
  | r :: rs, c =>
    match restoreRecord now nowUnix admits (c, 0) r with
    | .error _ => c
    | .ok st => restoreUpTo now nowUnix admits rs st.1

/-- The number of entries restored so far does not matter. -/
theorem restoreRecord_count {c : Cache hash} {st : Cache hash × ℕ}
    (h : restoreRecord now nowUnix admits (c, n) r = .ok st) :
    ∃ m, restoreRecord now nowUnix admits (c, 0) r = .ok (st.1, m) := by
  unfold restoreRecord at h ⊢
  dsimp only at h ⊢
  split at h
  · cases h
  · cases h
    exact ⟨0, rfl⟩
  · split at h
    · next hadmits =>
      cases h
      exact ⟨0 + 1, if_pos hadmits⟩
    · next hadmits =>
      cases h
      exact ⟨0, if_neg hadmits⟩

theorem restoreUpTo_of_foldlM {rs : List SnapRecord} {st st' : Cache hash × ℕ}
    (h : rs.foldlM (restoreRecord now nowUnix admits) st = .ok st') :
    restoreUpTo now nowUnix admits rs st.1 = st'.1 := by
  induction rs generalizing st with
  | nil =>
    cases h
    rfl
  | cons r rs ih =>
    rw [foldlM_cons] at h
    cases hstep : restoreRecord now nowUnix admits st r with
    | error p => rw [hstep] at h; cases h
    | ok st₁ =>
      rw [hstep] at h
      obtain ⟨m, hm⟩ := restoreRecord_count hstep
      rw [restoreUpTo, hm]
      have hrest := ih (show rs.foldlM (restoreRecord now nowUnix admits) st₁ = .ok st' from h)
      exact hrest

/-- Without a panic it is the restored cache. -/
theorem restoreUpTo_of_restoreWith (h : c.restoreWith payload now nowUnix admits = .ok (c', n)) :
    restoreUpTo now nowUnix admits (records payload) c = c' := by
  rw [restoreWith_eq] at h
  exact restoreUpTo_of_foldlM h

theorem staleMode_restoreUpTo (rs : List SnapRecord) (c : Cache hash) :
    (restoreUpTo now nowUnix admits rs c).staleMode = c.staleMode := by
  induction rs generalizing c with
  | nil => rfl
  | cons r rs ih =>
    rw [restoreUpTo]
    split
    · rfl
    · next st hstep => exact (ih st.1).trans (staleMode_of_restoreRecord hstep)

/-- A slot left behind was there before, or comes from an admitted frame. -/
theorem mem_entries_restoreUpTo {rs : List SnapRecord} {c : Cache hash} {s : Slot}
    (hs : s ∈ (restoreUpTo now nowUnix admits rs c).entries) :
    s ∈ c.entries ∨ ∃ r ∈ rs, s.key = r.key ∧ admits r.wire = true ∧
      rehydrated c.staleMode now nowUnix r = .ok (some s.entry) := by
  induction rs generalizing c with
  | nil => exact .inl hs
  | cons r rs ih =>
    rw [restoreUpTo] at hs
    split at hs
    · exact .inl hs
    next st hstep =>
    have hmode := staleMode_of_restoreRecord hstep
    rcases ih hs with hmem | ⟨r', hr', hkey, hadmits, hentry⟩
    · rcases mem_entries_restoreRecord hstep hmem with hold | hnew
      · exact .inl hold
      · exact .inr ⟨r, mem_cons_self .., hnew⟩
    · -- the later frames were judged in the mode of the cache they met, which is the first one's
      rw [hmode] at hentry
      exact .inr ⟨r', mem_cons_of_mem _ hr', hkey, hadmits, hentry⟩

/-- **Every slot after a restore was there before or comes from an admitted frame.** -/
theorem mem_entries_restoreWith
    (h : c.restoreWith payload now nowUnix admits = .ok (c', n)) {s : Slot}
    (hs : s ∈ c'.entries) :
    s ∈ c.entries ∨ ∃ r ∈ records payload, s.key = r.key ∧ admits r.wire = true ∧
      rehydrated c.staleMode now nowUnix r = .ok (some s.entry) := by
  rw [← restoreUpTo_of_restoreWith h] at hs
  exact mem_entries_restoreUpTo hs

theorem staleMode_of_restoreWith
    (h : c.restoreWith payload now nowUnix admits = .ok (c', n)) : c'.staleMode = c.staleMode := by
  rw [← restoreUpTo_of_restoreWith h]
  exact staleMode_restoreUpTo (records payload) c

theorem mem_records_snapshot {c : Cache hash} (htyped : ∀ s ∈ c.entries, s.Typed)
    {nowUnix budget : ℕ} (hr : r ∈ records (c.snapshot now nowUnix budget)) :
    ∃ s ∈ c.entries, carries c.staleMode now s = true ∧
      r = toRecord c.staleMode now nowUnix s := by
  rw [records_snapshot htyped] at hr
  obtain ⟨s, hs, rfl⟩ := mem_map.mp ((prefix_withinBudget budget _ 5).subset (mem_of_mem_take hr))
  obtain ⟨hmem, hcarries⟩ := mem_filter.mp hs
  exact ⟨s, mem_reverse.mp hmem, hcarries, rfl⟩

end Cache

end Resolver
end TortaCore
