import TortaCore.Text.Utf8

/-!
# The durable tier

The records that a component keeps over a restart (`runtime_tier.rs`): a payload behind a
header with its digest, in a file that is replaced as a whole.

A write first makes a second file and then renames it.  It can fail at each of the three
steps, and whatever it leaves behind is not the record.

## Main definitions

* `frame`, `unframe`: the record on disk.
* `DurableTier`, with `withDir`, `writeThrough` and `rehydrate`.
-/

namespace TortaCore
namespace Runtime

open Text List

/-! ### The frame -/

/-- `"TORTAW5\0"`. -/
def magic : Bytes := [0x54, 0x4F, 0x52, 0x54, 0x41, 0x57, 0x35, 0]

def version : UInt8 := 1

def headerLen : ℕ := 8 + 1 + 32

def maxBlobBytes : ℕ := 256 * 1024

/-- A digest of 32 bytes; SHA-256 in the code. -/
structure SpineDigest where
  digest : Bytes → Bytes
  length_digest : ∀ payload, (digest payload).length = 32

section

variable (spine : SpineDigest)

def frame (payload : Bytes) : Bytes := magic ++ (version :: (spine.digest payload ++ payload))

def unframe (raw : Bytes) : Option Bytes :=
  if raw.length < headerLen then none
  else if raw.take 8 ≠ magic then none
  else if raw[8]? ≠ some version then none
  else
    let stored := (raw.take headerLen).drop 9
    let payload := raw.drop headerLen
    if payload.length > maxBlobBytes then none
    else if spine.digest payload ≠ stored then none
    else some payload

theorem frame_parts (payload : Bytes) :
    (frame spine payload).length = headerLen + payload.length ∧
    (frame spine payload).take 8 = magic ∧ (frame spine payload)[8]? = some version ∧
    ((frame spine payload).take headerLen).drop 9 = spine.digest payload ∧
    (frame spine payload).drop headerLen = payload := by
  have hlen := spine.length_digest payload
  have hdrop : (frame spine payload).drop 9 = spine.digest payload ++ payload := rfl
  refine ⟨?_, rfl, rfl, ?_, ?_⟩
  · simp only [frame, magic, headerLen, length_append, length_cons, length_nil, hlen]
    omega
  · rw [drop_take, hdrop, take_append_of_le_length (by simp [headerLen, hlen])]
    exact take_of_length_le (by simp [headerLen, hlen])
  · have hsplit : headerLen = 9 + 32 := rfl
    rw [hsplit, ← drop_drop, hdrop, ← hlen, drop_left]

/-- **What is accepted is well formed**: the frame of a payload within the bound. -/
theorem unframe_eq_some_iff {raw payload : Bytes} :
    unframe spine raw = some payload ↔
      raw = frame spine payload ∧ payload.length ≤ maxBlobBytes := by
  constructor
  · fun_cases unframe with
    | case6 hlen hmagic hversion stored rest hbound hdigest =>
      intro h
      obtain rfl := Option.some.inj h
      refine ⟨?_, Nat.le_of_not_lt hbound⟩
      rw [ne_eq, not_not] at hmagic hversion hdigest
      -- the header is the magic, the version and the stored digest
      have hrest : raw.drop 8 = version :: raw.drop 9 := by
        obtain ⟨hlt, hget⟩ := List.getElem?_eq_some_iff.mp hversion
        rw [List.drop_eq_getElem_cons hlt, hget]
      have hstored : stored = (raw.drop 9).take 32 := List.drop_take (i := 9) (j := headerLen)
      have hpayload : (raw.drop 9).drop 32 = rest := List.drop_drop
      rw [frame, hdigest, ← hmagic, hstored, ← hpayload, List.take_append_drop, ← hrest,
        List.take_append_drop]
    | _ => exact fun h => by cases h
  · rintro ⟨rfl, hbound⟩
    obtain ⟨hlen, hmagic, hversion, hdigest, hpayload⟩ := frame_parts spine payload
    have hlong : ¬ (frame spine payload).length < headerLen := by omega
    rw [unframe, if_neg hlong, if_neg (not_not.mpr hmagic), if_neg (not_not.mpr hversion)]
    rw [hpayload, if_neg (Nat.not_lt.mpr hbound), if_neg (not_not.mpr hdigest.symm)]

end

/-! ### Files -/

/-- The files, by directory and name. -/
abbrev Disk := Str → Str → Option Bytes

/-- Put a file in its place, or remove it. -/
def Disk.put (disk : Disk) (dir name : Str) (file : Option Bytes) : Disk :=
  fun dir' name' => if dir' = dir ∧ name' = name then file else disk dir' name'

@[simp] theorem Disk.put_self (disk : Disk) (dir name : Str) (file : Option Bytes) :
    disk.put dir name file dir name = file := if_pos ⟨rfl, rfl⟩

theorem Disk.put_of_ne (disk : Disk) {dir dir' name name' : Str} (file : Option Bytes)
    (h : name' ≠ name) : disk.put dir name file dir' name' = disk dir' name' :=
  if_neg fun hboth => h hboth.2

/-- Where a write can fail. -/
inductive IoFault where
  | createDir
  /-- Some of the bytes are in the second file. -/
  | write (cut : Bytes)
  | rename

def tmpName (name : Str) : Str := '.' :: (name ++ ".tmp".toList)

/-- Write a second file and rename it, and say whether that succeeded. -/
def writeAtomic (fault : Option IoFault) (disk : Disk) (dir name : Str) (bytes : Bytes) :
    Bool × Disk :=
  match fault with
  | some .createDir => (false, disk)
  | some (.write cut) => (false, disk.put dir (tmpName name) (some cut))
  | some .rename => (false, disk.put dir (tmpName name) none)
  | none => (true, (disk.put dir (tmpName name) none).put dir name (some bytes))

theorem tmpName_ne (name : Str) : name ≠ tmpName name := by
  intro h
  have hlen := congrArg length h
  rw [tmpName, length_cons, length_append] at hlen
  omega

theorem writeAtomic_fst (fault : Option IoFault) (disk : Disk) (dir name : Str) (bytes : Bytes) :
    (writeAtomic fault disk dir name bytes).1 = fault.isNone := by
  rcases fault with - | (- | - | -) <;> rfl

/-- Of all files but the second one, a write changes at most the one it is for. -/
theorem writeAtomic_file (fault : Option IoFault) (disk : Disk) {dir dir' name name' : Str}
    (bytes : Bytes) (h : name' ≠ tmpName name) :
    (writeAtomic fault disk dir name bytes).2 dir' name' =
      if fault.isNone ∧ dir' = dir ∧ name' = name then some bytes else disk dir' name' := by
  rcases fault with - | (- | - | -)
  · simp only [writeAtomic, Option.isNone_none, true_and]
    rw [Disk.put, disk.put_of_ne _ h]
  · rfl
  · simpa [writeAtomic] using disk.put_of_ne _ h
  · simpa [writeAtomic] using disk.put_of_ne _ h

theorem writeAtomic_of_fault (fault : IoFault) (disk : Disk) (dir name : Str) (bytes : Bytes) :
    (writeAtomic (some fault) disk dir name bytes).1 = false ∧
    (writeAtomic (some fault) disk dir name bytes).2 dir name = disk dir name :=
  ⟨writeAtomic_fst _ _ _ _ _, by
    rw [writeAtomic_file _ _ _ (tmpName_ne name), if_neg (by simp)]⟩

/-! ### The tier -/

/-- The characters of a file's name, at most 64 of them; dots alone are no name. -/
def sanitizeName (name : Str) : Str :=
  let out := (name.take 64).map fun ch =>
    if ch.isAlphanum || ch == '.' || ch == '_' || ch == '-' then ch else '_'
  if out.isEmpty || out.all (· == '.') then "record".toList else out

/-- A name leads nowhere else: it has no separator, and is not made of dots. -/
theorem sanitizeName_flat (name : Str) :
    '/' ∉ sanitizeName name ∧ ∃ ch ∈ sanitizeName name, ch ≠ '.' := by
  rw [sanitizeName]
  split
  · exact ⟨by decide, 'r', by decide, by decide⟩
  next h =>
  rw [Bool.not_eq_true, Bool.or_eq_false_iff, all_eq_false] at h
  obtain ⟨-, ch, hch, hdot⟩ := h
  refine ⟨fun hslash => ?_, ch, hch, by simpa using hdot⟩
  obtain ⟨c, -, hc⟩ := mem_map.mp hslash
  split at hc
  · next hplain =>
    subst hc
    exact absurd hplain (by decide)
  · exact absurd hc (by decide)

/-- A record of one name in one directory. -/
structure DurableTier where
  dir : Str
  name : Str

inductive WriteReject where
  | tooLarge
  | ioError
  deriving DecidableEq

namespace DurableTier

def withDir (dir name : Str) : DurableTier := ⟨dir, sanitizeName name⟩

variable (spine : SpineDigest)

def writeThrough (fault : Option IoFault) (tier : DurableTier) (disk : Disk) (payload : Bytes) :
    Except WriteReject Unit × Disk :=
  if payload.length > maxBlobBytes then (.error .tooLarge, disk)
  else
    match writeAtomic fault disk tier.dir tier.name (frame spine payload) with
    | (true, disk) => (.ok (), disk)
    | (false, disk) => (.error .ioError, disk)

def rehydrate (tier : DurableTier) (disk : Disk) : Option Bytes :=
  (disk tier.dir tier.name).bind (unframe spine)

/-- **A write is read back, or changes nothing.** -/
theorem rehydrate_writeThrough (fault : Option IoFault) (tier : DurableTier) (disk : Disk)
    (payload : Bytes) :
    tier.rehydrate spine (tier.writeThrough spine fault disk payload).2 =
      if payload.length ≤ maxBlobBytes ∧ fault.isNone then some payload
      else tier.rehydrate spine disk := by
  unfold writeThrough
  by_cases hbound : payload.length ≤ maxBlobBytes
  · rw [if_neg (Nat.not_lt.mpr hbound)]
    cases fault with
    | none =>
      rw [if_pos ⟨hbound, rfl⟩]
      simp only [writeAtomic, rehydrate, Disk.put_self, Option.bind_some]
      exact (unframe_eq_some_iff spine).mpr ⟨rfl, hbound⟩
    | some fault =>
      obtain ⟨hfalse, hfile⟩ :=
        writeAtomic_of_fault fault disk tier.dir tier.name (frame spine payload)
      rw [if_neg (by simp)]
      cases hwrite : writeAtomic (some fault) disk tier.dir tier.name (frame spine payload) with
      | mk done after =>
        rw [hwrite] at hfalse hfile
        dsimp only at hfalse hfile
        subst hfalse
        dsimp only
        rw [rehydrate, rehydrate, hfile]
  · rw [if_pos (Nat.lt_of_not_le hbound), if_neg (fun h => hbound h.1)]

end DurableTier

end Runtime
end TortaCore
