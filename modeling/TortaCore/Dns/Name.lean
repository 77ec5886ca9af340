import TortaCore.Machine.Loop
import TortaCore.Text.Slice
import TortaCore.Text.Utf8
import TortaCore.Wire.Cursor

/-!
# Names on the wire

`read_name` walks the length-prefixed labels of a name, follows compression pointers
(sixteen at most), joins the labels with dots and decodes the result: lossily from
UTF-8, then in lower case.  `encode_name_uncompressed` writes such a name back.

What a name at an offset *is* (RFC 1035, section 4.1.4) is the relation `LabelsAt`: a
list of raw labels, with no limit on length or jumps and no decoding.
-/

namespace TortaCore
namespace Dns

open Machine Text Wire List Option

def maxLabelLen : ℕ := 63

def maxNameLen : ℕ := 255

def maxPointerJumps : ℕ := 16

/-- The byte of `'.'`. -/
def dot : UInt8 := 0x2E

/-- The two high bits of a length byte mark a compression pointer. -/
def isPointer (len : UInt8) : Bool := len &&& 0xC0 == 0xC0

/-- The 14-bit offset of a compression pointer. -/
def pointerTarget (len lo : UInt8) : ℕ := ((len &&& 0x3F).toNat <<< 8) ||| lo.toNat

/-- Append a label, with a dot in front when something is there already. -/
def pushLabel (labels l : Bytes) : Bytes :=
  (if labels.isEmpty then labels else labels ++ [dot]) ++ l

/-- The variables of the loop of `read_name`. -/
structure NameState where
  labels : Bytes
  pos : ℕ
  jumps : ℕ
  /-- The stream position after the name, frozen at the first pointer. -/
  after : Option ℕ

def NameState.start (pos : ℕ) : NameState := ⟨[], pos, 0, none⟩

/-- `&buf[pos..pos + n]`; `none` is the panic of a slice that ends behind the buffer. -/
def slice? (buf : Bytes) (pos n : ℕ) : Option Bytes :=
  if pos + n > buf.length then none else some (bytesAt buf pos n)

/-- One turn of the loop: it fails, returns the joined labels and the position after
the name, or goes on; `none` is a panic. -/
def nameTurn (buf : Bytes) (s : NameState) : Option (Turn NameState (Option (Bytes × ℕ))) :=
  match buf[s.pos]? with
  | none => some (.halt none)
  | some len =>
    if len = 0 then some (.halt (some (s.labels, s.after.getD (s.pos + 1))))
    else if isPointer len then
      match buf[s.pos + 1]? with
      | none => some (.halt none)
      | some lo =>
        let ptr := pointerTarget len lo
        let jumps := s.jumps + 1
        -- a pointer may lead forward; only the number of jumps is bounded
        if jumps > maxPointerJumps ∨ ptr ≥ buf.length then some (.halt none)
        else some (.next ⟨s.labels, ptr, jumps, some (s.after.getD (s.pos + 2))⟩)
    else if len.toNat > maxLabelLen then some (.halt none)
    else
      let stop := s.pos + 1 + len.toNat
      if stop > buf.length then some (.halt none)
      else
        match slice? buf (s.pos + 1) len.toNat with
        | none => none
        | some label =>
          let labels := pushLabel s.labels label
          if labels.length > maxNameLen then some (.halt none)
          else some (.next ⟨labels, stop, s.jumps, s.after⟩)

/-- The turn without the panic, which never comes (`nameTurn_eq`). -/
def nameStep (buf : Bytes) (s : NameState) : Turn NameState (Option (Bytes × ℕ)) :=
  (nameTurn buf s).getD (.halt none)

/-- Every turn follows one of sixteen pointers or adds to at most 255 bytes. -/
def nameFuel : ℕ := 274

/-- The joined labels at an offset, before they are decoded. -/
def readRaw (buf : Bytes) (start : ℕ) : Option (Bytes × ℕ) :=
  (loop (nameStep buf) nameFuel (.start start)).join

/-- `read_name`. -/
def readName (buf : Bytes) (start : ℕ) : Option (Str × ℕ) :=
  (readRaw buf start).map fun r => (toLowercase (fromUtf8Lossy r.1), r.2)

/-! ### What a turn does -/

variable {buf : Bytes} {s : NameState} {name : Str}

/-- **No turn panics**: the label that is copied ends inside the buffer. -/
theorem nameTurn_eq (buf : Bytes) (s : NameState) : nameTurn buf s = some (nameStep buf s) := by
  rw [nameStep]
  fun_cases nameTurn with
  | case8 len hlen hz hp hlab stop hend hslice =>
    rw [slice?, if_neg hend] at hslice
    cases hslice
  | _ => rfl

/-- A turn that goes on follows a pointer or takes a label. -/
theorem nameStep_eq_next {s t : NameState} (h : nameStep buf s = .next t) :
    (∃ len lo, buf[s.pos]? = some len ∧ len ≠ 0 ∧ isPointer len = true ∧
      buf[s.pos + 1]? = some lo ∧ s.jumps + 1 ≤ maxPointerJumps ∧
      pointerTarget len lo < buf.length ∧
      t = ⟨s.labels, pointerTarget len lo, s.jumps + 1, some (s.after.getD (s.pos + 2))⟩) ∨
    (∃ len, buf[s.pos]? = some len ∧ len ≠ 0 ∧ isPointer len = false ∧
      len.toNat ≤ maxLabelLen ∧ s.pos + 1 + len.toNat ≤ buf.length ∧
      (pushLabel s.labels (bytesAt buf (s.pos + 1) len.toNat)).length ≤ maxNameLen ∧
      t = ⟨pushLabel s.labels (bytesAt buf (s.pos + 1) len.toNat), s.pos + 1 + len.toNat,
        s.jumps, s.after⟩) := by
  have hturn := nameTurn_eq buf s
  rw [h] at hturn
  revert hturn
  fun_cases nameTurn with
  | case5 len hlen hz hp lo hlo ptr jumps hok =>
    rintro ⟨⟩
    exact .inl ⟨len, lo, hlen, hz, hp, hlo, by omega, by omega, rfl⟩
  | case10 len hlen hz hp hlab stop hend label hslice labels hmax =>
    rintro ⟨⟩
    rw [slice?, if_neg hend] at hslice
    cases hslice
    exact .inr ⟨len, hlen, hz, by simpa using hp, by omega, by omega, Nat.not_lt.mp hmax, rfl⟩
  | _ => exact fun h => by cases h

/-- A turn that succeeds stands on the root label. -/
theorem nameStep_eq_done {r : Bytes × ℕ} (h : nameStep buf s = .halt (some r)) :
    buf[s.pos]? = some 0 ∧ r = (s.labels, s.after.getD (s.pos + 1)) := by
  have hturn := nameTurn_eq buf s
  rw [h] at hturn
  revert hturn
  fun_cases nameTurn with
  | case2 hlen =>
    rintro ⟨⟩
    exact ⟨hlen, rfl⟩
  -- every other turn fails or goes on
  | _ => exact fun h => by cases h

theorem nameStep_root (h : buf[s.pos]? = some 0) :
    nameStep buf s = .halt (some (s.labels, s.after.getD (s.pos + 1))) := by
  simp [nameStep, nameTurn, h]

theorem nameStep_pointer {len lo : UInt8}
    (hlen : buf[s.pos]? = some len) (hz : len ≠ 0) (hp : isPointer len = true)
    (hlo : buf[s.pos + 1]? = some lo) (hj : s.jumps + 1 ≤ maxPointerJumps)
    (hptr : pointerTarget len lo < buf.length) :
    nameStep buf s =
      .next ⟨s.labels, pointerTarget len lo, s.jumps + 1, some (s.after.getD (s.pos + 2))⟩ := by
  have hok : ¬ (s.jumps + 1 > maxPointerJumps ∨ pointerTarget len lo ≥ buf.length) := by omega
  simp only [nameStep, nameTurn, hlen, hz, hp, hlo, hok, if_true, if_false, getD_some]

theorem nameStep_label {len : UInt8}
    (hlen : buf[s.pos]? = some len) (hz : len ≠ 0) (hp : isPointer len = false)
    (hlab : len.toNat ≤ maxLabelLen) (hend : s.pos + 1 + len.toNat ≤ buf.length)
    (hmax : (pushLabel s.labels (bytesAt buf (s.pos + 1) len.toNat)).length ≤ maxNameLen) :
    nameStep buf s = .next ⟨pushLabel s.labels (bytesAt buf (s.pos + 1) len.toNat),
      s.pos + 1 + len.toNat, s.jumps, s.after⟩ := by
  simp only [nameStep, nameTurn, slice?, hlen, hz, hp, Nat.not_lt.mpr hlab, Nat.not_lt.mpr hend,
    Nat.not_lt.mpr hmax, gt_iff_lt, Bool.false_eq_true, if_false, getD_some]

theorem nameStep_overlong {len : UInt8}
    (hlen : buf[s.pos]? = some len) (hz : len ≠ 0) (hp : isPointer len = false)
    (hlab : len.toNat ≤ maxLabelLen) (hend : s.pos + 1 + len.toNat ≤ buf.length)
    (hmax : ¬ (pushLabel s.labels (bytesAt buf (s.pos + 1) len.toNat)).length ≤ maxNameLen) :
    nameStep buf s = .halt none := by
  simp only [nameStep, nameTurn, slice?, hlen, hz, hp, Nat.not_lt.mpr hlab, Nat.not_lt.mpr hend,
    Nat.not_le.mp hmax, gt_iff_lt, Bool.false_eq_true, if_false, if_true, getD_some]

/-! ### The budget -/

/-- The pointers and bytes a walk may still take. -/
def NameState.measure (s : NameState) : ℕ :=
  (maxPointerJumps + 1 - s.jumps) + (maxNameLen + 1 - s.labels.length)

theorem length_pushLabel_ge (labels l : Bytes) :
    labels.length + l.length ≤ (pushLabel labels l).length := by
  unfold pushLabel
  split <;> simp

theorem measure_lt_of_nameStep (s t : NameState) (h : nameStep buf s = .next t) :
    t.measure < s.measure := by
  obtain ⟨len, lo, -, -, -, -, hj, -, rfl⟩ | ⟨len, -, hz, -, -, hend, hmax, rfl⟩ :=
    nameStep_eq_next h
  · simp only [NameState.measure]
    omega
  · have hge := length_pushLabel_ge s.labels (bytesAt buf (s.pos + 1) len.toNat)
    rw [length_bytesAt hend] at hge
    have hpos : len.toNat ≠ 0 := fun h0 => hz (UInt8.toNat_inj.mp h0)
    simp only [NameState.measure]
    omega

theorem measure_start_lt (pos : ℕ) : (NameState.start pos).measure < nameFuel := by
  simp [NameState.measure, NameState.start, maxPointerJumps, maxNameLen, nameFuel]

variable {start after : ℕ}

/-- The budget never decides: `readRaw` is the loop of `read_name` run to its end, also
where it fails. -/
theorem readRaw_eq_iff {r : Option (Bytes × ℕ)} :
    readRaw buf start = r ↔ Evaluates (nameStep buf) (.start start) r :=
  join_loop_eq_iff NameState.measure measure_lt_of_nameStep (measure_start_lt start)

theorem readName_eq_some_iff :
    readName buf start = some (name, after) ↔
      ∃ raw, Evaluates (nameStep buf) (.start start) (some (raw, after)) ∧
        name = toLowercase (fromUtf8Lossy raw) := by
  simp only [readName, map_eq_some_iff, readRaw_eq_iff, Prod.mk.injEq, Prod.exists]
  constructor
  · rintro ⟨raw, a, h, hname, rfl⟩
    exact ⟨raw, h, hname.symm⟩
  · rintro ⟨raw, h, rfl⟩
    exact ⟨raw, after, h, rfl, rfl⟩

/-! ### Raw labels -/

/-- The raw labels of the name at an offset. -/
inductive LabelsAt (buf : Bytes) : ℕ → List Bytes → Prop where
  | root {pos} : buf[pos]? = some 0 → LabelsAt buf pos []
  | pointer {pos len lo ls} : buf[pos]? = some len → isPointer len = true →
      buf[pos + 1]? = some lo → LabelsAt buf (pointerTarget len lo) ls → LabelsAt buf pos ls
  | label {pos len ls} : buf[pos]? = some len → len ≠ 0 → len.toNat ≤ maxLabelLen →
      pos + 1 + len.toNat ≤ buf.length → LabelsAt buf (pos + 1 + len.toNat) ls →
      LabelsAt buf pos (bytesAt buf (pos + 1) len.toNat :: ls)

theorem not_isPointer_zero : isPointer 0 = false := by decide

theorem not_isPointer_of_le {len : UInt8} (h : len.toNat ≤ maxLabelLen) :
    isPointer len = false := by
  have hall : ∀ n < 64, isPointer (UInt8.ofNat n) = false := by decide
  have hlen := hall len.toNat (by unfold maxLabelLen at h; omega)
  rwa [UInt8.ofNat_toNat] at hlen

theorem LabelsAt.unique {pos : ℕ} {ls ms : List Bytes} (hl : LabelsAt buf pos ls)
    (hm : LabelsAt buf pos ms) : ls = ms := by
  induction hl generalizing ms with
  | root h =>
    cases hm with
    | root => rfl
    | _ => grind [not_isPointer_zero]
  | pointer h hp hlo _ ih =>
    cases hm with
    | pointer h' _ hlo' hrest =>
      cases some.inj (h.symm.trans h')
      cases some.inj (hlo.symm.trans hlo')
      exact ih hrest
    | _ => grind [not_isPointer_zero, not_isPointer_of_le]
  | label h hz hle _ _ ih =>
    cases hm with
    | label h' _ _ _ hrest =>
      cases some.inj (h.symm.trans h')
      rw [ih hrest]
    | _ => grind [not_isPointer_of_le]

/-- No label of a name is empty: the empty label is its end. -/
theorem LabelsAt.ne_nil {pos : ℕ} {ls : List Bytes} (h : LabelsAt buf pos ls) :
    ∀ l ∈ ls, l ≠ [] := by
  induction h with
  | root => intro l hl; cases hl
  | pointer _ _ _ _ ih => exact ih
  | @label pos len ls _ hz _ hend _ ih =>
    intro l hl
    obtain rfl | hl := mem_cons.mp hl
    · apply ne_nil_of_length_pos
      rw [length_bytesAt hend]
      exact Nat.pos_of_ne_zero fun h0 => hz (UInt8.toNat_inj.mp h0)
    · exact ih l hl

/-- A walk that succeeds has pushed the raw labels one after the other. -/
theorem labelsAt_of_evaluates {raw : Bytes} (h : Evaluates (nameStep buf) s (some (raw, after))) :
    ∃ ls, LabelsAt buf s.pos ls ∧ raw = ls.foldl pushLabel s.labels := by
  generalize hr : some (raw, after) = r at h
  induction h with
  | halt hs =>
    subst hr
    obtain ⟨hz, heq⟩ := nameStep_eq_done hs
    exact ⟨[], .root hz, congrArg Prod.fst heq⟩
  | next hs _ ih =>
    obtain ⟨ls, hls, hraw⟩ := ih hr
    obtain ⟨len, lo, hlen, -, hp, hlo, -, -, rfl⟩ | ⟨len, hlen, hz, -, hle, hend, -, rfl⟩ :=
      nameStep_eq_next hs
    · exact ⟨ls, .pointer hlen hp hlo hls, hraw⟩
    · exact ⟨_ :: ls, .label hlen hz hle hend hls, hraw⟩

theorem length_raw_le {raw : Bytes} (h : Evaluates (nameStep buf) s (some (raw, after)))
    (hs : s.labels.length ≤ maxNameLen) : raw.length ≤ maxNameLen := by
  generalize hr : some (raw, after) = r at h
  induction h with
  | halt hdone =>
    subst hr
    obtain ⟨-, heq⟩ := nameStep_eq_done hdone
    cases heq
    exact hs
  | next hnext _ ih =>
    obtain ⟨len, lo, -, -, -, -, -, -, rfl⟩ | ⟨len, -, -, -, -, -, hmax, rfl⟩ :=
      nameStep_eq_next hnext
    · exact ih hs hr
    · exact ih hmax hr

theorem pushLabel_of_ne_nil {labels : Bytes} (h : labels ≠ []) (l : Bytes) :
    pushLabel labels l = labels ++ dot :: l := by
  simp [pushLabel, h]

theorem foldl_pushLabel (ls : List Bytes) {acc : Bytes} (hacc : acc ≠ []) :
    ls.foldl pushLabel acc = [dot].intercalate (acc :: ls) := by
  induction ls generalizing acc with
  | nil => simp
  | cons l ls ih =>
    have hne : pushLabel acc l ≠ [] := by rw [pushLabel_of_ne_nil hacc]; simp
    rw [foldl_cons, ih hne, pushLabel_of_ne_nil hacc]
    cases ls with
    | nil => simp [intercalate]
    | cons m ls => simp [intercalate]

theorem foldl_pushLabel_nil {ls : List Bytes} (h : ∀ l ∈ ls, l ≠ []) :
    ls.foldl pushLabel [] = [dot].intercalate ls := by
  cases ls with
  | nil => rfl
  | cons l ls => exact foldl_pushLabel ls (h l (mem_cons_self ..))

/-- **What is read is the join of the raw labels**, decoded. -/
theorem labelsAt_of_readName (h : readName buf start = some (name, after)) :
    ∃ ls, LabelsAt buf start ls ∧
      name = toLowercase (fromUtf8Lossy ([dot].intercalate ls)) := by
  obtain ⟨raw, heval, hname⟩ := readName_eq_some_iff.mp h
  obtain ⟨ls, hls, hraw⟩ := labelsAt_of_evaluates heval
  refine ⟨ls, hls, ?_⟩
  rw [hname, hraw, NameState.start, foldl_pushLabel_nil hls.ne_nil]

/-! ### Names in a copy -/

section Copy

variable {src dst : Bytes}

theorem nameStep_label_copied {l : Bytes} {x y j : ℕ} {b : Option ℕ} {len : UInt8}
    (hlen : src[x]? = some len) (hz : len ≠ 0) (hle : len.toNat ≤ maxLabelLen)
    (hend : x + 1 + len.toNat ≤ src.length)
    (hmax : (pushLabel l (bytesAt src (x + 1) len.toNat)).length ≤ maxNameLen)
    (hcopy : Copied src x dst y (1 + len.toNat)) :
    nameStep dst ⟨l, y, j, b⟩ = .next ⟨pushLabel l (bytesAt src (x + 1) len.toNat),
      y + 1 + len.toNat, j, b⟩ := by
  have hbody : bytesAt dst (y + 1) len.toNat = bytesAt src (x + 1) len.toNat :=
    (hcopy.sub (k := 1) (Nat.le_refl _)).bytesAt_eq
  have hfirst : dst[y]? = some len := (hcopy 0 (by omega)).trans hlen
  have hin := hcopy.le_length (by omega) (by omega)
  rw [← hbody] at hmax ⊢
  exact nameStep_label (s := ⟨l, y, j, b⟩) hfirst hz (not_isPointer_of_le hle) hle (by
    show y + 1 + len.toNat ≤ dst.length
    omega) hmax

/-- Where a walk ends in the stream: behind where it stands, or where it was frozen. -/
theorem after_of_evaluates {s : NameState} {raw : Bytes}
    (h : Evaluates (nameStep src) s (some (raw, after))) :
    s.after = some after ∨ s.after = none ∧ s.pos < after ∧ after ≤ src.length := by
  generalize hr : some (raw, after) = r at h
  induction h with
  | @halt s _ hs =>
    subst hr
    obtain ⟨hroot, heq⟩ := nameStep_eq_done hs
    have hlt := (List.getElem?_eq_some_iff.mp hroot).1
    cases hafter : s.after with
    | none =>
      rw [hafter] at heq
      cases heq
      exact .inr ⟨rfl, Nat.lt_succ_self _, hlt⟩
    | some a =>
      rw [hafter] at heq
      cases heq
      exact .inl rfl
  | @next s t _ hs _ ih =>
    have ih := ih hr
    obtain ⟨len, lo, -, -, -, hlo, -, -, rfl⟩ | ⟨len, -, -, -, -, -, -, rfl⟩ := nameStep_eq_next hs
    · -- a pointer freezes the position behind its two bytes, unless one did so before
      have hlt := (List.getElem?_eq_some_iff.mp hlo).1
      obtain hfrozen | ⟨hnone, -⟩ := ih
      · cases hafter : s.after with
        | none =>
          rw [hafter] at hfrozen
          cases hfrozen
          exact .inr ⟨rfl, by simp, hlt⟩
        | some a =>
          rw [hafter] at hfrozen
          exact .inl hfrozen
      · cases hnone
    · obtain hfrozen | ⟨hnone, hlt, hle⟩ := ih
      · exact .inl hfrozen
      · dsimp only at hnone hlt
        exact .inr ⟨hnone, by omega, hle⟩

theorem readName_bounds {p : ℕ} {name : Str} (h : readName src p = some (name, after)) :
    p < after ∧ after ≤ src.length := by
  obtain ⟨raw, heval, -⟩ := readName_eq_some_iff.mp h
  obtain hfrozen | ⟨-, hlt, hle⟩ := after_of_evaluates heval
  · cases hfrozen
  · exact ⟨hlt, hle⟩

end Copy

/-! ### Where a name ends -/

/-- The encoding of a name from `p` on ends at `e`, wherever a pointer in it leads. -/
inductive NameEnds (buf : Bytes) : ℕ → ℕ → Prop where
  | root {p} : buf[p]? = some 0 → NameEnds buf p (p + 1)
  | pointer {p len} : buf[p]? = some len → isPointer len = true → NameEnds buf p (p + 2)
  | label {p e len} : buf[p]? = some len → len ≠ 0 → len.toNat ≤ maxLabelLen →
      NameEnds buf (p + 1 + len.toNat) e → NameEnds buf p e

theorem NameEnds.unique {p e e' : ℕ} (h : NameEnds buf p e) (h' : NameEnds buf p e') : e = e' := by
  induction h generalizing e' with
  | root hz =>
    cases h' with
    | root => rfl
    | _ => grind [not_isPointer_zero]
  | pointer hlen hp =>
    cases h' with
    | pointer => rfl
    | _ => grind [not_isPointer_zero, not_isPointer_of_le]
  | label hlen hne hle _ ih =>
    cases h' with
    | label hlen' _ _ hrest =>
      obtain rfl := Option.some.inj (hlen.symm.trans hlen')
      exact ih hrest
    | _ => grind [not_isPointer_of_le]

theorem NameEnds.lt {p e : ℕ} (h : NameEnds buf p e) : p < e := by
  induction h with
  | root => omega
  | pointer => omega
  | label _ _ _ _ ih => omega

/-- Only the bytes of the encoding matter, wherever they stand. -/
theorem NameEnds.copied {dst : Bytes} {p q e : ℕ} (h : NameEnds buf p e)
    (hcopy : Copied buf p dst q (e - p)) : NameEnds dst q (q + (e - p)) := by
  induction h generalizing q with
  | root hz =>
    rw [Nat.add_sub_cancel_left] at hcopy ⊢
    exact .root ((hcopy 0 (by omega)).trans hz)
  | pointer hlen hp =>
    rw [Nat.add_sub_cancel_left] at hcopy ⊢
    exact .pointer ((hcopy 0 (by omega)).trans hlen) hp
  | @label p e len hlen hne hle hrest ih =>
    have hlt := hrest.lt
    have hlater := ih (hcopy.within (by omega) (by omega))
    refine .label ((hcopy 0 (by omega)).trans hlen) hne hle ?_
    convert hlater using 1 <;> omega

theorem NameEnds.congr {buf' : Bytes} {p e : ℕ} (h : NameEnds buf p e)
    (hsame : ∀ i, p ≤ i → i < e → buf[i]? = buf'[i]?) : NameEnds buf' p e := by
  have hcopy : Copied buf p buf' p (e - p) := fun i hi => (hsame _ (by omega) (by omega)).symm
  have hends := h.copied hcopy
  rwa [Nat.add_sub_cancel' h.lt.le] at hends

/-- Where the loop of `read_name` says that a name ends, unless a pointer was met before. -/
theorem nameEnds_of_evaluates {s : NameState} {raw : Bytes} {after : ℕ}
    (h : Evaluates (nameStep buf) s (some (raw, after))) :
    s.after = none → NameEnds buf s.pos after := by
  generalize hr : some (raw, after) = r at h
  induction h with
  | halt hs =>
    intro hnone
    subst hr
    obtain ⟨hz, heq⟩ := nameStep_eq_done hs
    rw [hnone] at heq
    obtain rfl := congrArg Prod.snd heq
    exact .root hz
  | next hs hrest ih =>
    intro hnone
    obtain ⟨len, lo, hlen, -, hp, -, -, -, rfl⟩ | ⟨len, hlen, hz, -, hle, -, -, rfl⟩ :=
      nameStep_eq_next hs
    · -- the first pointer fixes the end
      subst hr
      obtain hafter | ⟨hafter, -⟩ := after_of_evaluates hrest
      · rw [hnone] at hafter
        obtain rfl := Option.some.inj hafter
        exact .pointer hlen hp
      · cases hafter
    · exact .label hlen hz hle (ih hr hnone)

theorem nameEnds_of_readName {p after : ℕ} (h : readName buf p = some (name, after)) :
    NameEnds buf p after := by
  obtain ⟨raw, heval, -⟩ := readName_eq_some_iff.mp h
  exact nameEnds_of_evaluates heval rfl

/-! ### Plain names -/

/-- The encoding of a name from `p` to `e` has labels only. -/
inductive PlainName (buf : Bytes) : ℕ → ℕ → Prop where
  | root {p} : buf[p]? = some 0 → PlainName buf p (p + 1)
  | label {p e len} : buf[p]? = some len → len ≠ 0 → len.toNat ≤ maxLabelLen →
      PlainName buf (p + 1 + len.toNat) e → PlainName buf p e

theorem PlainName.nameEnds {p e : ℕ} (h : PlainName buf p e) : NameEnds buf p e := by
  induction h with
  | root hz => exact .root hz
  | label hlen hne hle _ ih => exact .label hlen hne hle ih

/-! What a walk that succeeds does on each kind of byte. -/

theorem eq_of_evaluates_root {r : Option (Bytes × ℕ)} (hz : buf[s.pos]? = some 0)
    (h : Evaluates (nameStep buf) s r) : r = some (s.labels, s.after.getD (s.pos + 1)) := by
  have hroot := nameStep_root hz
  cases h with
  | halt hs =>
    rw [hroot] at hs
    cases hs
    rfl
  | next hs _ =>
    rw [hroot] at hs
    cases hs

theorem evaluates_of_label {len : UInt8} {r : Bytes × ℕ} (hlen : buf[s.pos]? = some len)
    (hne : len ≠ 0) (hle : len.toNat ≤ maxLabelLen) (h : Evaluates (nameStep buf) s (some r)) :
    s.pos + 1 + len.toNat ≤ buf.length ∧
      (pushLabel s.labels (bytesAt buf (s.pos + 1) len.toNat)).length ≤ maxNameLen ∧
      Evaluates (nameStep buf) ⟨pushLabel s.labels (bytesAt buf (s.pos + 1) len.toNat),
        s.pos + 1 + len.toNat, s.jumps, s.after⟩ (some r) := by
  cases h with
  | halt hs =>
    obtain ⟨hz, -⟩ := nameStep_eq_done hs
    exact absurd (some.inj (hlen.symm.trans hz)) hne
  | next hs hrest =>
    obtain ⟨len', lo, hlen', -, hp, -⟩ | ⟨len', hlen', -, -, -, hend, hmax, rfl⟩ :=
      nameStep_eq_next hs
    · obtain rfl := some.inj (hlen.symm.trans hlen')
      rw [not_isPointer_of_le hle] at hp
      cases hp
    · obtain rfl := some.inj (hlen.symm.trans hlen')
      exact ⟨hend, hmax, hrest⟩

theorem evaluates_of_pointer {len lo : UInt8} {r : Bytes × ℕ} (hlen : buf[s.pos]? = some len)
    (hp : isPointer len = true) (hlo : buf[s.pos + 1]? = some lo)
    (h : Evaluates (nameStep buf) s (some r)) :
    len ≠ 0 ∧ s.jumps + 1 ≤ maxPointerJumps ∧ pointerTarget len lo < buf.length ∧
      Evaluates (nameStep buf) ⟨s.labels, pointerTarget len lo, s.jumps + 1,
        some (s.after.getD (s.pos + 2))⟩ (some r) := by
  cases h with
  | halt hs =>
    obtain ⟨hz, -⟩ := nameStep_eq_done hs
    cases some.inj (hlen.symm.trans hz)
    cases hp
  | next hs hrest =>
    obtain ⟨len', lo', hlen', hz, -, hlo', hj, hptr, rfl⟩ | ⟨len', hlen', -, hp', -⟩ :=
      nameStep_eq_next hs
    · obtain rfl := some.inj (hlen.symm.trans hlen')
      obtain rfl := some.inj (hlo.symm.trans hlo')
      exact ⟨hz, hj, hptr, hrest⟩
    · obtain rfl := some.inj (hlen.symm.trans hlen')
      rw [hp] at hp'
      cases hp'

/-- **A plain name is read the same wherever its bytes stand at their offset**, after any
number of jumps. -/
theorem PlainName.evaluates {buf' : Bytes} {p e : ℕ} (h : PlainName buf p e)
    (hsame : ∀ i, p ≤ i → i < e → buf'[i]? = buf[i]?) {l raw : Bytes} {j after : ℕ} {a : Option ℕ}
    (heval : Evaluates (nameStep buf) ⟨l, p, j, a⟩ (some (raw, after))) :
    after = a.getD e ∧
      ∀ j' a', Evaluates (nameStep buf') ⟨l, p, j', a'⟩ (some (raw, a'.getD e)) := by
  induction h generalizing l with
  | @root p hz =>
    have hz' : buf'[p]? = some 0 := (hsame p (Nat.le_refl _) (Nat.lt_succ_self _)).trans hz
    cases eq_of_evaluates_root (s := ⟨l, p, j, a⟩) hz heval
    exact ⟨rfl, fun j' a' => .halt (nameStep_root (s := ⟨l, p, j', a'⟩) hz')⟩
  | @label p e len hlen hne hle hrest ih =>
    have hlt := hrest.nameEnds.lt
    obtain ⟨hend, hmax, htail⟩ := evaluates_of_label (s := ⟨l, p, j, a⟩) hlen hne hle heval
    obtain ⟨hafter, hgo⟩ := ih (fun i hi hi' => hsame i (by omega) hi') htail
    have hcopy : Copied buf p buf' p (1 + len.toNat) := fun i hi =>
      hsame (p + i) (by omega) (by omega)
    exact ⟨hafter, fun j' a' => .next (nameStep_label_copied hlen hne hle hend hmax hcopy)
      (hgo j' a')⟩

/-- Labels, then the end of the name or a pointer to a plain name between `lo` and `hi`. -/
inductive RefersInto (buf : Bytes) (lo hi : ℕ) : ℕ → Prop where
  | root {p} : buf[p]? = some 0 → RefersInto buf lo hi p
  | pointer {p len b e} : buf[p]? = some len → isPointer len = true → buf[p + 1]? = some b →
      lo ≤ pointerTarget len b → PlainName buf (pointerTarget len b) e → e ≤ hi →
      RefersInto buf lo hi p
  | label {p len} : buf[p]? = some len → len ≠ 0 → len.toNat ≤ maxLabelLen →
      RefersInto buf lo hi (p + 1 + len.toNat) → RefersInto buf lo hi p

/-- Such a name is read the same in a copy of its bytes, if what it refers to stays. -/
theorem RefersInto.evaluates {dst l raw : Bytes} {lo hi p q after : ℕ}
    (h : RefersInto buf lo hi p) (hsame : ∀ i, lo ≤ i → i < hi → dst[i]? = buf[i]?)
    (heval : Evaluates (nameStep buf) ⟨l, p, 0, none⟩ (some (raw, after)))
    (hcopy : Copied buf p dst q (after - p)) :
    ∃ after', Evaluates (nameStep dst) ⟨l, q, 0, none⟩ (some (raw, after')) := by
  induction h generalizing l q with
  | @root p hz =>
    cases eq_of_evaluates_root (s := ⟨l, p, 0, none⟩) hz heval
    have hz' : dst[q]? = some 0 := (hcopy 0 (by simp)).trans hz
    exact ⟨_, .halt (nameStep_root (s := ⟨l, q, 0, none⟩) hz')⟩
  | @pointer p len b e hlen hp hb hlo hplain hhi =>
    have hends := (nameEnds_of_evaluates heval rfl).unique (.pointer hlen hp)
    dsimp only at hends
    subst hends
    rw [Nat.add_sub_cancel_left] at hcopy
    obtain ⟨hz, hj, hptr, htail⟩ := evaluates_of_pointer (s := ⟨l, p, 0, none⟩) hlen hp hb heval
    obtain ⟨-, hgo⟩ := hplain.evaluates (fun i hi hi' => hsame i (by omega) (by omega)) htail
    have hin : pointerTarget len b < dst.length := by
      have hfirst := hsame _ hlo (hplain.nameEnds.lt.trans_le hhi)
      rw [List.getElem?_eq_getElem hptr] at hfirst
      exact (List.getElem?_eq_some_iff.mp hfirst).1
    exact ⟨_, .next (nameStep_pointer (s := ⟨l, q, 0, none⟩)
      ((hcopy 0 (by omega)).trans hlen) hz hp ((hcopy 1 (by omega)).trans hb) hj hin) (hgo _ _)⟩
  | @label p len hlen hne hle _ ih =>
    obtain ⟨hend, hmax, htail⟩ := evaluates_of_label (s := ⟨l, p, 0, none⟩) hlen hne hle heval
    have hlt := (nameEnds_of_evaluates htail rfl).lt
    dsimp only at hlt
    obtain ⟨after', hgo⟩ := ih htail (hcopy.within (by omega) (by omega))
    rw [show q + (p + 1 + len.toNat - p) = q + 1 + len.toNat by omega] at hgo
    exact ⟨after', .next (nameStep_label_copied hlen hne hle hend hmax
      fun i hi => hcopy i (by omega)) hgo⟩

/-- A label behind its length byte, cut at the longest length there is. -/
def wireLabel (l : Bytes) : Bytes :=
  UInt8.ofNat (min l.length maxLabelLen) :: l.take (min l.length maxLabelLen)

/-- `encode_name_uncompressed`: the bytes it appends. -/
def encodeName (name : Str) : Bytes :=
  ((nonEmpty (name.splitOn '.')).map utf8).flatMap wireLabel ++ [0]

theorem wireLabel_of_le {l : Bytes} (h : l.length ≤ maxLabelLen) :
    wireLabel l = UInt8.ofNat l.length :: l := by
  rw [wireLabel, Nat.min_eq_left h, take_length]

theorem wireLabel_take (l : Bytes) : wireLabel (l.take maxLabelLen) = wireLabel l := by
  simp [wireLabel, Nat.min_comm, take_take]

theorem length_le_foldl_pushLabel (ls : List Bytes) (acc : Bytes) :
    acc.length ≤ (ls.foldl pushLabel acc).length := by
  induction ls generalizing acc with
  | nil => exact Nat.le_refl _
  | cons l ls ih =>
    have hpush := length_pushLabel_ge acc l
    have hrest := ih (pushLabel acc l)
    rw [foldl_cons]
    omega

/-- What stands where a label is written: its length, its bytes, and what comes behind it. -/
theorem label_of_prefix {l rest : Bytes} {p : ℕ} (hne : l ≠ []) (hle : l.length ≤ maxLabelLen)
    (h : wireLabel l ++ rest <+: buf.drop p) :
    ∃ len : UInt8, len.toNat = l.length ∧ len ≠ 0 ∧ buf[p]? = some len ∧
      bytesAt buf (p + 1) len.toNat = l ∧ p + 1 + len.toNat ≤ buf.length ∧
      rest <+: buf.drop (p + 1 + len.toNat) := by
  have hnat : (UInt8.ofNat l.length).toNat = l.length :=
    UInt8.toNat_ofNat_of_lt' (hle.trans_lt (by decide))
  obtain ⟨tail, htail⟩ := h
  rw [wireLabel_of_le hle, append_assoc, cons_append] at htail
  have hdrop : buf.drop (p + 1) = l ++ (rest ++ tail) := by
    rw [← drop_drop, ← htail]
    rfl
  refine ⟨UInt8.ofNat l.length, hnat, ?_, ?_, ?_, ?_, ?_⟩
  · intro h0
    rw [h0] at hnat
    exact hne (length_eq_zero_iff.mp hnat.symm)
  · rw [← Nat.add_zero p, ← getElem?_drop, ← htail]
    rfl
  · rw [hnat]
    exact bytesAt_of_prefix ⟨_, hdrop.symm⟩
  · have hlen := congrArg length hdrop
    have hpos := length_pos_iff.mpr hne
    simp only [length_drop, length_append] at hlen
    omega
  · rw [hnat, ← drop_drop, hdrop, drop_left]
    exact prefix_append _ _

/-- Labels within their limit are walked one by one, up to the limit of a name. -/
theorem walk_wireLabels (ls : List Bytes) (acc : Bytes) (p : ℕ)
    (hacc : acc.length ≤ maxNameLen) (hls : ∀ l ∈ ls, l ≠ [] ∧ l.length ≤ maxLabelLen)
    (hpre : ls.flatMap wireLabel ++ [0] <+: buf.drop p) :
    NameEnds buf p (p + (ls.flatMap wireLabel ++ [0]).length) ∧
    Evaluates (nameStep buf) ⟨acc, p, 0, none⟩
      (if (ls.foldl pushLabel acc).length ≤ maxNameLen then
        some (ls.foldl pushLabel acc, p + (ls.flatMap wireLabel ++ [0]).length) else none) := by
  induction ls generalizing acc p with
  | nil =>
    obtain ⟨rest, hrest⟩ := hpre
    have hroot : buf[p]? = some 0 := by
      rw [← Nat.add_zero p, ← getElem?_drop, ← hrest]
      rfl
    rw [foldl_nil, if_pos hacc]
    exact ⟨.root hroot, .halt (nameStep_root (s := ⟨acc, p, 0, none⟩) hroot)⟩
  | cons l ls ih =>
    obtain ⟨⟨hne, hle⟩, hls⟩ := forall_mem_cons.mp hls
    rw [flatMap_cons, append_assoc] at hpre ⊢
    obtain ⟨len, hnat, hz, hfirst, hbody, hend, hlater⟩ := label_of_prefix hne hle hpre
    have hp : isPointer len = false := not_isPointer_of_le (by omega)
    have hpos : p + (wireLabel l ++ (ls.flatMap wireLabel ++ [0])).length =
        p + 1 + len.toNat + (ls.flatMap wireLabel ++ [0]).length := by
      rw [wireLabel_of_le hle]
      simp only [length_cons, length_append]
      omega
    rw [foldl_cons, hpos]
    refine ⟨.label hfirst hz (by omega) (ih [] _ (Nat.zero_le _) hls hlater).1, ?_⟩
    by_cases hmax : (pushLabel acc l).length ≤ maxNameLen
    · have hstep := nameStep_label (s := ⟨acc, p, 0, none⟩) hfirst hz hp (by omega) hend
        (by rwa [hbody])
      rw [hbody] at hstep
      exact .next hstep (ih (pushLabel acc l) _ hmax hls hlater).2
    · have hmore := length_le_foldl_pushLabel ls (pushLabel acc l)
      rw [if_neg (by omega)]
      exact .halt (nameStep_overlong (s := ⟨acc, p, 0, none⟩) hfirst hz hp (by omega) hend
        (by rwa [hbody]))

/-- The labels that `encode_name_uncompressed` writes: the non-empty ones, cut at 63 bytes. -/
def cutLabels (name : Str) : List Bytes :=
  (nonEmpty (name.splitOn '.')).map fun l => (utf8 l).take maxLabelLen

/-- The name is what is read from the labels written for it. -/
def ReadsBack (name : Str) : Prop :=
  ([dot].intercalate (cutLabels name)).length ≤ maxNameLen ∧
    toLowercase (fromUtf8Lossy ([dot].intercalate (cutLabels name))) = name

instance (name : Str) : Decidable (ReadsBack name) := inferInstanceAs (Decidable (_ ∧ _))

theorem encodeName_eq (name : Str) :
    encodeName name = (cutLabels name).flatMap wireLabel ++ [0] := by
  simp only [encodeName, cutLabels, flatMap_map, wireLabel_take]

theorem utf8_eq_nil {s : Str} (h : utf8 s = []) : s = [] :=
  utf8_injective (h.trans (by rfl))

theorem cutLabels_bounds : ∀ l ∈ cutLabels name, l ≠ [] ∧ l.length ≤ maxLabelLen := by
  intro l hl
  obtain ⟨m, hm, rfl⟩ := mem_map.mp hl
  refine ⟨fun h0 => ?_, length_take_le ..⟩
  obtain h0 | h0 := take_eq_nil_iff.mp h0
  · cases h0
  · exact (mem_nonEmpty.mp hm).2 (utf8_eq_nil h0)

theorem nameEnds_encodeName {p : ℕ} (hpre : encodeName name <+: buf.drop p) :
    NameEnds buf p (p + (encodeName name).length) := by
  rw [encodeName_eq] at hpre ⊢
  exact (walk_wireLabels _ [] p (Nat.zero_le _) cutLabels_bounds hpre).1

/-- **What is read where a name was written.** -/
theorem readName_encodeName {p : ℕ} (hpre : encodeName name <+: buf.drop p) :
    readName buf p = if ([dot].intercalate (cutLabels name)).length ≤ maxNameLen then
      some (toLowercase (fromUtf8Lossy ([dot].intercalate (cutLabels name))),
        p + (encodeName name).length) else none := by
  rw [encodeName_eq] at hpre ⊢
  have hwalk := (walk_wireLabels _ [] p (Nat.zero_le _) cutLabels_bounds hpre).2
  rw [foldl_pushLabel_nil fun l hl => (cutLabels_bounds l hl).1] at hwalk
  rw [readName, readRaw_eq_iff.mpr hwalk]
  split <;> rfl

/-- A name reads back exactly if it is read where it was written. -/
theorem readsBack_iff {p : ℕ} (hpre : encodeName name <+: buf.drop p) :
    ReadsBack name ↔ readName buf p = some (name, p + (encodeName name).length) := by
  rw [readName_encodeName hpre, ReadsBack]
  split
  · next hle => simp [hle]
  · next hle => simp [hle]

end Dns
end TortaCore
