import TortaCore.Dns.Filter

/-!
# Where the answers stand

The end of a name in a message does not depend on where its compression pointers lead, so
neither does the place of a record.  This module says what a message lays out as answers
when the pointers are passed over.  A message that the walkers accept lays out the records
they return; and the layout survives what is done to a message on its way through the
resolver: a new ID, cleared flags, the question bytes of another query, and the rewrite of
`filter_rr`.
-/

namespace TortaCore
namespace Dns

open Text Wire Machine List

variable {buf w response : Bytes}

/-! ### Records -/

/-- From `p` on stand `n` records of these types and data. -/
inductive RecordsAt (buf : Bytes) : ℕ → ℕ → List (ℕ × Bytes) → Prop where
  | nil {p} : RecordsAt buf p 0 []
  | cons {p e n recs} : NameEnds buf p e →
      RecordsAt buf (e + 10 + u16At buf (e + 8)) n recs →
      RecordsAt buf p (n + 1) ((u16At buf e, bytesAt buf (e + 10) (u16At buf (e + 8))) :: recs)

theorem RecordsAt.unique {p n : ℕ} {recs recs' : List (ℕ × Bytes)} (h : RecordsAt buf p n recs)
    (h' : RecordsAt buf p n recs') : recs = recs' := by
  induction h generalizing recs' with
  | nil => cases h'; rfl
  | cons hname _ ih =>
    cases h' with
    | cons hname' hrest' =>
      obtain rfl := hname.unique hname'
      rw [ih hrest']

theorem getElem?_of_drop_eq {buf' : Bytes} {q i : ℕ} (h : buf.drop q = buf'.drop q) (hi : q ≤ i) :
    buf[i]? = buf'[i]? := by
  have hget := congrArg (·[i - q]?) h
  simpa only [getElem?_drop, Nat.add_sub_cancel' hi] using hget

theorem u16At_of_drop_eq {buf' : Bytes} {q p : ℕ} (h : buf.drop q = buf'.drop q) (hp : q ≤ p) :
    u16At buf p = u16At buf' p := by
  rw [u16At, u16At, bytesAt_of_drop_eq h hp]

theorem RecordsAt.congr {buf' : Bytes} {q : ℕ} (hdrop : buf.drop q = buf'.drop q) {p n : ℕ}
    {recs : List (ℕ × Bytes)} (h : RecordsAt buf p n recs) (hp : q ≤ p) :
    RecordsAt buf' p n recs := by
  induction h with
  | nil => exact .nil
  | @cons p e n recs hname _ ih =>
    have hlt := hname.lt
    have hname' := hname.congr fun i hi _ => getElem?_of_drop_eq hdrop (Nat.le_trans hp hi)
    have hrest := ih (by omega)
    rw [u16At_of_drop_eq hdrop (by omega : q ≤ e), bytesAt_of_drop_eq hdrop (by omega),
      u16At_of_drop_eq hdrop (by omega : q ≤ e + 8)]
    rw [u16At_of_drop_eq hdrop (by omega : q ≤ e + 8)] at hrest
    exact .cons hname' hrest

/-- What a record says to the layout. -/
def AnswerRecord.data (buf : Bytes) (r : AnswerRecord) : ℕ × Bytes :=
  (r.rtype, bytesAt buf r.rdataAt r.rdlength)

theorem recordsAt_of_skimRecords {count p stop : ℕ} {rs : List AnswerRecord}
    (h : skimRecords buf p count = some (rs, stop)) :
    RecordsAt buf p count (rs.map (AnswerRecord.data buf)) := by
  induction count generalizing p rs with
  | zero => cases h; exact .nil
  | succ count ih =>
    obtain ⟨r, rest, rfl, hr, hrest⟩ := skimRecords_succ_eq_some_iff.mp h
    obtain ⟨e, hname, -, htype, -, -, hlen, hat, -⟩ := skimRecord_eq_some_iff.mp hr
    have htail := ih hrest
    rw [AnswerRecord.stop, hat, hlen] at htail
    rw [map_cons, AnswerRecord.data, htype, hlen, hat]
    exact .cons (nameEnds_of_readName hname) htail

/-! ### Messages -/

/-- Passing over the compression pointers, the message has these answers. -/
def LaysOut (w : Bytes) (recs : List (ℕ × Bytes)) : Prop :=
  ∃ e, NameEnds w 12 e ∧ RecordsAt w (e + 4) (u16At w 6) recs

theorem LaysOut.unique {recs recs' : List (ℕ × Bytes)} (h : LaysOut w recs) (h' : LaysOut w recs') :
    recs = recs' := by
  obtain ⟨e, hname, hrecs⟩ := h
  obtain ⟨e', hname', hrecs'⟩ := h'
  obtain rfl := hname.unique hname'
  exact hrecs.unique hrecs'

/-- **What the walkers return is laid out.** -/
theorem laysOut_of_answerRecords {rs : List AnswerRecord} (h : answerRecords w = some rs) :
    LaysOut w (rs.map (AnswerRecord.data w)) := by
  obtain ⟨secs, hsecs, rfl⟩ := Option.map_eq_some_iff.mp h
  obtain ⟨q, qend, hq, -, hskim⟩ := parseSections_eq_some_iff.mp hsecs
  obtain ⟨-, -, pos, hname, -, -, -, -, rfl⟩ := parseQuestionFull_eq_some_iff.mp hq
  obtain ⟨p₁, p₂, han, -, -⟩ := skimSections_eq_some_iff.mp hskim
  exact ⟨pos, nameEnds_of_readName hname, recordsAt_of_skimRecords han⟩

/-- A rewrite of the header that keeps the count of answers keeps the layout. -/
theorem LaysOut.of_body {w' : Bytes} {recs : List (ℕ × Bytes)} (h : LaysOut w' recs)
    (hbody : w'.drop 12 = w.drop 12) (hcount : u16At w' 6 = u16At w 6) : LaysOut w recs := by
  obtain ⟨e, hname, hrecs⟩ := h
  have hlt := hname.lt
  rw [hcount] at hrecs
  exact ⟨e, hname.congr fun i hi _ => getElem?_of_drop_eq hbody hi, hrecs.congr hbody (by omega)⟩

/-- So does another question whose name ends in the same place. -/
theorem LaysOut.of_question {w' : Bytes} {recs : List (ℕ × Bytes)} (h : LaysOut w' recs) {e : ℕ}
    (hname : NameEnds w 12 e) (hname' : NameEnds w' 12 e) (hbody : w'.drop (e + 4) = w.drop (e + 4))
    (hcount : u16At w' 6 = u16At w 6) : LaysOut w recs := by
  obtain ⟨e', hends, hrecs⟩ := h
  obtain rfl := hends.unique hname'
  rw [hcount] at hrecs
  exact ⟨_, hname, hrecs.congr hbody (Nat.le_refl _)⟩

/-! ### Written records -/

/-- A record as it is written out. -/
structure Written where
  owner : Bytes
  rtype : ℕ
  rclass : ℕ
  ttl : ℕ
  rdata : Bytes

def Written.bytes (x : Written) : Bytes :=
  x.owner ++ (beBytes 2 x.rtype ++ (beBytes 2 x.rclass ++ (beBytes 4 x.ttl ++
    (beBytes 2 x.rdata.length ++ x.rdata))))

/-- The numbers fit their fields, and the owner is the encoding of a name. -/
structure Written.Sound (x : Written) : Prop where
  rtype : x.rtype < 65536
  rdata : x.rdata.length < 65536
  owner : ∀ {buf : Bytes} {p : ℕ}, x.owner <+: buf.drop p → NameEnds buf p (p + x.owner.length)

/-- What stands `a` behind an offset where `a ++ b` stands. -/
theorem prefix_drop_add {a b : Bytes} {p : ℕ} (h : a ++ b <+: buf.drop p) :
    b <+: buf.drop (p + a.length) := by
  obtain ⟨rest, hrest⟩ := h
  exact ⟨rest, by rw [← drop_drop, ← hrest, append_assoc, drop_left]⟩

theorem u16At_of_written {n : ℕ} (hn : n < 65536) {b buf : Bytes} {p : ℕ}
    (h : beBytes 2 n ++ b <+: buf.drop p) : u16At buf p = n := by
  have hbytes := bytesAt_of_prefix ((prefix_append _ _).trans h)
  rw [length_beBytes] at hbytes
  rw [u16At, hbytes, beNat_beBytes_of_lt (by omega)]

theorem prefix_be_drop {w n : ℕ} {b : Bytes} {p : ℕ} (h : beBytes w n ++ b <+: buf.drop p) :
    b <+: buf.drop (p + w) := by
  have hnext := prefix_drop_add h
  rwa [length_beBytes] at hnext

/-- A written record in front of the records behind it. -/
theorem RecordsAt.cons_written {p n : ℕ} {recs : List (ℕ × Bytes)} {x : Written} (hx : x.Sound)
    (hpre : x.bytes <+: buf.drop p) (h : RecordsAt buf (p + x.bytes.length) n recs) :
    RecordsAt buf p (n + 1) ((x.rtype, x.rdata) :: recs) := by
  have hfields := prefix_drop_add hpre
  have hclass := prefix_be_drop hfields
  have hlen := prefix_be_drop (prefix_be_drop hclass)
  have hdata := prefix_be_drop hlen
  have hname := hx.owner ((prefix_append _ _).trans hpre)
  have htype := u16At_of_written hx.rtype hfields
  have hrdlen : u16At buf (p + x.owner.length + 8) = x.rdata.length :=
    u16At_of_written hx.rdata hlen
  have hrdata : bytesAt buf (p + x.owner.length + 10) x.rdata.length = x.rdata :=
    bytesAt_of_prefix hdata
  have hlength : p + x.bytes.length = p + x.owner.length + 10 + x.rdata.length := by
    simp only [Written.bytes, length_append, length_beBytes]
    omega
  rw [hlength, ← hrdlen] at h
  have hcons := RecordsAt.cons hname h
  rwa [htype, hrdlen, hrdata] at hcons

/-- **Written records are laid out in order.** -/
theorem recordsAt_written (xs : List Written) {p n : ℕ} (hsound : ∀ x ∈ xs, x.Sound)
    (hpre : xs.flatMap Written.bytes <+: buf.drop p) (hn : n ≤ xs.length) :
    RecordsAt buf p n ((xs.take n).map fun x => (x.rtype, x.rdata)) := by
  induction xs generalizing p n with
  | nil =>
    obtain rfl : n = 0 := Nat.le_zero.mp hn
    exact .nil
  | cons x xs ih =>
    cases n with
    | zero => exact .nil
    | succ n =>
      refine RecordsAt.cons_written (hsound x (mem_cons_self ..))
        ((prefix_append _ _).trans hpre) ?_
      exact ih (fun y hy => hsound y (mem_cons_of_mem _ hy)) (prefix_drop_add hpre)
        (Nat.le_of_succ_le_succ hn)

/-! ### A filtered message -/

/-- The kept answers are laid out where they are written. -/
theorem recordsAt_of_writtenAt {out tail : Bytes} {keep : AnswerRecord → Bool}
    {count p q stop : ℕ} {answers : List AnswerRecord}
    (hskim : skimRecords response p count = some (answers, stop))
    (hw : WrittenAt response out keep answers q tail) :
    RecordsAt out q (answers.filter keep).length
      ((answers.filter keep).map (AnswerRecord.data response)) := by
  induction count generalizing p q answers with
  | zero => cases hskim; exact .nil
  | succ count ih =>
    obtain ⟨r, rs, rfl, hr, hrest⟩ := skimRecords_succ_eq_some_iff.mp hskim
    by_cases hkeep : keep r = true
    · obtain ⟨hname, hbody, hdata, hlater⟩ := hw.cons_kept hr hkeep
      obtain ⟨e, -, -, htype, -, -, hlen, hat, -⟩ := skimRecord_eq_some_iff.mp hr
      rw [show r.rdataAt - 10 = e by omega] at hbody
      have htype' := (u16At_copied hbody (k := 0) (by omega)).trans htype.symm
      have hlen' := (u16At_copied hbody (k := 8) (by omega)).trans hlen.symm
      have hlayout := ih hrest hlater
      rw [← hlen'] at hlayout
      have hcons := RecordsAt.cons (nameEnds_encodeName hname) hlayout
      rw [Nat.add_zero] at htype'
      rw [htype', hlen', hdata.bytesAt_eq] at hcons
      rwa [filter_cons_of_pos hkeep]
    · rw [filter_cons_of_neg hkeep]
      exact ih hrest (hw.cons_dropped hkeep)

/-- **A filtered message lays out a part of the answers**, whatever happened to the
pointers. -/
theorem laysOut_filterRr {out : Bytes} {dropTypes : List ℕ} {anyDefang isAnyQuery : Bool}
    (hfilter : filterRr response dropTypes anyDefang isAnyQuery = some out)
    {recs : List (ℕ × Bytes)} (h : LaysOut out recs) :
    ∃ recs₀, LaysOut response recs₀ ∧ recs ⊆ recs₀ := by
  unfold filterRr at hfilter
  split at hfilter
  · cases hfilter
  next q qend hparse =>
  split at hfilter
  · cases hfilter
  split at hfilter
  · cases hfilter
  next answers anEnd hskim =>
  dsimp only at hfilter
  split at hfilter
  · cases hfilter
    exact ⟨recs, h, Subset.refl _⟩
  cases hfilter
  generalize keepRecord dropTypes (anyDefang && isAnyQuery) = keep at h
  obtain ⟨-, -, pos, hname, hpos, -, -, -, rfl⟩ := parseQuestionFull_eq_some_iff.mp hparse
  obtain ⟨hlt, -⟩ := readName_bounds hname
  have hends := nameEnds_of_readName hname
  refine ⟨_, ⟨pos, hends, recordsAt_of_skimRecords hskim⟩, ?_⟩
  have hrw := rewritten_rebuild keep (show 8 ≤ pos + 4 by omega) hpos hskim
  obtain ⟨e, hname', hrecs⟩ := h
  -- the question is where it was
  obtain rfl : e = pos := by
    refine hname'.unique (hends.congr fun i hi hi' => ?_)
    have hget := hrw.question (i - 8) (by omega)
    rw [Nat.add_sub_cancel' (by omega)] at hget
    exact hget.symm
  -- the count is that of the records kept
  rw [hrw.ancount] at hrecs
  rw [hrecs.unique (recordsAt_of_writtenAt hskim hrw.written)]
  exact map_subset _ (filter_subset_self _)

/-! ### Every walk ends, inside the message -/

theorem jumps_le_of_mem_trail {start : ℕ} :
    ∀ s ∈ trail (nameStep buf) nameFuel (.start start), s.jumps ≤ maxPointerJumps := by
  refine (isChain_trail (I := fun s : NameState => s.jumps ≤ maxPointerJumps)
    (R := fun _ _ => True) (fun s t hs h => ?_) nameFuel (Nat.zero_le _)).2
  obtain ⟨len, lo, -, -, -, -, hj, -, rfl⟩ | ⟨len, -, -, -, -, -, -, rfl⟩ := nameStep_eq_next h
  · exact ⟨hj, trivial⟩
  · exact ⟨hs, trivial⟩

/-- Records lie one behind the other, each with its name and ten fixed bytes in front of its
data. -/
theorem extents_of_skimRecords {count p stop : ℕ} {rs : List AnswerRecord}
    (h : skimRecords buf p count = some (rs, stop)) :
    (∀ x ∈ (recordStarts rs p).zip rs,
        p ≤ x.1 ∧ x.1 + 10 < x.2.rdataAt ∧ x.2.rdataAt + x.2.rdlength ≤ buf.length) ∧
      ((recordStarts rs p).zip rs).Pairwise fun x y => x.2.rdataAt + x.2.rdlength ≤ y.1 := by
  induction count generalizing p rs with
  | zero =>
    cases h
    exact ⟨fun x hx => (by cases hx), .nil⟩
  | succ count ih =>
    obtain ⟨r, rest, rfl, hr, hrest⟩ := skimRecords_succ_eq_some_iff.mp h
    obtain ⟨hat, hle⟩ := skimRecord_bounds hr
    obtain ⟨hin, hlater⟩ := ih hrest
    rw [recordStarts, zip_cons_cons]
    refine ⟨forall_mem_cons.mpr ⟨⟨Nat.le_refl p, hat, hle⟩, fun x hx => ?_⟩,
      pairwise_cons.mpr ⟨fun x hx => (hin x hx).1, hlater⟩⟩
    have hstop : r.rdataAt + r.rdlength ≤ x.1 := (hin x hx).1
    exact ⟨by omega, (hin x hx).2⟩

/-- Name and record walking is total and stays in the message: the loop of `read_name` halts
with sixteen jumps at most and no turn of it slices outside, a name that is read ends where its
own encoding does, and records that are skimmed lie inside, one behind the other. -/
theorem walk_in_bounds (buf : Bytes) (start : ℕ) :
    (loop (nameStep buf) nameFuel (.start start)).isSome = true ∧
    (∀ s ∈ trail (nameStep buf) nameFuel (.start start),
      s.jumps ≤ maxPointerJumps ∧ nameTurn buf s = some (nameStep buf s)) ∧
    (∀ name after, readName buf start = some (name, after) →
      start < after ∧ after ≤ buf.length ∧ NameEnds buf start after) ∧
    ∀ count rs stop, skimRecords buf start count = some (rs, stop) →
      (∀ x ∈ (recordStarts rs start).zip rs,
        start ≤ x.1 ∧ x.1 + 10 < x.2.rdataAt ∧ x.2.rdataAt + x.2.rdlength ≤ buf.length) ∧
      ((recordStarts rs start).zip rs).Pairwise fun x y => x.2.rdataAt + x.2.rdlength ≤ y.1 := by
  refine ⟨isSome_loop _ measure_lt_of_nameStep _ _ (measure_start_lt start),
    fun s hs => ⟨jumps_le_of_mem_trail s hs, nameTurn_eq buf s⟩,
    fun name after h => ?_, fun count rs stop => extents_of_skimRecords⟩
  obtain ⟨hlt, hle⟩ := readName_bounds h
  exact ⟨hlt, hle, nameEnds_of_readName h⟩

end Dns
end TortaCore
