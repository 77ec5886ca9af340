import TortaCore.Dns.Synthesis

/-!
# Replies that pass the check

A forged reply echoes the question of the query, and the owners of its answers point at
that question.  When the question name is written without compression pointers it is read
the same way in the reply, at its own place and through a pointer; so the reply passes
`validate_response`, and its answers are the ones that were written.
-/

namespace TortaCore
namespace Dns

open Text Wire Machine List Option

/-! ### Plain names -/

variable {buf : Bytes} {name : Str}

/-- A plain name through a compression pointer that leads to it. -/
theorem readName_plain_pointer {buf' : Bytes} {p e after q : ℕ} (h : PlainName buf p e)
    (hread : readName buf p = some (name, after)) (hsame : ∀ i, p ≤ i → i < e → buf'[i]? = buf[i]?)
    {len lo : UInt8} (hlen : buf'[q]? = some len) (hp : isPointer len = true)
    (hlo : buf'[q + 1]? = some lo) (htarget : pointerTarget len lo = p) :
    readName buf' q = some (name, q + 2) := by
  obtain ⟨raw, heval, hname⟩ := readName_eq_some_iff.mp hread
  obtain ⟨rfl, hgo⟩ := h.evaluates hsame heval
  have hz : len ≠ 0 := by
    rintro rfl
    cases hp
  have hin : pointerTarget len lo < buf'.length := by
    have hlt := (readName_bounds hread).1
    have hle := (readName_bounds hread).2
    have hfirst := hsame p (Nat.le_refl _) hlt
    rw [getElem?_eq_getElem (l := buf) (by omega)] at hfirst
    rw [htarget]
    exact (List.getElem?_eq_some_iff.mp hfirst).1
  have hstep := nameStep_pointer (s := .start q) hlen hz hp hlo
    (show 0 + 1 ≤ maxPointerJumps by decide) hin
  rw [htarget] at hstep
  exact readName_eq_some_iff.mpr ⟨raw, .next hstep (hgo _ _), hname⟩

/-! ### Records -/

/-- A record with its data. -/
structure Record where
  name : Str
  rtype : ℕ
  rclass : ℕ
  ttl : ℕ
  rdata : Bytes
  deriving DecidableEq

/-- A record of a message, its data taken out. -/
def AnswerRecord.read (buf : Bytes) (r : AnswerRecord) : Record :=
  ⟨r.name, r.rtype, r.rclass, r.ttl, bytesAt buf r.rdataAt r.rdlength⟩

/-- What a written record says when its owner is `name`. -/
def Written.record (name : Str) (x : Written) : Record :=
  ⟨name, x.rtype, x.rclass, x.ttl, x.rdata⟩

/-- The numbers fit their fields. -/
structure Written.Fits (x : Written) : Prop where
  rtype : x.rtype < 65536
  rclass : x.rclass < 65536
  ttl : x.ttl < 2 ^ 32
  rdata : x.rdata.length < 65536

theorem u32At_of_written {n : ℕ} (hn : n < 2 ^ 32) {b : Bytes} {p : ℕ}
    (h : beBytes 4 n ++ b <+: buf.drop p) : u32At buf p = n := by
  have hbytes := bytesAt_of_prefix ((prefix_append _ _).trans h)
  rw [length_beBytes] at hbytes
  rw [u32At, hbytes, beNat_beBytes_of_lt (by omega)]

theorem skimRecord_of_written {p : ℕ} {x : Written} (hx : x.Fits)
    (hname : readName buf p = some (name, p + x.owner.length)) (hpre : x.bytes <+: buf.drop p) :
    ∃ r, skimRecord buf p = some r ∧ r.read buf = x.record name ∧
      r.stop = p + x.bytes.length := by
  have hfields := prefix_drop_add hpre
  have hclass := prefix_be_drop hfields
  have httl := prefix_be_drop hclass
  have hlen := prefix_be_drop httl
  have hdata := prefix_be_drop hlen
  have hlength : x.bytes.length = x.owner.length + 10 + x.rdata.length := by
    simp only [Written.bytes, length_append, length_beBytes]
    omega
  have hroom : x.bytes.length ≤ buf.length - p := by
    have hle := hpre.length_le
    rwa [length_drop] at hle
  refine ⟨⟨name, x.rtype, x.rclass, x.ttl, x.rdata.length, p + x.owner.length + 10⟩, ?_, ?_, ?_⟩
  · refine skimRecord_eq_some_iff.mpr ⟨_, hname, by omega, ?_, ?_, ?_, ?_, rfl, ?_⟩
    · exact (u16At_of_written hx.rtype hfields).symm
    · exact (u16At_of_written hx.rclass hclass).symm
    · exact (u32At_of_written hx.ttl httl).symm
    · exact (u16At_of_written hx.rdata hlen).symm
    · simp only [AnswerRecord.stop]
      omega
  · have hrdata : bytesAt buf (p + x.owner.length + 10) x.rdata.length = x.rdata :=
      bytesAt_of_prefix hdata
    rw [AnswerRecord.read, Written.record, hrdata]
  · simp only [AnswerRecord.stop]
    omega

/-- **Written records are walked one after the other**, when their owners are read as
`name`. -/
theorem skimRecords_of_written (xs : List Written) {p : ℕ}
    (hxs : ∀ x ∈ xs, x.Fits ∧ ∀ q, x.owner <+: buf.drop q → readName buf q = some (name, q +
      x.owner.length)) (hpre : xs.flatMap Written.bytes <+: buf.drop p) :
    ∃ rs, skimRecords buf p xs.length = some (rs, p + (xs.flatMap Written.bytes).length) ∧
      rs.map (AnswerRecord.read buf) = xs.map (Written.record name) := by
  induction xs generalizing p with
  | nil =>
    exact ⟨[], rfl, rfl⟩
  | cons x xs ih =>
    obtain ⟨⟨hfits, howner⟩, hxs⟩ := forall_mem_cons.mp hxs
    have hbytes : x.bytes <+: buf.drop p := (prefix_append _ _).trans hpre
    obtain ⟨r, hr, hread, hstop⟩ := skimRecord_of_written hfits
      (howner p ((prefix_append _ _).trans hbytes)) hbytes
    obtain ⟨rs, hrs, hreads⟩ := ih hxs (prefix_drop_add hpre)
    refine ⟨r :: rs, ?_, ?_⟩
    · refine skimRecords_succ_eq_some_iff.mpr ⟨r, rs, rfl, hr, ?_⟩
      rw [hstop, hrs, flatMap_cons, length_append, Nat.add_assoc]
    · rw [map_cons, map_cons, hread, hreads]

/-! ### Messages -/

/-- The reply passes the check against the query and has these answers. -/
def Accepted (query w : Bytes) (recs : List Record) : Prop :=
  validateResponse query w = .ok () ∧
    (answerRecords w).map (List.map (AnswerRecord.read w)) = some recs

section Canvas

variable {rcode : UInt8} {query : Bytes} {qend : ℕ}

/-- The header of a canvas that was given a count of answers. -/
theorem header_canvas (hlen : 12 ≤ query.length) (tail : Bytes) (count : ℕ) :
    let w := setAncount (echoQuestion rcode query qend ++ tail) count
    u16At w 0 = u16At query 0 ∧ u16At w 4 = 1 ∧ u16At w 8 = 0 ∧ u16At w 10 = 0 ∧
      w.getD 2 0 = query.getD 2 0 ||| 0x80 ∧
      w.getD 3 0 = ((query.getD 3 0 ||| 0x80) &&& 0xF0) ||| rcode ∧
      w.drop 12 = (query.take qend).drop 12 ++ tail := by
  match query, hlen with
  | a :: b :: c :: d :: rest, _ => exact ⟨rfl, rfl, rfl, rfl, rfl, rfl, rfl⟩

/-- A canvas for a query that is not truncated has the flags of an answer. -/
theorem flagsOk_canvas (hlen : 12 ≤ query.length) (htc : maskAt query 2 0x02 = 0)
    (hrcode : rcode = 0 ∨ rcode = 3) (tail : Bytes) (count : ℕ) :
    FlagsOk (setAncount (echoQuestion rcode query qend ++ tail) count) := by
  have hbyte : ∀ x : UInt8, (x ||| 0x80) &&& 0x80 = 0x80 ∧
      (x ||| 0x80) &&& 0x02 = x &&& 0x02 ∧
      ∀ rcode ∈ [(0 : UInt8), 3], (((x ||| 0x80) &&& 0xF0) ||| rcode) &&& 0x0F = rcode :=
    forall_byte (by decide +kernel)
  obtain ⟨-, -, -, -, htwo, hthree, -⟩ := @header_canvas rcode query qend hlen tail count
  obtain ⟨hqr, htrunc, -⟩ := hbyte (query.getD 2 0)
  obtain ⟨-, -, hcode⟩ := hbyte (query.getD 3 0)
  have hmem : rcode ∈ [(0 : UInt8), 3] := by simpa using hrcode
  have hlow : maskAt (setAncount (echoQuestion rcode query qend ++ tail) count) 3 0x0F = rcode := by
    rw [maskAt, hthree]
    exact hcode rcode hmem
  refine ⟨?_, ?_, ?_, ?_⟩
  · rw [maskAt, htwo, hqr]
    decide
  · rw [maskAt, htwo, htrunc]
    exact htc
  · rw [hlow]
    rintro rfl
    exact absurd hmem (by decide)
  · rw [hlow]
    rintro rfl
    exact absurd hmem (by decide)

/-- **A canvas with answers behind it passes the check**, when the question name is plain and
the owners of the answers point at it; the answers are read back as they were written. -/
theorem accepted_canvas {q : DnsQuestion} (hparse : parseQuestionFull query = some (q, qend))
    (htc : maskAt query 2 0x02 = 0) {e : ℕ} (hplain : PlainName query 12 e)
    (hrcode : rcode = 0 ∨ rcode = 3) (xs : List Written)
    (hxs : ∀ x ∈ xs, x.Fits ∧ x.owner = [0xC0, 0x0C]) (hcount : xs.length ≤ 65535) :
    Accepted query (setAncount (echoQuestion rcode query qend ++ xs.flatMap Written.bytes)
      xs.length) (xs.map (Written.record q.qname)) := by
  obtain ⟨hlen, -, pos, hname, hpos, hid, htype, hclass, rfl⟩ :=
    parseQuestionFull_eq_some_iff.mp hparse
  obtain ⟨hid', hqd, hns, har, -, -, hdrop⟩ := @header_canvas rcode query
    (pos + 4) hlen (xs.flatMap Written.bytes) xs.length
  have hflags := @flagsOk_canvas rcode query (pos + 4) hlen htc hrcode
    (xs.flatMap Written.bytes) xs.length
  have hroom : 8 ≤ (echoQuestion rcode query (pos + 4) ++ xs.flatMap Written.bytes).length := by
    simp only [echoQuestion, length_append, length_cons, length_nil]
    omega
  have han := (setAncount_spec hroom xs.length).1
  rw [Nat.mod_eq_of_lt (by omega)] at han
  generalize setAncount _ _ = w at *
  obtain ⟨raw, heval, hraw⟩ := readName_eq_some_iff.mp hname
  have hlt := (readName_bounds hname).1
  -- the bytes of the question stand where they stood
  have hsame : ∀ i, 12 ≤ i → i < pos + 4 → w[i]? = query[i]? := by
    intro i hi hi'
    have hget := congrArg (·[i - 12]?) hdrop
    rw [getElem?_append_left (by
      rw [length_drop, length_take]
      omega)] at hget
    simp only [getElem?_drop, Nat.add_sub_cancel' hi] at hget
    rw [hget, getElem?_take_of_lt hi']
  have hrest : w.drop (pos + 4) = xs.flatMap Written.bytes := by
    have hsplit := congrArg (drop (pos + 4 - 12)) hdrop
    rwa [drop_drop, Nat.add_sub_cancel' (by omega), drop_left' (by
      rw [length_drop, length_take]
      omega)] at hsplit
  have hwlen : w.length = pos + 4 + (xs.flatMap Written.bytes).length := by
    have h12 := congrArg length hdrop
    simp only [length_drop, length_append, length_take] at h12
    omega
  obtain rfl := hplain.nameEnds.unique (nameEnds_of_readName hname)
  obtain ⟨-, hgo⟩ := hplain.evaluates (fun i hi hi' => hsame i hi (by omega)) heval
  have hname' : readName w 12 = some (q.qname, e) :=
    readName_eq_some_iff.mpr ⟨raw, hgo 0 none, hraw⟩
  have hu16 : ∀ p, 12 ≤ p → p + 2 ≤ e + 4 → u16At w p = u16At query p := by
    intro p hp hp'
    have hcopy : Copied query p w p 2 := fun i hi => hsame (p + i) (by omega) (by omega)
    rw [u16At, u16At, hcopy.bytesAt_eq]
  have hparse' : parseQuestionFull w = some (q, e + 4) :=
    parseQuestionFull_eq_some_iff.mpr ⟨by omega, by omega, e, hname', by omega,
      hid.trans hid'.symm, htype.trans (hu16 e (by omega) (by omega)).symm,
      hclass.trans (hu16 (e + 2) (by omega) (by omega)).symm, rfl⟩
  -- every owner leads back to the question name
  have howner : ∀ x ∈ xs, x.Fits ∧ ∀ p, x.owner <+: w.drop p →
      readName w p = some (q.qname, p + x.owner.length) := by
    intro x hx
    obtain ⟨hfits, hptr⟩ := hxs x hx
    refine ⟨hfits, fun p hpre => ?_⟩
    rw [hptr] at hpre ⊢
    obtain ⟨rest, heq⟩ := hpre
    have hfirst := congrArg (·[0]?) heq
    have hsecond := congrArg (·[1]?) heq
    simp only [getElem?_drop] at hfirst hsecond
    exact readName_plain_pointer hplain hname (fun i hi hi' => hsame i hi (by omega))
      hfirst.symm (by decide) hsecond.symm (by decide)
  obtain ⟨rs, hrs, hreads⟩ := skimRecords_of_written xs howner ⟨[], by rw [hrest]; simp⟩
  have hsections : parseSections w = some ⟨rs, [], []⟩ := by
    refine parseSections_eq_some_iff.mpr ⟨q, e + 4, hparse', hqd, ?_⟩
    refine skimSections_eq_some_iff.mpr ⟨w.length, w.length, ?_, ?_, ?_⟩
    · rw [han, hrs, hwlen]
    · rw [hns]
      rfl
    · rw [har]
      rfl
  constructor
  · refine validateResponse_eq_ok_iff.mpr ⟨hflags, ⟨q, e + 4, q, e + 4, hparse, hparse', rfl⟩, ?_⟩
    rw [hsections]
    rfl
  · rw [answerRecords, hsections, map_some, map_some, hreads]

end Canvas

end Dns
end TortaCore
