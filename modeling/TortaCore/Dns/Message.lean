import TortaCore.Dns.Name

/-!
# Messages

The question section, the record walker with its three sections, and
`validate_response`, the check every upstream answer has to pass.

## Main definitions

* `validateResponse`: the check, with its reasons to reject.
-/

namespace TortaCore
namespace Dns

open Text Wire Option

def typeA : ℕ := 1

def typeAaaa : ℕ := 28

def classIn : ℕ := 1

/-- `u16::from_be_bytes([buf[p], buf[p + 1]])`. -/
def u16At (buf : Bytes) (p : ℕ) : ℕ := beNat (bytesAt buf p 2)

/-- `u32::from_be_bytes` of the four bytes at `p`. -/
def u32At (buf : Bytes) (p : ℕ) : ℕ := beNat (bytesAt buf p 4)

structure DnsQuestion where
  id : ℕ
  qname : Str
  qtype : ℕ
  qclass : ℕ
  deriving DecidableEq

/-- The question, and the offset behind it. -/
def parseQuestionFull (buf : Bytes) : Option (DnsQuestion × ℕ) :=
  if buf.length < 12 then none
  else if u16At buf 4 = 0 then none
  else
    match readName buf 12 with
    | none => none
    | some (qname, pos) =>
      if pos + 4 > buf.length then none
      else some (⟨u16At buf 0, qname, u16At buf pos, u16At buf (pos + 2)⟩, pos + 4)

/-- A resource record, its data left where it is in the message. -/
structure AnswerRecord where
  name : Str
  rtype : ℕ
  rclass : ℕ
  ttl : ℕ
  rdlength : ℕ
  rdataAt : ℕ
  deriving DecidableEq

/-- The offset behind a record. -/
def AnswerRecord.stop (r : AnswerRecord) : ℕ := r.rdataAt + r.rdlength

/-- The record at an offset: one turn of the loop of `skim_records`. -/
def skimRecord (buf : Bytes) (pos : ℕ) : Option AnswerRecord :=
  match readName buf pos with
  | none => none
  | some (name, pos) =>
    if pos + 10 > buf.length then none
    else
      let r : AnswerRecord := ⟨name, u16At buf pos, u16At buf (pos + 2), u32At buf (pos + 4),
        u16At buf (pos + 8), pos + 10⟩
      if r.stop > buf.length then none else some r

/-- `skim_records`: exactly `count` records, and the offset behind the last. -/
def skimRecords (buf : Bytes) (pos : ℕ) : ℕ → Option (List AnswerRecord × ℕ)
  | 0 => some ([], pos)
  | count + 1 =>
    match skimRecord buf pos with
    | none => none
    | some r => (skimRecords buf r.stop count).map fun rest => (r :: rest.1, rest.2)

/-- The three sections behind the question. -/
structure Sections where
  answers : List AnswerRecord
  authority : List AnswerRecord
  additional : List AnswerRecord
  deriving DecidableEq

/-- The three walks one after the other, by the counts of the header. -/
def skimSections (buf : Bytes) (qend : ℕ) : Option (Sections × ℕ) :=
  match skimRecords buf qend (u16At buf 6) with
  | none => none
  | some (an, pos) =>
    match skimRecords buf pos (u16At buf 8) with
    | none => none
    | some (ns, pos) =>
      match skimRecords buf pos (u16At buf 10) with
      | none => none
      | some (ar, pos) => some (⟨an, ns, ar⟩, pos)

/-- One question, three sections, and nothing behind them. -/
def parseSections (response : Bytes) : Option Sections :=
  match parseQuestionFull response with
  | none => none
  | some (_, qend) =>
    if u16At response 4 ≠ 1 then none
    else
      match skimSections response qend with
      | none => none
      | some (secs, pos) => if pos ≠ response.length then none else some secs

def answerRecords (response : Bytes) : Option (List AnswerRecord) :=
  (parseSections response).map (·.answers)

def authorityRecords (response : Bytes) : Option (List AnswerRecord) :=
  (parseSections response).map (·.authority)

/-- The third section by the same walk. -/
def additionalRecords (response : Bytes) : Option (List AnswerRecord) :=
  (parseSections response).map (·.additional)

def rtypeSoa : ℕ := 6

/-- The five integers behind the two names of an SOA record. -/
def soaFixedTail : ℕ := 20

/-- `negative_ttl_from_soa`: the smaller of the record's time to live and its MINIMUM
field, the last four bytes of its data. -/
def negativeTtlFromSoa (response : Bytes) : Option ℕ :=
  match (authorityRecords response).bind fun recs => recs.find? fun r => r.rtype == rtypeSoa with
  | none => none
  | some soa =>
    if soa.rdlength < soaFixedTail then none
    else some (min soa.ttl (u32At response (soa.stop - 4)))

inductive RejectReason where
  | malformed
  | notAResponse
  | idMismatch
  | questionMismatch
  | answerWalk
  | rcodeFailure
  | truncated
  | extraQuestions
  | trailingBytes
  deriving DecidableEq

/-- `buf[p] & mask`. -/
def maskAt (buf : Bytes) (p : ℕ) (mask : UInt8) : UInt8 := buf.getD p 0 &&& mask

def validateResponse (queryWire responseWire : Bytes) : Except RejectReason Unit :=
  match parseQuestionFull queryWire, parseQuestionFull responseWire with
  | none, _ => .error .malformed
  | _, none => .error .malformed
  | some (q, _), some (r, rend) =>
    if maskAt responseWire 2 0x80 = 0 then .error .notAResponse
    else if maskAt responseWire 2 0x02 ≠ 0 then .error .truncated
    else if maskAt responseWire 3 0x0F = 2 ∨ maskAt responseWire 3 0x0F = 5 then
      .error .rcodeFailure
    else if q.id ≠ r.id then .error .idMismatch
    else if q.qname ≠ r.qname ∨ q.qtype ≠ r.qtype ∨ q.qclass ≠ r.qclass then
      .error .questionMismatch
    else if u16At responseWire 4 ≠ 1 then .error .extraQuestions
    else
      match skimSections responseWire rend with
      | none => .error .answerWalk
      | some (_, pos) =>
        if pos ≠ responseWire.length then .error .trailingBytes else .ok ()

/-! ### What the walkers accept -/

theorem parseQuestionFull_eq_some_iff {buf : Bytes} {q : DnsQuestion} {qend : ℕ} :
    parseQuestionFull buf = some (q, qend) ↔
      12 ≤ buf.length ∧ u16At buf 4 ≠ 0 ∧ ∃ pos, readName buf 12 = some (q.qname, pos) ∧
        pos + 4 ≤ buf.length ∧ q.id = u16At buf 0 ∧ q.qtype = u16At buf pos ∧
        q.qclass = u16At buf (pos + 2) ∧ qend = pos + 4 := by
  constructor
  · fun_cases parseQuestionFull with
    | case5 hlen hqd qname pos hname hpos =>
      rintro ⟨⟩
      exact ⟨by omega, hqd, pos, hname, by omega, rfl, rfl, rfl, rfl⟩
    | _ => exact fun h => by cases h
  · rintro ⟨hlen, hqd, pos, hname, hpos, hid, htype, hclass, rfl⟩
    rw [parseQuestionFull, if_neg (by omega), if_neg hqd, hname]
    dsimp only
    rw [if_neg (by omega), ← hid, ← htype, ← hclass]

theorem skimRecord_eq_some_iff {buf : Bytes} {pos : ℕ} {r : AnswerRecord} :
    skimRecord buf pos = some r ↔
      ∃ p, readName buf pos = some (r.name, p) ∧ p + 10 ≤ buf.length ∧
        r.rtype = u16At buf p ∧ r.rclass = u16At buf (p + 2) ∧ r.ttl = u32At buf (p + 4) ∧
        r.rdlength = u16At buf (p + 8) ∧ r.rdataAt = p + 10 ∧ r.stop ≤ buf.length := by
  constructor
  · fun_cases skimRecord with
    | case4 name p hname hp r' hstop =>
      intro h
      obtain rfl := some.inj h
      exact ⟨p, hname, by omega, rfl, rfl, rfl, rfl, rfl, Nat.not_lt.mp hstop⟩
    | _ => exact fun h => by cases h
  · rintro ⟨p, hname, hp, htype, hclass, httl, hlen, hat, hstop⟩
    rw [skimRecord, hname]
    dsimp only
    rw [← htype, ← hclass, ← httl, ← hlen, ← hat]
    rw [if_neg (by omega), if_neg (by show ¬ r.stop > _; omega)]

theorem skimRecords_succ_eq_some_iff {buf : Bytes} {pos count stop : ℕ} {rs : List AnswerRecord} :
    skimRecords buf pos (count + 1) = some (rs, stop) ↔
      ∃ r rest, rs = r :: rest ∧ skimRecord buf pos = some r ∧
        skimRecords buf r.stop count = some (rest, stop) := by
  rw [skimRecords]
  constructor
  · intro h
    split at h
    · cases h
    next r hr =>
    obtain ⟨⟨rest, e⟩, hrest, heq⟩ := map_eq_some_iff.mp h
    cases heq
    exact ⟨r, rest, rfl, hr, hrest⟩
  · rintro ⟨r, rest, rfl, hr, hrest⟩
    rw [hr]
    dsimp only
    rw [hrest, map_some]

theorem skimSections_eq_some_iff {buf : Bytes} {qend stop : ℕ} {secs : Sections} :
    skimSections buf qend = some (secs, stop) ↔
      ∃ p₁ p₂, skimRecords buf qend (u16At buf 6) = some (secs.answers, p₁) ∧
        skimRecords buf p₁ (u16At buf 8) = some (secs.authority, p₂) ∧
        skimRecords buf p₂ (u16At buf 10) = some (secs.additional, stop) := by
  constructor
  · fun_cases skimSections with
    | case4 an p₁ han ns p₂ hns ar p₃ har =>
      rintro ⟨⟩
      exact ⟨p₁, p₂, han, hns, har⟩
    | _ => exact fun h => by cases h
  · rintro ⟨p₁, p₂, han, hns, har⟩
    rw [skimSections, han]
    dsimp only
    rw [hns]
    dsimp only
    rw [har]

theorem parseSections_eq_some_iff {response : Bytes} {secs : Sections} :
    parseSections response = some secs ↔
      ∃ q qend, parseQuestionFull response = some (q, qend) ∧ u16At response 4 = 1 ∧
        skimSections response qend = some (secs, response.length) := by
  constructor
  · fun_cases parseSections with
    | case5 q qend hq hqd secs' pos hsecs hpos =>
      rintro ⟨⟩
      rw [not_not.mp hpos] at hsecs
      exact ⟨q, qend, hq, not_not.mp hqd, hsecs⟩
    | _ => exact fun h => by cases h
  · rintro ⟨q, qend, hq, hqd, hsecs⟩
    rw [parseSections, hq]
    dsimp only
    rw [if_neg (not_not.mpr hqd), hsecs]
    dsimp only
    rw [if_neg (not_not.mpr rfl)]

/-- The flags an answer has to carry: a response, not truncated, no server failure. -/
def FlagsOk (response : Bytes) : Prop :=
  maskAt response 2 0x80 ≠ 0 ∧ maskAt response 2 0x02 = 0 ∧
    maskAt response 3 0x0F ≠ 2 ∧ maskAt response 3 0x0F ≠ 5

/-- **What the check guarantees**: both questions parse and agree as they were decoded,
the flags are those of an answer, and the sections fill the message. -/
theorem validateResponse_eq_ok_iff {query response : Bytes} :
    validateResponse query response = .ok () ↔
      FlagsOk response ∧ (∃ q qend r rend, parseQuestionFull query = some (q, qend) ∧
        parseQuestionFull response = some (r, rend) ∧ q = r) ∧
      (parseSections response).isSome = true := by
  unfold FlagsOk
  constructor
  · fun_cases validateResponse with
    | case11 q qend r rend hr hq hqr htc hrc hid hquestion hqd secs pos hsecs hpos =>
      intro _
      obtain ⟨hname, hrest⟩ := not_or.mp hquestion
      obtain ⟨htype, hclass⟩ := not_or.mp hrest
      have hqr' : q = r := by
        obtain ⟨qid, qname, qtype, qclass⟩ := q
        simp only [not_not] at hid hname htype hclass
        subst hid hname htype hclass
        rfl
      rw [not_not.mp hpos] at hsecs
      have hparse := parseSections_eq_some_iff.mpr ⟨r, rend, hr, not_not.mp hqd, hsecs⟩
      exact ⟨⟨hqr, not_not.mp htc, (not_or.mp hrc).1, (not_or.mp hrc).2⟩,
        ⟨q, qend, r, rend, hq, hr, hqr'⟩, by rw [hparse]; rfl⟩
    | _ => exact fun h => by cases h
  · rintro ⟨⟨hqr, htc, hrc2, hrc5⟩, ⟨q, qend, r, rend, hq, hr, rfl⟩, hsecs⟩
    obtain ⟨secs, hsecs⟩ := isSome_iff_exists.mp hsecs
    obtain ⟨r, rend', hr', hqd, hskim⟩ := parseSections_eq_some_iff.mp hsecs
    cases hr.symm.trans hr'
    simp [validateResponse, hq, hr, hqr, htc, hrc2, hrc5, hqd, hskim]

end Dns
end TortaCore
