import TortaCore.Dns.Message

/-!
# The answer filter

`filter_rr` drops answers by their type.  Kept answers are written again with their
owner names uncompressed, which moves every byte behind the first name that changes its
length; their data, the Authority and the Additional section are copied as they are.  A
compression pointer in what is copied still names the old offset.

The source argues that "the only back-references in a normal reply are
answer→question".  The rewrite keeps the meaning of a message exactly when the owners can
be written and the names that are copied with their pointers still lead to the same
labels.  A name whose pointer leads into the question always does; one that refers to what
stands behind the question has to be looked at in the output.

## Main definitions

* `filterRr`: the rewrite.
-/

namespace TortaCore
namespace Dns

open Text Wire List Option

def typeCname : ℕ := 5

def typeMx : ℕ := 15

def anyDefangKeep : List ℕ := [typeA, typeAaaa, typeMx, typeCname]

/-- The closure `keep` of `filter_rr`. -/
def keepRecord (dropTypes : List ℕ) (defang : Bool) (rec : AnswerRecord) : Bool :=
  if rec.rclass ≠ classIn then true
  else if defang && !anyDefangKeep.contains rec.rtype then false
  else if dropTypes.contains rec.rtype then false
  else true

/-- A kept answer as it is written again. -/
def reemit (response : Bytes) (rec : AnswerRecord) : Bytes :=
  encodeName rec.name ++ (beBytes 2 rec.rtype ++ (beBytes 2 rec.rclass ++ (beBytes 4 rec.ttl ++
    (beBytes 2 rec.rdlength ++ bytesAt response rec.rdataAt rec.rdlength))))

/-- `buf[6..8].copy_from_slice(&count.to_be_bytes())`. -/
def setAncount (buf : Bytes) (count : ℕ) : Bytes := buf.take 6 ++ (beBytes 2 count ++ buf.drop 8)

/-- The message with the kept answers written again. -/
def rebuild (response : Bytes) (kept : List AnswerRecord) (qend anEnd : ℕ) : Bytes :=
  setAncount (response.take qend ++ kept.flatMap (reemit response)) kept.length ++
    response.drop anEnd

def filterRr (response : Bytes) (dropTypes : List ℕ) (anyDefang isAnyQuery : Bool) :
    Option Bytes :=
  match parseQuestionFull response with
  | none => none
  | some (_, qend) =>
    if u16At response 4 ≠ 1 then none
    else
      match skimRecords response qend (u16At response 6) with
      | none => none
      | some (answers, anEnd) =>
        let defang := anyDefang && isAnyQuery
        if dropTypes.isEmpty && !defang then some response
        else some (rebuild response (answers.filter (keepRecord dropTypes defang)) qend anEnd)

/-- The offset behind the answers when they are written from `q` on. -/
def newStop (keep : AnswerRecord → Bool) : List AnswerRecord → ℕ → ℕ
  | [], q => q
  | r :: rs, q =>
    if keep r then newStop keep rs (q + (encodeName r.name).length + 10 + r.rdlength)
    else newStop keep rs q

/-- Where the records of a section begin. -/
def recordStarts : List AnswerRecord → ℕ → List ℕ
  | [], _ => []
  | r :: rs, p => p :: recordStarts rs r.stop

variable {src dst : Bytes} {buf : Bytes} {p : ℕ} {r : AnswerRecord}

theorem u16At_copied {p q n : ℕ} (h : Copied src p dst q n) {k : ℕ}
    (hk : k + 2 ≤ n) : u16At dst (q + k) = u16At src (p + k) := by
  rw [u16At, u16At, (h.sub hk).bytesAt_eq]

theorem beBytes_u16At (h : p + 2 ≤ buf.length) :
    beBytes 2 (u16At buf p) = bytesAt buf p 2 := by
  have hback := beBytes_beNat (bytesAt buf p 2)
  rwa [length_bytesAt h] at hback

theorem beBytes_u32At (h : p + 4 ≤ buf.length) :
    beBytes 4 (u32At buf p) = bytesAt buf p 4 := by
  have hback := beBytes_beNat (bytesAt buf p 4)
  rwa [length_bytesAt h] at hback

theorem u16At_lt (h : p + 2 ≤ buf.length) : u16At buf p < 65536 := by
  have hlt := beNat_lt (bytesAt buf p 2)
  rwa [length_bytesAt h] at hlt

theorem skimRecord_bounds (h : skimRecord buf p = some r) :
    p + 10 < r.rdataAt ∧ r.rdataAt + r.rdlength ≤ buf.length := by
  obtain ⟨e, hname, -, -, -, -, -, hat, hstop⟩ := skimRecord_eq_some_iff.mp h
  obtain ⟨hlt, -⟩ := readName_bounds hname
  exact ⟨by omega, hstop⟩

/-- What `filter_rr` writes for a record: its name, and its other bytes as they were. -/
theorem reemit_eq {response : Bytes} (h : skimRecord response p = some r) :
    reemit response r =
      encodeName r.name ++ bytesAt response (r.rdataAt - 10) (10 + r.rdlength) := by
  obtain ⟨e, -, he, htype, hclass, httl, hlen, hat, -⟩ := skimRecord_eq_some_iff.mp h
  have hsub : r.rdataAt - 10 = e := by omega
  rw [reemit, htype, hclass, httl, beBytes_u16At (by omega), beBytes_u16At (by omega),
    beBytes_u32At (by omega), hsub, bytesAt_add, hat]
  have hfixed : bytesAt response e 10 = bytesAt response e 2 ++ (bytesAt response (e + 2) 2 ++
      (bytesAt response (e + 4) 4 ++ bytesAt response (e + 8) 2)) := by
    rw [← bytesAt_add response (e + 4) 4 2, ← bytesAt_add response (e + 2) 2 6,
      ← bytesAt_add response e 2 8]
  have hlength : beBytes 2 r.rdlength = bytesAt response (e + 8) 2 := by
    rw [hlen, beBytes_u16At (by omega)]
  rw [hfixed, hlength]
  simp only [append_assoc]

theorem length_of_skimRecords {count p stop : ℕ} {rs : List AnswerRecord}
    (h : skimRecords buf p count = some (rs, stop)) :
    rs.length = count ∧ p ≤ stop ∧ (p ≤ buf.length → stop ≤ buf.length) := by
  induction count generalizing p rs with
  | zero => cases h; exact ⟨rfl, Nat.le_refl _, id⟩
  | succ count ih =>
    obtain ⟨r, rest, rfl, hr, hrest⟩ := skimRecords_succ_eq_some_iff.mp h
    obtain ⟨hlen, hle, hin⟩ := ih hrest
    obtain ⟨hat, hstop⟩ := skimRecord_bounds hr
    unfold AnswerRecord.stop at hle
    exact ⟨by rw [length_cons, hlen], by omega, fun _ => hin hstop⟩

section Answers

variable {response out : Bytes} {keep : AnswerRecord → Bool}

/-- What stands at `q` when the kept ones of `answers` are written from there on. -/
def WrittenAt (response out : Bytes) (keep : AnswerRecord → Bool) (answers : List AnswerRecord)
    (q : ℕ) (tail : Bytes) : Prop :=
  out.drop q = (answers.filter keep).flatMap (reemit response) ++ tail

/-- A kept answer: its name, its other bytes, its data among them, then the rest. -/
theorem WrittenAt.cons_kept {rs : List AnswerRecord} {p q : ℕ} {tail : Bytes}
    (h : WrittenAt response out keep (r :: rs) q tail) (hr : skimRecord response p = some r)
    (hkeep : keep r = true) :
    encodeName r.name <+: out.drop q ∧
      Copied response (r.rdataAt - 10) out (q + (encodeName r.name).length) (10 + r.rdlength) ∧
      Copied response r.rdataAt out (q + (encodeName r.name).length + 10) r.rdlength ∧
      WrittenAt response out keep rs (q + (encodeName r.name).length + 10 + r.rdlength) tail := by
  obtain ⟨hbound, hin⟩ := skimRecord_bounds hr
  rw [WrittenAt, filter_cons_of_pos hkeep, flatMap_cons, reemit_eq hr,
    append_assoc, append_assoc] at h
  have hbody : out.drop (q + (encodeName r.name).length) =
      bytesAt response (r.rdataAt - 10) (10 + r.rdlength) ++
        ((rs.filter keep).flatMap (reemit response) ++ tail) := by
    rw [← drop_drop, h, drop_left]
  have hlen : (bytesAt response (r.rdataAt - 10) (10 + r.rdlength)).length = 10 + r.rdlength :=
    length_bytesAt (by omega)
  have hcopy := copied_of_prefix (by omega) ⟨_, hbody.symm⟩
  have hdata := hcopy.sub (k := 10) (m := r.rdlength) (by omega)
  rw [Nat.sub_add_cancel (by omega)] at hdata
  refine ⟨⟨_, h.symm⟩, hcopy, hdata, ?_⟩
  rw [WrittenAt, Nat.add_assoc _ 10, ← drop_drop, hbody, drop_left' hlen]

theorem WrittenAt.cons_dropped {rs : List AnswerRecord} {q : ℕ} {tail : Bytes}
    (h : WrittenAt response out keep (r :: rs) q tail) (hkeep : ¬ keep r = true) :
    WrittenAt response out keep rs q tail := by
  rwa [WrittenAt, filter_cons_of_neg hkeep] at h

theorem newStop_eq {count p q stop : ℕ} {answers : List AnswerRecord}
    (hskim : skimRecords response p count = some (answers, stop)) :
    newStop keep answers q = q + ((answers.filter keep).flatMap (reemit response)).length := by
  induction count generalizing p q answers with
  | zero => cases hskim; rfl
  | succ count ih =>
    obtain ⟨r, rs, rfl, hr, hrest⟩ := skimRecords_succ_eq_some_iff.mp hskim
    rw [newStop]
    split
    · next hkeep =>
      obtain ⟨hbound, hin⟩ := skimRecord_bounds hr
      have hlen : (bytesAt response (r.rdataAt - 10) (10 + r.rdlength)).length =
          10 + r.rdlength := length_bytesAt (by omega)
      rw [ih hrest, filter_cons_of_pos hkeep, flatMap_cons, reemit_eq hr,
        length_append, length_append, hlen]
      omega
    · next hkeep => rw [ih hrest, filter_cons_of_neg hkeep]

end Answers

/-! ### The whole message -/

section Whole

variable {response : Bytes} {keep : AnswerRecord → Bool} {answers : List AnswerRecord}
  {qend anEnd : ℕ}

theorem rebuild_eq (kept : List AnswerRecord) (hq : 8 ≤ qend) (hlen : qend ≤ response.length) :
    rebuild response kept qend anEnd =
      response.take 6 ++ (beBytes 2 kept.length ++ (bytesAt response 8 (qend - 8) ++
        (kept.flatMap (reemit response) ++ response.drop anEnd))) := by
  have htake : (response.take qend).length = qend := length_take_of_le hlen
  rw [rebuild, setAncount, take_append_of_le_length (by omega), drop_append_of_le_length (by omega),
    take_take, Nat.min_eq_left (by omega), drop_take]
  simp only [bytesAt, append_assoc]

/-- What the rewrite leaves of a message. -/
structure Rewritten (response out : Bytes) (keep : AnswerRecord → Bool)
    (answers : List AnswerRecord) (qend anEnd : ℕ) : Prop where
  head : Copied response 0 out 0 6
  ancount : u16At out 6 = (answers.filter keep).length
  question : Copied response 8 out 8 (qend - 8)
  written : WrittenAt response out keep answers qend (response.drop anEnd)
  tail : Copied response anEnd out (newStop keep answers qend) (response.length - anEnd)
  length_eq : out.length = newStop keep answers qend + (response.length - anEnd)

theorem rewritten_rebuild (keep : AnswerRecord → Bool) (hq : 8 ≤ qend)
    (hlen : qend ≤ response.length)
    (hskim : skimRecords response qend (u16At response 6) = some (answers, anEnd)) :
    Rewritten response (rebuild response (answers.filter keep) qend anEnd) keep answers qend
      anEnd := by
  have hsix : (response.take 6).length = 6 := length_take_of_le (by omega)
  have hquestion : (bytesAt response 8 (qend - 8)).length = qend - 8 := length_bytesAt (by omega)
  have hstop := (length_of_skimRecords hskim).2.2 hlen
  have hout := @rebuild_eq response _ anEnd (answers.filter keep) hq hlen
  generalize rebuild response (answers.filter keep) qend anEnd = out at hout ⊢
  have hdrop6 := congrArg (drop 6) hout
  rw [drop_left' hsix] at hdrop6
  have hdrop8 := congrArg (drop 2) hdrop6
  rw [drop_drop, drop_left' (length_beBytes 2 _)] at hdrop8
  have hdropq := congrArg (drop (qend - 8)) hdrop8
  rw [drop_drop, drop_left' hquestion, show 8 + (qend - 8) = qend by omega] at hdropq
  have htail : out.drop (newStop keep answers qend) = response.drop anEnd := by
    rw [newStop_eq hskim, ← drop_drop, hdropq, drop_left]
  have hkept : (answers.filter keep).length < 256 ^ 2 := by
    have hle := length_filter_le keep answers
    have hcount : u16At response 6 < 65536 := u16At_lt (by omega)
    rw [(length_of_skimRecords hskim).1] at hle
    omega
  have hcount := bytesAt_of_prefix ⟨_, hdrop6.symm⟩
  rw [length_beBytes] at hcount
  refine ⟨ copied_of_prefix (by omega) ?_, ?_, copied_of_prefix (by omega) ⟨_, hdrop8.symm⟩,
    hdropq, copied_of_prefix (by omega) ?_, ?_⟩
  · rw [drop_zero, hout]
    exact prefix_append _ _
  · rw [u16At, hcount, beNat_beBytes_of_lt hkept]
  · rw [htail, bytesAt]
    exact take_prefix _ _
  · rw [hout, newStop_eq hskim]
    simp only [length_append, length_drop, hsix, hquestion, length_beBytes]
    omega

end Whole

/-! ### Meaning -/

section Rewrite

variable {response out : Bytes} {keep : AnswerRecord → Bool} {secs : Sections} {qend anEnd : ℕ}
  (h : Rewritten response out keep secs.answers qend anEnd) (hq : 12 ≤ qend)
  (hskim : skimRecords response qend (u16At response 6) = some (secs.answers, anEnd))
  (hsecs : skimSections response qend = some (secs, response.length))

include h

include hskim hsecs

include hq

end Rewrite

end Dns
end TortaCore
