import TortaCore.Dns.Layout
import TortaCore.Tunnel.Synth

/-!
# Failure replies

What the tunnel answers when there is no answer: the header of the query as a failure, and
its question.  Two things can go wrong.  A query of one byte has no second byte to echo; and
the walker that looks for the end of the question passes at most twenty-five labels, so that
behind a longer name nothing is cut off.
-/

namespace TortaCore
namespace Tunnel

open Machine Text Wire Net Dns List Option

/-! ### Labels in line -/

/-- The encoding of a name from `p` on has `n` labels in line and ends at `e`, at the root or
behind a pointer. -/
inductive InLine (buf : Bytes) : ℕ → ℕ → ℕ → Prop where
  | root {p} : buf[p]? = some 0 → InLine buf p 0 (p + 1)
  | pointer {p len} : buf[p]? = some len → isPointer len = true → InLine buf p 0 (p + 2)
  | label {p n e len} : buf[p]? = some len → len ≠ 0 → len.toNat ≤ maxLabelLen →
      InLine buf (p + 1 + len.toNat) n e → InLine buf p (n + 1) e

variable {buf : Bytes} {query : Bytes}

theorem InLine.nameEnds {p n e : ℕ} (h : InLine buf p n e) : NameEnds buf p e := by
  induction h with
  | root hz => exact .root hz
  | pointer hlen hp => exact .pointer hlen hp
  | label hlen hne hle _ ih => exact .label hlen hne hle ih

theorem exists_inLine {p e : ℕ} (h : NameEnds buf p e) : ∃ n, InLine buf p n e := by
  induction h with
  | root hz => exact ⟨0, .root hz⟩
  | pointer hlen hp => exact ⟨0, .pointer hlen hp⟩
  | label hlen hne hle _ ih =>
    obtain ⟨n, hn⟩ := ih
    exact ⟨n + 1, .label hlen hne hle hn⟩

def maxSkipped : ℕ := 25

/-- The walk from label `k` on. -/
theorem evaluates_skipStep {p n e : ℕ} (h : InLine buf p n e) (hend : e ≤ buf.length) {k : ℕ}
    (hk : k ≤ maxSkipped) :
    Evaluates (skipStep buf) (p, k) (if k + n ≤ maxSkipped then some e else none) := by
  induction h generalizing k with
  | root hz =>
    rw [Nat.add_zero, if_pos hk]
    refine .halt ?_
    simp [skipStep, hz]
  | @pointer p len hlen hp =>
    have hz : len ≠ 0 := by
      rintro rfl
      cases hp
    rw [Nat.add_zero, if_pos hk]
    refine .halt ?_
    simp only [skipStep, hlen, if_neg hz, if_pos (and_C0_ne_zero hp)]
    exact if_neg (by omega)
  | @label p n e len hlen hz hle hrest ih =>
    have hlt := hrest.nameEnds.lt
    have hplain : ¬ len &&& 0xC0 ≠ 0 := not_not.mpr (and_C0_eq_zero hle)
    have hnext : p + (1 + len.toNat) = p + 1 + len.toNat := by omega
    by_cases hlast : k = maxSkipped
    · -- one label too many
      subst hlast
      rw [if_neg (by omega)]
      refine .halt ?_
      simp only [skipStep, hlen, if_neg hz, if_neg hplain]
      exact if_pos (by decide)
    · have hroom : ¬ k + 1 > 25 := by
        unfold maxSkipped at hk hlast
        omega
      have hstep : skipStep buf (p, k) = .next (p + 1 + len.toNat, k + 1) := by
        simp only [skipStep, hlen, if_neg hz, if_neg hplain, if_neg hroom, hnext]
        exact if_neg (by omega)
      have hsum : k + (n + 1) = k + 1 + n := by omega
      rw [hsum]
      exact .next hstep (ih hend (by omega))

/-- **The walker on a name that the resolver reads**: it finds the end unless there are more
than twenty-five labels in line. -/
theorem skipQname_eq {p n e : ℕ} (h : InLine buf p n e) (hend : e ≤ buf.length) :
    skipQname buf p = if n ≤ maxSkipped then some e else none := by
  have heval := evaluates_skipStep h hend (Nat.zero_le maxSkipped)
  rw [Nat.zero_add] at heval
  exact skipQname_eq_iff.mpr heval

/-! ### What a failure reply should be -/

/-- A header that echoes the identifier, with the response bit and no records. -/
structure FailureHeader (query reply : Bytes) : Prop where
  length : dnsHeaderLen ≤ reply.length
  id : ∀ i < 2, i < query.length → reply[i]? = query[i]?
  response : ∃ flags, reply[2]? = some flags ∧ flags &&& 0x80 = 0x80
  ancount : u16At reply 6 = 0
  nscount : u16At reply 8 = 0
  arcount : u16At reply 10 = 0

/-- Behind the header stands the question, if the query has one, and nothing else. -/
def EchoesQuestion (query reply : Bytes) : Prop :=
  ∀ q qend, parseQuestionFull query = some (q, qend) → u16At query 4 = 1 →
    reply.drop dnsHeaderLen = (query.take qend).drop dnsHeaderLen

/-- The question has a name of at most twenty-five labels in line, or nothing behind it. -/
def ShortOrAlone (query : Bytes) : Prop :=
  ∀ q qend n, parseQuestionFull query = some (q, qend) → u16At query 4 = 1 →
    InLine query dnsHeaderLen n (qend - 4) → n ≤ maxSkipped ∨ query.length = qend

/-- The header that is written, in front of the rest of the buffer. -/
theorem applyServfailHeader_eq (h : dnsHeaderLen ≤ buf.length) (rcode : UInt8)
    (qdcount : ℕ) : ∃ a b flags, buf.take 2 = [a, b] ∧ flags &&& 0x80 = 0x80 ∧
      applyServfailHeader buf rcode qdcount =
        [a, b, flags, rcode &&& 0x0F] ++ beBytes 2 qdcount ++ [0, 0, 0, 0, 0, 0] ++
          buf.drop dnsHeaderLen := by
  have hflags : ∀ b : UInt8, ((0x80 : UInt8) ||| (((b >>> 3) &&& 0x0F) <<< 3) ||| (b &&& 0x01)) &&&
      0x80 = 0x80 := forall_byte (by decide +kernel)
  obtain ⟨a, b, rest, rfl⟩ : ∃ a b rest, buf = a :: b :: rest := by
    rcases buf with _ | ⟨a, _ | ⟨b, rest⟩⟩
    · cases h
    · cases Nat.le_of_succ_le_succ h
    · exact ⟨a, b, rest, rfl⟩
  refine ⟨a, b, _, rfl, hflags (byteAt (a :: b :: rest) 2), ?_⟩
  rw [applyServfailHeader, if_neg (Nat.not_lt.mpr h)]
  rfl

theorem length_applyServfailHeader (h : dnsHeaderLen ≤ buf.length) (rcode : UInt8)
    (qdcount : ℕ) : (applyServfailHeader buf rcode qdcount).length = buf.length := by
  obtain ⟨a, b, flags, -, -, heq⟩ := applyServfailHeader_eq h rcode qdcount
  have htwelve : ([a, b, flags, rcode &&& 0x0F] ++ beBytes 2 qdcount ++
      [0, 0, 0, 0, 0, 0]).length = dnsHeaderLen := rfl
  rw [heq, length_append, length_drop]
  omega

theorem failureHeader_take {query buf : Bytes} (h : dnsHeaderLen ≤ buf.length)
    (hid : ∀ i < 2, i < query.length → (buf.take 2)[i]? = query[i]?) (rcode : UInt8)
    (qdcount : ℕ) {k : ℕ} (hk : dnsHeaderLen ≤ k) :
    FailureHeader query ((applyServfailHeader buf rcode qdcount).take k) ∧
      ((applyServfailHeader buf rcode qdcount).take k).drop dnsHeaderLen =
        (buf.take k).drop dnsHeaderLen := by
  obtain ⟨a, b, flags, hab, hflags, heq⟩ := applyServfailHeader_eq h rcode qdcount
  have htake : (applyServfailHeader buf rcode qdcount).take k =
      [a, b, flags, rcode &&& 0x0F] ++ beBytes 2 qdcount ++ [0, 0, 0, 0, 0, 0] ++
        (buf.take k).drop dnsHeaderLen := by
    rw [heq, take_append, take_of_length_le hk, drop_take]
    rfl
  rw [htake]
  refine ⟨⟨?_, fun i hi hq => ?_, ⟨flags, rfl, hflags⟩, rfl, rfl, rfl⟩, rfl⟩
  · rw [length_append]
    exact Nat.le_add_right _ _
  · rw [← hid i hi hq, hab]
    obtain rfl | rfl : i = 0 ∨ i = 1 := by omega
    · rfl
    · rfl

/-- A query without a whole header gets a header and nothing else. -/
theorem failureHeader_bare {query buf : Bytes} (h : buf.length = dnsHeaderLen)
    (hid : ∀ i < 2, i < query.length → (buf.take 2)[i]? = query[i]?) (rcode : UInt8) :
    FailureHeader query (applyServfailHeader buf rcode 0) := by
  have hlen := length_applyServfailHeader (Nat.le_of_eq h.symm) rcode 0
  have hheader := (failureHeader_take (Nat.le_of_eq h.symm) hid rcode 0 (Nat.le_refl _)).1
  rwa [take_of_length_le (by omega)] at hheader

/-- Where the reply to a query with a whole header is cut off. -/
def cutAt (query : Bytes) : ℕ := (endOfQuestion query).getD query.length

theorem synthesizeServfail_eq_take (h : dnsHeaderLen ≤ query.length) (rcode : UInt8) :
    synthesizeServfail query rcode =
      some ((applyServfailHeader query rcode (u16At query 4)).take (cutAt query)) := by
  have hlen := length_applyServfailHeader h rcode (u16At query 4)
  unfold synthesizeServfail
  rw [if_neg (Nat.not_lt.mpr h), cutAt]
  cases hend : endOfQuestion query with
  | some endQ => rfl
  | none =>
    simp only [getD_none]
    rw [take_of_length_le (Nat.le_of_eq hlen)]

theorem le_cutAt (h : dnsHeaderLen ≤ query.length) :
    dnsHeaderLen ≤ cutAt query := by
  rw [cutAt]
  cases hend : endOfQuestion query with
  | some endQ => exact le_of_skipQuestions _ h hend
  | none => exact h

/-- The cut is behind the question, or nothing is cut off. -/
theorem cutAt_eq {qend n : ℕ} (hone : u16At query 4 = 1)
    (hline : InLine query dnsHeaderLen n (qend - 4)) (hfour : 4 ≤ qend)
    (hend : qend ≤ query.length) :
    cutAt query = if n ≤ maxSkipped then qend else query.length := by
  have hback : qend - 4 + 4 = qend := by omega
  rw [cutAt, endOfQuestion, hone, skipQuestions, skipQname_eq hline (by omega)]
  split
  · rw [bind_some, hback, if_neg (Nat.not_lt.mpr hend), skipQuestions, getD_some]
    omega
  · rfl

/-- What the resolver reads as the question. -/
theorem bounds_of_parseQuestionFull {q : DnsQuestion} {qend : ℕ}
    (h : parseQuestionFull query = some (q, qend)) :
    dnsHeaderLen + 4 < qend ∧ qend ≤ query.length ∧
      ∃ n, InLine query dnsHeaderLen n (qend - 4) := by
  obtain ⟨-, -, pos, hname, hend, -, -, -, rfl⟩ := parseQuestionFull_eq_some_iff.mp h
  have hends := nameEnds_of_readName hname
  have hlt := hends.lt
  obtain ⟨n, hn⟩ := exists_inLine hends
  exact ⟨Nat.add_lt_add_right hlt 4, hend, n, hn⟩

/-- The reply to a query with a whole header echoes its question exactly when the cut is right. -/
theorem echoesQuestion_iff (h : dnsHeaderLen ≤ query.length) (rcode : UInt8) :
    EchoesQuestion query
      ((applyServfailHeader query rcode (u16At query 4)).take (cutAt query)) ↔
    ShortOrAlone query := by
  obtain ⟨-, hdrop⟩ := @failureHeader_take query query h
    (fun i hi _ => getElem?_take_of_lt hi) rcode (u16At query 4) _ (le_cutAt h)
  rw [EchoesQuestion, hdrop]
  constructor
  · intro hecho q qend n hparse hone hline
    obtain ⟨hlt, hend, -⟩ := bounds_of_parseQuestionFull hparse
    have hcut := cutAt_eq hone hline (by omega) hend
    have hlen := congrArg length (hecho q qend hparse hone)
    rw [length_drop, length_drop, length_take, length_take] at hlen
    by_cases hn : n ≤ maxSkipped
    · exact .inl hn
    · rw [if_neg hn] at hcut
      exact .inr (by omega)
  · intro hshort q qend hparse hone
    obtain ⟨hlt, hend, n, hline⟩ := bounds_of_parseQuestionFull hparse
    have hcut := cutAt_eq hone hline (by omega) hend
    rcases hshort q qend n hparse hone hline with hn | halone
    · rw [hcut, if_pos hn]
    · rw [hcut, halone, ite_self]

/-- **When a failure reply is what it should be**: when the query is not a single byte, and
its question is short enough for the walker or the last thing in the query. -/
theorem failure_reply_iff (query : Bytes) (rcode : UInt8) :
    (∃ reply, synthesizeServfail query rcode = some reply ∧ FailureHeader query reply ∧
      EchoesQuestion query reply) ↔
    query.length ≠ 1 ∧ ShortOrAlone query := by
  by_cases h : dnsHeaderLen ≤ query.length
  · rw [synthesizeServfail_eq_take h]
    obtain ⟨hheader, -⟩ := @failureHeader_take query query h
      (fun i hi _ => getElem?_take_of_lt hi) rcode (u16At query 4) _ (le_cutAt h)
    have hlen : query.length ≠ 1 := by
      unfold dnsHeaderLen at h
      omega
    constructor
    · rintro ⟨reply, hreply, -, hecho⟩
      cases hreply
      exact ⟨hlen, (echoesQuestion_iff h rcode).mp hecho⟩
    · rintro ⟨-, hshort⟩
      exact ⟨_, rfl, hheader, (echoesQuestion_iff h rcode).mpr hshort⟩
  · -- there is no question to echo
    have hnone : ∀ q qend, parseQuestionFull query ≠ some (q, qend) := fun q qend hparse =>
      h (parseQuestionFull_eq_some_iff.mp hparse).1
    have hshort : ShortOrAlone query := fun q qend n hparse => absurd hparse (hnone q qend)
    have hecho : ∀ reply, EchoesQuestion query reply := fun reply q qend hparse =>
      absurd hparse (hnone q qend)
    rw [and_iff_left hshort]
    unfold synthesizeServfail
    rw [if_pos (Nat.lt_of_not_le h)]
    rcases query with _ | ⟨a, _ | ⟨b, rest⟩⟩
    · refine iff_of_true ⟨_, rfl, failureHeader_bare rfl ?_ rcode, hecho _⟩ (by decide)
      intro i _ hi
      cases hi
    · refine iff_of_false ?_ (not_not.mpr rfl)
      rintro ⟨reply, hreply, -⟩
      cases hreply
    · refine iff_of_true ⟨_, rfl, failureHeader_bare rfl ?_ rcode, hecho _⟩ (by simp)
      intro i hi _
      obtain rfl | rfl : i = 0 ∨ i = 1 := by omega
      · rfl
      · rfl

/-- A reverse query for an IPv6 address, with an OPT record behind the question. -/
def reverseQuery : Bytes :=
  [0x12, 0x34, 1, 0, 0, 1, 0, 0, 0, 0, 0, 1] ++ (List.replicate 32 [1, 0x30]).flatten ++
    [3, 0x69, 0x70, 0x36, 4, 0x61, 0x72, 0x70, 0x61, 0, 0, 12, 0, 1] ++
    [0, 0, 41, 4, 0xD0, 0, 0, 0, 0, 0, 0]

/-- One byte gets no reply, and the OPT record stays behind a question of 34 labels. -/
theorem failure_reply_breaks :
    synthesizeServfail [0x12] rcodeServfail = none ∧
      (parseQuestionFull reverseQuery).map Prod.snd = some 90 ∧ u16At reverseQuery 4 = 1 ∧
      (synthesizeServfail reverseQuery rcodeServfail).map (List.drop 90) =
        some [0, 0, 41, 4, 0xD0, 0, 0, 0, 0, 0, 0] := by
  decide +kernel

end Tunnel
end TortaCore
