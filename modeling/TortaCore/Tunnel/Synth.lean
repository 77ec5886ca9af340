import TortaCore.Tunnel.Parse

/-!
# Replies of the tunnel

What the tunnel loop writes back (`tunnel/synth.rs`): a failure reply around a query, and
the IP and UDP frame around a reply, with source and destination swapped.
-/

namespace TortaCore
namespace Tunnel

open Machine Text Wire Net Dns List

def ipDefaultTtl : UInt8 := 64

def rcodeServfail : UInt8 := 2

/-! ### Failure replies -/

/-- The header of a failure: a response with the opcode and RD of the query, and no records
but the questions. -/
def applyServfailHeader (buf : Bytes) (rcode : UInt8) (qdcount : ℕ) : Bytes :=
  if buf.length < dnsHeaderLen then buf
  else
    let opcode := (byteAt buf 2 >>> 3) &&& 0x0F
    let rd := byteAt buf 2 &&& 0x01
    buf.take 2 ++ [(0x80 : UInt8) ||| (opcode <<< 3) ||| rd, rcode &&& 0x0F] ++ beBytes 2 qdcount ++
      [0, 0, 0, 0, 0, 0] ++ buf.drop dnsHeaderLen

/-- One turn of `skip_qname`; the state is the offset and the labels passed. -/
def skipStep (dns : Bytes) (s : ℕ × ℕ) : Turn (ℕ × ℕ) (Option ℕ) :=
  match dns[s.1]? with
  | none => .halt none
  | some len =>
    if len = 0 then .halt (some (s.1 + 1))
    else if len &&& 0xC0 ≠ 0 then
      if s.1 + 1 ≥ dns.length then .halt none else .halt (some (s.1 + 2))
    else if s.2 + 1 > 25 then .halt none
    else if s.1 + (1 + len.toNat) > dns.length then .halt none
    else .next (s.1 + (1 + len.toNat), s.2 + 1)

/-- The offset behind a name; a pointer ends it. -/
def skipQname (dns : Bytes) (off : ℕ) : Option ℕ := (loop (skipStep dns) 27 (off, 0)).join

/-- The offset behind `qd` questions. -/
def skipQuestions (dns : Bytes) : ℕ → ℕ → Option ℕ
  | 0, off => some (min off dns.length)
  | qd + 1, off =>
    (skipQname dns off).bind fun off =>
      if off + 4 > dns.length then none else skipQuestions dns qd (off + 4)

def endOfQuestion (dns : Bytes) : Option ℕ := skipQuestions dns (u16At dns 4) dnsHeaderLen

/-- The failure reply.  A query of one byte is the one that panics: its second byte is read. -/
def synthesizeServfail (query : Bytes) (rcode : UInt8) : Option Bytes :=
  if query.length < dnsHeaderLen then
    match query with
    | [] => some (applyServfailHeader (List.replicate dnsHeaderLen 0) rcode 0)
    | [_] => none
    | a :: b :: _ => some (applyServfailHeader (a :: b :: List.replicate 10 0) rcode 0)
  else
    let reply := applyServfailHeader query rcode (u16At query 4)
    match endOfQuestion query with
    | some endQ => some (reply.take endQ)
    | none => some reply

/-- A turn that goes on passes one of twenty-five labels. -/
theorem skipStep_eq_next {dns : Bytes} {s t : ℕ × ℕ} (h : skipStep dns s = .next t) :
    s.1 < t.1 ∧ t.2 = s.2 + 1 ∧ t.2 ≤ 25 := by
  revert h
  fun_cases skipStep with
  | case7 =>
    rintro ⟨⟩
    exact ⟨by omega, rfl, by omega⟩
  | _ => exact fun h => by cases h

theorem skipStep_eq_done {dns : Bytes} {s : ℕ × ℕ} {stop : ℕ}
    (h : skipStep dns s = .halt (some stop)) : s.1 < stop := by
  revert h
  fun_cases skipStep with
  | case2 | case4 =>
    rintro ⟨⟩
    omega
  | _ => exact fun h => by cases h

/-- The budget never decides: there are at most twenty-five labels. -/
theorem skipQname_eq_iff {dns : Bytes} {off : ℕ} {r : Option ℕ} :
    skipQname dns off = r ↔ Evaluates (skipStep dns) (off, 0) r := by
  refine join_loop_eq_iff (fun s => 26 - s.2) (fun s s' h => ?_) (Nat.lt_succ_self 26)
  obtain ⟨-, hnext, hle⟩ := skipStep_eq_next h
  omega

theorem lt_of_skipQname {dns : Bytes} {off stop : ℕ} (h : skipQname dns off = some stop) :
    off < stop := by
  suffices hall : ∀ s : ℕ × ℕ, Evaluates (skipStep dns) s (some stop) → s.1 < stop from
    hall (off, 0) (skipQname_eq_iff.mp h)
  intro s hs
  generalize hr : some stop = r at hs
  induction hs with
  | halt hs =>
    subst hr
    exact skipStep_eq_done hs
  | next hs _ ih => exact Nat.lt_trans (skipStep_eq_next hs).1 (ih hr)

theorem le_of_skipQuestions {dns : Bytes} (qd : ℕ) {off stop : ℕ} (hoff : off ≤ dns.length)
    (h : skipQuestions dns qd off = some stop) : off ≤ stop := by
  induction qd generalizing off with
  | zero =>
    cases h
    omega
  | succ qd ih =>
    obtain ⟨mid, hmid, h⟩ := Option.bind_eq_some_iff.mp h
    have hlt := lt_of_skipQname hmid
    split at h
    · cases h
    · have hle := ih (by omega) h
      omega

/-- A query with a whole header gets a reply, and the code is in it. -/
theorem synthesizeServfail_of_le {query : Bytes} (h : dnsHeaderLen ≤ query.length) (rcode : UInt8) :
    ∃ reply, synthesizeServfail query rcode = some reply ∧ reply[3]? = some (rcode &&& 0x0F) := by
  have hhead : ∀ qd, (applyServfailHeader query rcode qd)[3]? = some (rcode &&& 0x0F) := by
    intro qd
    have htwo : (query.take 2).length = 2 := by
      rw [length_take]
      unfold dnsHeaderLen at h
      omega
    rw [applyServfailHeader, if_neg (Nat.not_lt.mpr h)]
    simp only [append_assoc]
    rw [getElem?_append_right (by omega), htwo]
    rfl
  unfold synthesizeServfail
  rw [if_neg (Nat.not_lt.mpr h)]
  cases hend : endOfQuestion query with
  | none => exact ⟨_, rfl, hhead _⟩
  | some endQ =>
    refine ⟨_, rfl, ?_⟩
    have hle : dnsHeaderLen ≤ endQ := le_of_skipQuestions _ h hend
    rw [getElem?_take_of_lt (by unfold dnsHeaderLen at hle; omega)]
    exact hhead _

/-! ### Checksums -/

/-- Add the bytes to the sum as big-endian words, an odd one at the end in the high half. -/
def sumInto (acc : ℕ) : Bytes → ℕ
  | [] => acc
  | [b] => (acc + b.toNat * 256) % 2 ^ 32
  | a :: b :: bs => sumInto ((acc + (a.toNat * 256 + b.toNat)) % 2 ^ 32) bs

/-- The loop that adds the carry to the low half. -/
def foldCarry : ℕ → ℕ → ℕ
  | 0, acc => acc
  | fuel + 1, acc => if acc / 65536 ≠ 0 then foldCarry fuel (acc % 65536 + acc / 65536) else acc

/-- The one's complement of the folded sum. -/
def finalizeChecksum (acc : ℕ) : ℕ := 65535 - foldCarry 2 acc % 65536

/-- Zero means no checksum in UDP, so a zero is sent as ones. -/
def udpFinalize (acc : ℕ) : ℕ := if finalizeChecksum acc = 0 then 0xFFFF else finalizeChecksum acc

theorem sumInto_lt (bs : Bytes) {acc : ℕ} (h : acc < 2 ^ 32) : sumInto acc bs < 2 ^ 32 := by
  induction bs using twoStepInduction generalizing acc with
  | nil => exact h
  | singleton b => exact Nat.mod_lt _ (by decide)
  | cons_cons a b bs ih _ => exact ih (Nat.mod_lt _ (by decide))

/-- Two turns fold a sum of 32 bits, so the loop ends by itself. -/
theorem foldCarry_lt {acc : ℕ} (h : acc < 2 ^ 32) : foldCarry 2 acc < 65536 := by
  simp only [foldCarry]
  split
  · split
    · omega
    · omega
  · omega

/-! ### Frames -/

/-- The UDP header and payload.  `pseudo` is the sum of the pseudo-header. -/
def udpReply (pseudo sport dport : ℕ) (payload : Bytes) : Bytes :=
  let header := beBytes 2 sport ++ beBytes 2 dport ++ beBytes 2 (udpHeaderLen + payload.length)
  let cksum := udpFinalize (sumInto (sumInto pseudo header) payload)
  header ++ beBytes 2 cksum ++ payload

/-- The ports of a reply: those of the packet swapped. -/
def replyPorts (orig : ParsedPacket) : ℕ × ℕ :=
  ((orig.udp.map UdpLayer.dport).getD 53, (orig.udp.map UdpLayer.sport).getD 0)

def synthV4Reply (origSrc origDst : Ipv4Addr) (orig : ParsedPacket) (payload : Bytes) : Bytes :=
  let (sport, dport) := replyPorts orig
  let total := ip4HeaderLen + udpHeaderLen + payload.length
  let front := [0x45, 0] ++ beBytes 2 total ++ [0, 0, 0, 0, ipDefaultTtl, ipprotoUdp]
  let addresses := origDst.octets ++ origSrc.octets
  let cksum := finalizeChecksum (sumInto 0 (front ++ [0, 0] ++ addresses))
  let pseudo := sumInto (sumInto (sumInto 0 origDst.octets) origSrc.octets)
    ([0, ipprotoUdp] ++ beBytes 2 (udpHeaderLen + payload.length))
  front ++ beBytes 2 cksum ++ addresses ++ udpReply pseudo sport dport payload

def synthV6Reply (origSrc origDst : Ipv6Addr) (orig : ParsedPacket) (payload : Bytes) : Bytes :=
  let (sport, dport) := replyPorts orig
  let plen := udpHeaderLen + payload.length
  let header := [0x60, 0, 0, 0] ++ beBytes 2 plen ++ [ipprotoUdp, ipDefaultTtl] ++
    origDst.octets ++ origSrc.octets
  let pseudo := sumInto (sumInto (sumInto (sumInto 0 origDst.octets) origSrc.octets)
    (beBytes 4 plen)) [0, 0, 0, ipprotoUdp]
  header ++ udpReply pseudo sport dport payload

/-- The frame of a reply to a packet. -/
def synthIpUdpReply (orig : ParsedPacket) (payload : Bytes) : Bytes :=
  match orig.version, orig.srcIp, orig.dstIp with
  | 4, .v4 s, .v4 d => synthV4Reply s d orig payload
  | 6, .v6 s, .v6 d => synthV6Reply s d orig payload
  | _, _, _ => []

end Tunnel
end TortaCore
