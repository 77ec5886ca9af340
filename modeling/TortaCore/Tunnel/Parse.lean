import TortaCore.Dns.Message
import TortaCore.Net.IpAddr

/-!
# Packets of the tunnel

The parser of the tunnel loop (`tunnel/parse.rs`): IPv4 and IPv6 packets down to their UDP
payload, and a second walker for names on the wire, with bounds of its own.

## Main definitions

* `parseIpUdp`: the packet, its UDP layer if it has one.
* `matchesLanSuffix`, `isStandardQuery`: what the loop asks of a query.
-/

namespace TortaCore
namespace Tunnel

open Machine Text Wire Net Dns List Option

def ip4HeaderLen : ℕ := 20

def ip6HeaderLen : ℕ := 40

def udpHeaderLen : ℕ := 8

def tcpHeaderLen : ℕ := 20

def dnsHeaderLen : ℕ := 12

def ipprotoUdp : UInt8 := 17

def ipprotoTcp : UInt8 := 6

/-! ### IP and UDP -/

structure UdpLayer where
  sport : ℕ
  dport : ℕ
  payload : Bytes
  deriving DecidableEq

structure ParsedPacket where
  version : ℕ
  srcIp : IpAddr
  dstIp : IpAddr
  proto : UInt8
  udp : Option UdpLayer
  tcpDport : Option ℕ
  deriving DecidableEq

def ParsedPacket.isDnsQuery (p : ParsedPacket) : Bool :=
  match p.udp with
  | some u => u.dport = 53
  | none => false

/-- The byte at `p`; it is read only where there is one. -/
def byteAt (pkt : Bytes) (p : ℕ) : UInt8 := pkt.getD p 0

def parseUdpLayer (pkt : Bytes) (l4Off : ℕ) : Option UdpLayer :=
  if pkt.length < l4Off + udpHeaderLen then none
  else some ⟨u16At pkt l4Off, u16At pkt (l4Off + 2), pkt.drop (l4Off + udpHeaderLen)⟩

def parseTcpDport (pkt : Bytes) (l4Off : ℕ) : Option ℕ :=
  if pkt.length < l4Off + tcpHeaderLen then none else some (u16At pkt (l4Off + 2))

def isUpperLayer (proto : UInt8) : Bool :=
  proto == 6 || proto == 17 || proto == 58 || proto == 1

/-- The packet with its transport layer at `l4Off`. -/
def transport (pkt : Bytes) (version : ℕ) (src dst : IpAddr) (proto : UInt8) (l4Off : ℕ) :
    ParsedPacket where
  version := version
  srcIp := src
  dstIp := dst
  proto := proto
  udp := if proto = ipprotoUdp then parseUdpLayer pkt l4Off else none
  tcpDport := if proto = ipprotoTcp then parseTcpDport pkt l4Off else none

def ipv4At (pkt : Bytes) (p : ℕ) : IpAddr :=
  .v4 ⟨byteAt pkt p, byteAt pkt (p + 1), byteAt pkt (p + 2), byteAt pkt (p + 3)⟩

def ipv6At (pkt : Bytes) (p : ℕ) : Option IpAddr :=
  if h : (bytesAt pkt p 16).length = 16 then some (.v6 ⟨bytesAt pkt p 16, h⟩) else none

def parseV4 (pkt : Bytes) : Option ParsedPacket :=
  if pkt.length < ip4HeaderLen then none
  else
    let ihl := (byteAt pkt 0 &&& 0x0F).toNat
    if ihl < 5 then none
    else
      let headerLen := ihl * 4
      if headerLen > pkt.length then none
      else if u16At pkt 2 ≠ pkt.length then none
      else some (transport pkt 4 (ipv4At pkt 12) (ipv4At pkt 16) (byteAt pkt 9) headerLen)

/-- One turn of the walk over the extension headers of IPv6. -/
def extStep (pkt : Bytes) (off : ℕ) : Turn ℕ (Option (UInt8 × ℕ)) :=
  if off + 2 ≤ pkt.length then
    let nxt := byteAt pkt off
    let extLen := 8 + (byteAt pkt (off + 1)).toNat * 8
    if isUpperLayer nxt then .halt (some (nxt, off + extLen))
    else if off + extLen > pkt.length then .halt none
    else .next (off + extLen)
  else .halt none

/-- The transport protocol behind the extension headers, and where it starts. -/
def extWalk (pkt : Bytes) : Option (UInt8 × ℕ) :=
  (loop (extStep pkt) (pkt.length + 2) ip6HeaderLen).join

def parseV6 (pkt : Bytes) : Option ParsedPacket :=
  if pkt.length < ip6HeaderLen then none
  else do
    let src ← ipv6At pkt 8
    let dst ← ipv6At pkt 24
    let base := byteAt pkt 6
    -- without a transport protocol on the way the base header's one stands
    let (proto, l4Off) :=
      if isUpperLayer base then (base, ip6HeaderLen)
      else (extWalk pkt).getD (base, ip6HeaderLen)
    return transport pkt 6 src dst proto l4Off

def parseIpUdp (pkt : Bytes) : Option ParsedPacket :=
  match pkt with
  | [] => none
  | b :: _ =>
    match (b >>> 4).toNat with
    | 4 => parseV4 pkt
    | 6 => parseV6 pkt
    | _ => none

/-! ### The name of the question -/

def qnamePtrCap : ℕ := 25

def qnameMax : ℕ := 255

/-- The walk over the name: the labels, each with a dot behind it, and the offset behind the
name.  `budget` labels and pointers may still be taken. -/
def qnameWalk (buf : Bytes) (budget : ℕ) (labels : Bytes) (ptr advanced : ℕ) :
    Option (Bytes × ℕ) :=
  match buf[ptr]? with
  | none => none
  | some len =>
    if len = 0 then some (labels, if advanced ≠ 0 then advanced else ptr + 1)
    else
      match budget with
      | 0 => none
      | budget + 1 =>
        if ptr + 1 < buf.length ∧ len &&& 0xC0 ≠ 0 then
          let jump := pointerTarget len (byteAt buf (ptr + 1))
          if jump ≥ buf.length then none
          else
            qnameWalk buf budget labels jump
              (if advanced = 0 then dnsHeaderLen + 2 else advanced)
        else if ptr + 1 + len.toNat < buf.length ∧ labels.length + len.toNat ≤ qnameMax then
          qnameWalk buf budget (labels ++ bytesAt buf (ptr + 1) len.toNat ++ [dot])
            (ptr + 1 + len.toNat) advanced
        else none

/-- The name as text, and the offset behind the question. -/
def extractQname (payload : Bytes) : Option (Str × ℕ) :=
  if dnsHeaderLen ≥ payload.length then none
  else
    match qnameWalk payload qnamePtrCap [] dnsHeaderLen 0 with
    | none => none
    | some (labels, finalOff) =>
      if labels.isEmpty then none
      else (fromUtf8 labels.dropLast).map fun qname => (qname, finalOff + 4)

def eqIcaseBytes (a b : Bytes) : Bool :=
  (a.zip b).all fun p => asciiLowerByte p.1 == asciiLowerByte p.2

def eqIcase (a b : Str) : Bool :=
  (utf8 a).length == (utf8 b).length && eqIcaseBytes (utf8 a) (utf8 b)

def lanSuffixes : List Str :=
  [".local".toList, ".lan".toList, ".home".toList, ".corp".toList, ".private".toList,
    ".internal".toList, ".intranet".toList, ".254.169.in-addr.arpa".toList,
    ".8.e.f.ip6.arpa".toList, ".9.e.f.ip6.arpa".toList, ".a.e.f.ip6.arpa".toList,
    ".b.e.f.ip6.arpa".toList]

def matchesLanSuffix (qname : Str) : Bool :=
  eqIcase qname "ipv4only.arpa".toList ||
    lanSuffixes.any fun suf =>
      let q := utf8 qname
      let s := utf8 suf
      q.length ≥ s.length && eqIcaseBytes (q.drop (q.length - s.length)) s

/-- A query with opcode zero and at least one question. -/
def isStandardQuery (payload : Bytes) : Bool :=
  if payload.length < dnsHeaderLen then false
  else
    let byte2 := byteAt payload 2
    (byte2 >>> 7) &&& 0x01 == 0 && (byte2 >>> 3) &&& 0x0F == 0 && u16At payload 4 > 0

/-! ### The two walkers -/

/-- The number of labels and pointers the walk over the name at an offset takes. -/
inductive HopsAt (buf : Bytes) : ℕ → ℕ → Prop where
  | root {pos} : buf[pos]? = some 0 → HopsAt buf pos 0
  | pointer {pos len lo n} : buf[pos]? = some len → isPointer len = true →
      buf[pos + 1]? = some lo → HopsAt buf (pointerTarget len lo) n → HopsAt buf pos (n + 1)
  | label {pos len n} : buf[pos]? = some len → len ≠ 0 → len.toNat ≤ maxLabelLen →
      HopsAt buf (pos + 1 + len.toNat) n → HopsAt buf pos (n + 1)

variable {buf : Bytes}

theorem HopsAt.unique {pos n m : ℕ} (hn : HopsAt buf pos n) (hm : HopsAt buf pos m) : n = m := by
  induction hn generalizing m with
  | root h =>
    cases hm with
    | root => rfl
    | _ => grind [not_isPointer_zero]
  | pointer h hp hlo _ ih =>
    cases hm with
    | pointer h' _ hlo' hrest =>
      cases some.inj (h.symm.trans h')
      cases some.inj (hlo.symm.trans hlo')
      rw [ih hrest]
    | _ => grind [not_isPointer_zero, not_isPointer_of_le]
  | label h hz hle _ ih =>
    cases hm with
    | label h' _ _ hrest =>
      cases some.inj (h.symm.trans h')
      rw [ih hrest]
    | _ => grind [not_isPointer_of_le]

/-- The labels as the tunnel keeps them: with a dot behind the last one. -/
def dotted (labels : Bytes) : Bytes := if labels.isEmpty then [] else labels ++ [dot]

theorem dotted_pushLabel (labels : Bytes) {l : Bytes} (hl : l ≠ []) :
    dotted (pushLabel labels l) = dotted labels ++ l ++ [dot] := by
  cases labels with
  | nil => simp [dotted, pushLabel, hl]
  | cons b labels => simp [dotted, pushLabel]

theorem length_dotted_add (labels : Bytes) {l : Bytes} (hl : l ≠ []) :
    (dotted labels).length + l.length = (pushLabel labels l).length := by
  have h := congrArg List.length (dotted_pushLabel labels hl)
  have hne : pushLabel labels l ≠ [] := by
    intro hnil
    have hge := length_pushLabel_ge labels l
    rw [hnil, List.length_nil] at hge
    exact hl (List.eq_nil_of_length_eq_zero (by omega))
  simp only [dotted, List.isEmpty_iff, hne, if_false, List.length_append,
    List.length_singleton] at h ⊢
  omega

/-- The pointer and label tests of the two walkers agree on what both accept. -/
theorem and_C0_ne_zero {len : UInt8} (hp : isPointer len = true) : len &&& 0xC0 ≠ 0 := by
  intro h
  rw [isPointer, h] at hp
  cases hp

theorem and_C0_eq_zero {len : UInt8} (h : len.toNat ≤ maxLabelLen) : len &&& 0xC0 = 0 := by
  have hall : ∀ n < 64, UInt8.ofNat n &&& 0xC0 = 0 := by decide
  have hlen := hall len.toNat (by unfold maxLabelLen at h; omega)
  rwa [UInt8.ofNat_toNat] at hlen

theorem lt_length_of_getElem? {p : ℕ} {b : UInt8} (h : buf[p]? = some b) :
    p < buf.length := (List.getElem?_eq_some_iff.mp h).1

theorem qnameWalk_root {pos : ℕ} (h : buf[pos]? = some 0) (budget : ℕ) (labels : Bytes)
    (advanced : ℕ) :
    qnameWalk buf budget labels pos advanced =
      some (labels, if advanced ≠ 0 then advanced else pos + 1) := by
  unfold qnameWalk
  simp [h]

theorem qnameWalk_zero {pos : ℕ} {len : UInt8} (h : buf[pos]? = some len) (hz : len ≠ 0)
    (labels : Bytes) (advanced : ℕ) : qnameWalk buf 0 labels pos advanced = none := by
  unfold qnameWalk
  simp [h, hz]

/-- The walk ends with `out` if the budget is at least `n`, and gives up if not. -/
def TakesHops (buf labels : Bytes) (pos n : ℕ) (out : Bytes) : Prop :=
  ∀ budget advanced,
    (n ≤ budget → ∃ off, qnameWalk buf budget labels pos advanced = some (out, off)) ∧
    (budget < n → qnameWalk buf budget labels pos advanced = none)

theorem takesHops_root {labels : Bytes} {pos : ℕ} (h : buf[pos]? = some 0) :
    TakesHops buf labels pos 0 labels := fun budget advanced =>
  ⟨fun _ => ⟨_, qnameWalk_root h budget labels advanced⟩, fun hlt => absurd hlt (Nat.not_lt_zero _)⟩

theorem TakesHops.succ {labels labels' out : Bytes} {pos pos' n : ℕ} {len : UInt8}
    (h : TakesHops buf labels' pos' n out) (hlen : buf[pos]? = some len) (hz : len ≠ 0)
    (hturn : ∀ budget advanced, ∃ advanced', qnameWalk buf (budget + 1) labels pos advanced =
      qnameWalk buf budget labels' pos' advanced') : TakesHops buf labels pos (n + 1) out := by
  intro budget advanced
  cases budget with
  | zero =>
    exact ⟨fun hle => absurd hle (Nat.not_succ_le_zero n), fun _ => qnameWalk_zero hlen hz _ _⟩
  | succ budget =>
    obtain ⟨advanced', hstep⟩ := hturn budget advanced
    rw [hstep]
    exact ⟨fun hle => (h budget advanced').1 (Nat.le_of_succ_le_succ hle),
      fun hlt => (h budget advanced').2 (Nat.lt_of_succ_lt_succ hlt)⟩

/-- **The tunnel's walker on a name the resolver reads**: it takes the same labels, and gives
up exactly when the budget is less than the labels and pointers on the way. -/
theorem qnameWalk_eq {s : NameState} {raw : Bytes} {after : ℕ}
    (h : Evaluates (nameStep buf) s (some (raw, after))) :
    ∃ n, HopsAt buf s.pos n ∧ TakesHops buf (dotted s.labels) s.pos n (dotted raw) := by
  generalize hr : some (raw, after) = r at h
  induction h with
  | halt hs =>
    subst hr
    obtain ⟨hz, heq⟩ := nameStep_eq_done hs
    cases heq
    exact ⟨0, .root hz, takesHops_root hz⟩
  | @next s t r hs _ ih =>
    obtain ⟨n, hhops, hwalk⟩ := ih hr
    obtain ⟨len, lo, hlen, hz, hp, hlo, -, hptr, rfl⟩ | ⟨len, hlen, hz, -, hle, hend, hmax, rfl⟩ :=
      nameStep_eq_next hs
    · -- a pointer
      refine ⟨n + 1, .pointer hlen hp hlo hhops, hwalk.succ hlen hz fun budget advanced => ?_⟩
      have hbyte : byteAt buf (s.pos + 1) = lo := by
        simp [byteAt, getD_eq_getElem?_getD, hlo]
      refine ⟨if advanced = 0 then dnsHeaderLen + 2 else advanced, ?_⟩
      rw [qnameWalk]
      simp [hlen, hz, lt_length_of_getElem? hlo, and_C0_ne_zero hp, hbyte, Nat.not_le_of_lt hptr]
    · -- a label
      refine ⟨n + 1, .label hlen hz hle hhops, hwalk.succ hlen hz fun budget advanced => ?_⟩
      have hlabel : bytesAt buf (s.pos + 1) len.toNat ≠ [] := by
        apply ne_nil_of_length_pos
        rw [length_bytesAt hend]
        exact Nat.pos_of_ne_zero fun h0 => hz (UInt8.toNat_inj.mp h0)
      -- the walk goes on behind the label, so there is a byte
      have hnext : s.pos + 1 + len.toNat < buf.length := by
        cases hhops with
        | root h => exact lt_length_of_getElem? h
        | pointer h => exact lt_length_of_getElem? h
        | label h => exact lt_length_of_getElem? h
      have hroom : (dotted s.labels).length + len.toNat ≤ qnameMax := by
        have hlen' := length_dotted_add s.labels hlabel
        rw [length_bytesAt hend] at hlen'
        rw [hlen']
        exact hmax
      refine ⟨advanced, ?_⟩
      rw [qnameWalk, dotted_pushLabel _ hlabel]
      simp [hlen, hz, and_C0_eq_zero hle, hnext, hroom]

theorem dropLast_dotted {raw : Bytes} (h : raw ≠ []) : (dotted raw).dropLast = raw := by
  simp [dotted, h]

/-- **The name of the question, by the tunnel's walker**: on a question the resolver reads it
is the join of the same labels, if the walk is short enough, the name is not the root and the
bytes are UTF-8. -/
theorem extractQname_eq_some_iff {payload : Bytes} {q : DnsQuestion} {qend : ℕ}
    (h : parseQuestionFull payload = some (q, qend)) :
    ∃ n ls, HopsAt payload dnsHeaderLen n ∧ LabelsAt payload dnsHeaderLen ls ∧
      q.qname = toLowercase (fromUtf8Lossy ([dot].intercalate ls)) ∧
      ∀ name, (∃ off, extractQname payload = some (name, off)) ↔
        n ≤ qnamePtrCap ∧ ls ≠ [] ∧ fromUtf8 ([dot].intercalate ls) = some name := by
  obtain ⟨-, -, pos, hname, -, -, -, -, -⟩ := parseQuestionFull_eq_some_iff.mp h
  obtain ⟨raw, heval, hqname⟩ := readName_eq_some_iff.mp hname
  obtain ⟨ls, hls, hraw⟩ := labelsAt_of_evaluates heval
  obtain ⟨n, hhops, hwalk⟩ := qnameWalk_eq heval
  have hjoin : raw = [dot].intercalate ls := by rw [hraw, ← foldl_pushLabel_nil hls.ne_nil]; rfl
  have hlen : ¬ dnsHeaderLen ≥ payload.length := by
    cases hhops with
    | root h => exact Nat.not_le_of_lt (lt_length_of_getElem? h)
    | pointer h => exact Nat.not_le_of_lt (lt_length_of_getElem? h)
    | label h => exact Nat.not_le_of_lt (lt_length_of_getElem? h)
  have hnil : raw = [] ↔ ls = [] := by
    rw [hjoin]
    cases ls with
    | nil => simp
    | cons l ls =>
      have hl := hls.ne_nil l (mem_cons_self ..)
      cases ls <;> simp [intercalate, hl]
  refine ⟨n, ls, hhops, hls, hjoin ▸ hqname, fun name => ?_⟩
  rw [extractQname, if_neg hlen, ← hjoin]
  by_cases hn : n ≤ qnamePtrCap
  · obtain ⟨off, hwalked⟩ := (hwalk qnamePtrCap 0).1 hn
    have hstart : qnameWalk payload qnamePtrCap [] dnsHeaderLen 0 = some (dotted raw, off) :=
      hwalked
    rw [hstart]
    by_cases hroot : raw = []
    · simp [hroot, dotted, hnil.mp hroot]
    · have hne : (dotted raw).isEmpty = false := by simp [dotted, hroot]
      simp [hne, dropLast_dotted hroot, hn, hnil.not.mp hroot]
  · have hgave : qnameWalk payload qnamePtrCap [] dnsHeaderLen 0 = none :=
      (hwalk qnamePtrCap 0).2 (Nat.lt_of_not_le hn)
    rw [hgave]
    simp [hn]

end Tunnel
end TortaCore
