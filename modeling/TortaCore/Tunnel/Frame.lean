import TortaCore.Dns.Layout
import TortaCore.Tunnel.Synth
import TortaCore.Wire.Checksum

/-!
# Frames of the tunnel

The frame around a reply, as a receiver checks it: it parses, with source and destination
of the packet swapped, and its checksums are right.

The code adds the words of several runs of bytes in 32 bits and brings the carry around at
the end.  Only the last run may be odd, and a frame is too short for the sum to overflow.
-/

namespace TortaCore
namespace Tunnel

open Text Wire Net Dns List Option Ipv4Addr

/-! ### The code's sums -/

theorem sumInto_eq (bs : Bytes) {acc : ℕ} (h : acc < 2 ^ 32) :
    sumInto acc bs = (acc + (wordsOf bs).sum) % 2 ^ 32 := by
  induction bs using twoStepInduction generalizing acc with
  | nil => exact (Nat.mod_eq_of_lt h).symm
  | singleton b => rw [sumInto, wordsOf, sum_singleton]
  | cons_cons a b bs ih _ =>
    rw [sumInto, ih (Nat.mod_lt _ (by decide)), wordsOf, sum_cons, Nat.mod_add_mod, Nat.add_assoc]

/-- Runs of which the first is even are added as one. -/
theorem sumInto_sumInto (as bs : Bytes) (h : as.length % 2 = 0) {acc : ℕ} (hacc : acc < 2 ^ 32) :
    sumInto (sumInto acc as) bs = sumInto acc (as ++ bs) := by
  rw [sumInto_eq bs (sumInto_lt as hacc), sumInto_eq as hacc, sumInto_eq (as ++ bs) hacc,
    sum_wordsOf_append h, Nat.mod_add_mod, Nat.add_assoc]

theorem sumInto_of_short {bs : Bytes} (h : bs.length ≤ 131070) :
    sumInto 0 bs = (wordsOf bs).sum := by
  have hle := sum_wordsOf_le bs
  rw [sumInto_eq bs (by decide), Nat.zero_add, Nat.mod_eq_of_lt]
  omega

/-- The loop brings the whole carry around. -/
theorem foldCarry_eq {acc : ℕ} (h : acc < 2 ^ 32) : foldCarry 2 acc = onesRep acc := by
  have hrep : ∀ fuel n, onesRep (foldCarry fuel n) = onesRep n := by
    intro fuel
    induction fuel with
    | zero => intro n; rfl
    | succ fuel ih =>
      intro n
      rw [foldCarry]
      split
      · rw [ih, onesRep_carry]
      · rfl
  have hlt := foldCarry_lt h
  rw [← hrep 2 acc, onesRep_of_le (by omega)]

theorem finalizeChecksum_eq {n : ℕ} (h : n < 2 ^ 32) :
    finalizeChecksum n = 65535 - onesRep n := by
  have hle := onesRep_le n
  rw [finalizeChecksum, foldCarry_eq h, Nat.mod_eq_of_lt (by omega)]

/-- The checksum of UDP is not zero, and completes the sum to ones. -/
theorem udpFinalize_spec {n : ℕ} (h : n < 2 ^ 32) :
    udpFinalize n ≠ 0 ∧ udpFinalize n < 65536 ∧ onesRep (n + udpFinalize n) = 0xFFFF := by
  have hcomplement := onesRep_add_complement n
  unfold udpFinalize
  rw [finalizeChecksum_eq h]
  split
  · next hzero =>
    -- the sum is ones already, and ones more leave it so
    have hne : n ≠ 0 := by
      rintro rfl
      cases hzero
    rw [hzero, Nat.add_zero] at hcomplement
    exact ⟨by decide, by decide, (onesRep_add_ones hne).trans hcomplement⟩
  · next hne => exact ⟨hne, by omega, hcomplement⟩

/-! ### What a receiver checks -/

/-- What a UDP checksum covers besides the datagram. -/
def pseudoHeader (src dst : IpAddr) (udpLen : ℕ) : Bytes :=
  match src, dst with
  | .v4 s, .v4 d => s.octets ++ d.octets ++ [0, ipprotoUdp] ++ beBytes 2 udpLen
  | .v6 s, .v6 d => s.octets ++ d.octets ++ beBytes 4 udpLen ++ [0, 0, 0, ipprotoUdp]
  | _, _ => []

/-- The length of an IP header without options. -/
def ipHeaderLen (version : ℕ) : ℕ := if version = 4 then ip4HeaderLen else ip6HeaderLen

/-- The payload fits the length fields of the frame. -/
def FitsFrame (p : ParsedPacket) (payload : Bytes) : Prop :=
  (if p.version = 4 then ip4HeaderLen else 0) + udpHeaderLen + payload.length ≤ 65535

instance (p : ParsedPacket) (payload : Bytes) : Decidable (FitsFrame p payload) :=
  inferInstanceAs (Decidable (_ ≤ _))

/-- The frame is a reply to the packet `p` with datagram `u`, and carries the payload. -/
structure ValidReply (p : ParsedPacket) (u : UdpLayer) (payload frame : Bytes) : Prop where
  parses : parseIpUdp frame = some
    { version := p.version
      srcIp := p.dstIp
      dstIp := p.srcIp
      proto := ipprotoUdp
      udp := some ⟨u.dport, u.sport, payload⟩
      tcpDport := none }
  headerSum : p.version = 4 → onesSum (frame.take ip4HeaderLen) = 0xFFFF
  udpLen : u16At frame (ipHeaderLen p.version + 4) = udpHeaderLen + payload.length
  udpSum : onesSum (pseudoHeader p.dstIp p.srcIp (udpHeaderLen + payload.length) ++
    frame.drop (ipHeaderLen p.version)) = 0xFFFF
  udpChecksum : u16At frame (ipHeaderLen p.version + 6) ≠ 0

/-! ### The datagram -/

section Datagram

variable {sport dport : ℕ} {payload : Bytes} (hlen : udpHeaderLen + payload.length ≤ 65535)
include hlen

/-- The datagram of a reply, whatever the even pseudo-header. -/
theorem udpReply_spec {pseudo : Bytes} (heven : pseudo.length % 2 = 0)
    (hshort : pseudo.length ≤ 40) :
    ∃ cksum, cksum ≠ 0 ∧ cksum < 65536 ∧
      udpReply (sumInto 0 pseudo) sport dport payload =
        beBytes 2 sport ++ (beBytes 2 dport ++ (beBytes 2 (udpHeaderLen + payload.length) ++
          (beBytes 2 cksum ++ payload))) ∧
      onesSum (pseudo ++ udpReply (sumInto 0 pseudo) sport dport payload) = 0xFFFF := by
  have hsix : (beBytes 2 sport ++ beBytes 2 dport ++
      beBytes 2 (udpHeaderLen + payload.length)).length = 6 := rfl
  generalize hheader : beBytes 2 sport ++ beBytes 2 dport ++
    beBytes 2 (udpHeaderLen + payload.length) = header at hsix
  have hacc : sumInto (sumInto (sumInto 0 pseudo) header) payload =
      (wordsOf pseudo).sum + (wordsOf header).sum + (wordsOf payload).sum := by
    have hboth : (pseudo ++ header).length % 2 = 0 := by
      rw [length_append, hsix]
      omega
    rw [sumInto_sumInto pseudo header heven (by decide),
      sumInto_sumInto _ payload hboth (by decide), sumInto_of_short, sum_wordsOf_append hboth,
      sum_wordsOf_append heven]
    simp only [length_append, hsix]
    omega
  have hsum : (wordsOf pseudo).sum + (wordsOf header).sum + (wordsOf payload).sum < 2 ^ 32 := by
    rw [← hacc]
    exact sumInto_lt _ (sumInto_lt _ (sumInto_lt _ (by decide)))
  obtain ⟨hne, hlt, hones⟩ := udpFinalize_spec hsum
  have hreply : udpReply (sumInto 0 pseudo) sport dport payload =
      header ++ (beBytes 2 (udpFinalize ((wordsOf pseudo).sum + (wordsOf header).sum +
        (wordsOf payload).sum)) ++ payload) := by
    rw [udpReply, hheader, hacc, append_assoc]
  refine ⟨_, hne, hlt, ?_, ?_⟩
  · rw [hreply, ← hheader, append_assoc, append_assoc]
  · rw [hreply, onesSum_eq, sum_wordsOf_append heven, sum_wordsOf_append (by rw [hsix]),
      sum_wordsOf_append (by rw [length_beBytes]), wordsOf_beBytes hlt, sum_singleton, ← hones]
    congr 1
    omega

/-- The datagram behind a header of `off` bytes. -/
theorem parseUdpLayer_append {frame : Bytes} {off cksum : ℕ} (hs : sport < 65536)
    (hd : dport < 65536) (hc : cksum < 65536)
    (h : frame.drop off = beBytes 2 sport ++ (beBytes 2 dport ++
      (beBytes 2 (udpHeaderLen + payload.length) ++ (beBytes 2 cksum ++ payload)))) :
    parseUdpLayer frame off = some ⟨sport, dport, payload⟩ ∧
      u16At frame (off + 4) = udpHeaderLen + payload.length ∧ u16At frame (off + 6) = cksum := by
  have hports : beBytes 2 sport ++ (beBytes 2 dport ++ (beBytes 2 (udpHeaderLen + payload.length) ++
      (beBytes 2 cksum ++ payload))) <+: frame.drop off := h ▸ prefix_rfl
  have hdport := prefix_be_drop hports
  have hudp := prefix_be_drop hdport
  have hcksum := prefix_be_drop hudp
  have hrest : frame.drop (off + udpHeaderLen) = payload := by
    have hfull := congrArg (drop udpHeaderLen) h
    rw [drop_drop] at hfull
    exact hfull
  have hlong : ¬ frame.length < off + udpHeaderLen := by
    have htotal := congrArg length h
    simp only [length_drop, length_append, length_beBytes] at htotal
    unfold udpHeaderLen
    omega
  refine ⟨?_, u16At_of_written (by omega) hudp, u16At_of_written hc hcksum⟩
  rw [parseUdpLayer, if_neg hlong, u16At_of_written hs hports, u16At_of_written hd hdport, hrest]

end Datagram

/-! ### The frames -/

variable {pkt : Bytes} {u : UdpLayer} {p : ParsedPacket}

theorem udp_transport {version : ℕ} {src dst : IpAddr} {proto : UInt8} {l4Off : ℕ}
    (h : (transport pkt version src dst proto l4Off).udp = some u) :
    u.sport < 65536 ∧ u.dport < 65536 := by
  simp only [transport] at h
  split at h
  · unfold parseUdpLayer at h
    split at h
    · cases h
    next hlen =>
    cases h
    unfold udpHeaderLen at hlen
    exact ⟨u16At_lt (by omega), u16At_lt (by omega)⟩
  · cases h

theorem parseV4_spec (h : parseV4 pkt = some p) :
    ∃ s d proto off, p = transport pkt 4 (.v4 s) (.v4 d) proto off := by
  revert h
  fun_cases parseV4 with
  | case5 =>
    rintro ⟨⟩
    exact ⟨_, _, _, _, rfl⟩
  | _ => exact fun h => by cases h

theorem parseV6_spec (h : parseV6 pkt = some p) :
    ∃ s d proto off, p = transport pkt 6 (.v6 s) (.v6 d) proto off := by
  have haddr : ∀ {off : ℕ} {a : IpAddr}, ipv6At pkt off = some a → ∃ v, a = .v6 v := by
    intro off a ha
    unfold ipv6At at ha
    split at ha
    · cases ha
      exact ⟨_, rfl⟩
    · cases ha
  unfold parseV6 at h
  split at h
  · cases h
  obtain ⟨src, hsrc, h⟩ := bind_eq_some_iff.mp h
  obtain ⟨dst, hdst, h⟩ := bind_eq_some_iff.mp h
  obtain ⟨s, rfl⟩ := haddr hsrc
  obtain ⟨d, rfl⟩ := haddr hdst
  cases h
  exact ⟨s, d, _, _, rfl⟩

/-- A packet that parses has addresses of its version, and its transport layer somewhere. -/
theorem parseIpUdp_spec (h : parseIpUdp pkt = some p) :
    (∃ s d proto off, p = transport pkt 4 (.v4 s) (.v4 d) proto off) ∨
      ∃ s d proto off, p = transport pkt 6 (.v6 s) (.v6 d) proto off := by
  unfold parseIpUdp at h
  split at h
  · cases h
  split at h
  · exact .inl (parseV4_spec h)
  · exact .inr (parseV6_spec h)
  · cases h

/-- The checksum of a header of even halves completes its sum to ones. -/
theorem onesSum_header {front back : Bytes} (hfront : front.length % 2 = 0)
    (hshort : front.length + back.length ≤ 40) :
    onesSum (front ++ (beBytes 2 (finalizeChecksum (sumInto 0 (front ++ [0, 0] ++ back))) ++
      back)) = 0xFFFF := by
  have hacc : sumInto 0 (front ++ [0, 0] ++ back) = (wordsOf front).sum + (wordsOf back).sum := by
    rw [sumInto_of_short (by simp; omega), append_assoc, sum_wordsOf_append hfront]
    simp [wordsOf]
  have hlt : (wordsOf front).sum + (wordsOf back).sum < 2 ^ 32 := by
    rw [← hacc]
    exact sumInto_lt _ (by decide)
  rw [hacc, finalizeChecksum_eq hlt, onesSum_eq, sum_wordsOf_append hfront,
    sum_wordsOf_append (by rw [length_beBytes]), wordsOf_beBytes (by omega), sum_singleton]
  have hcomplement := onesRep_add_complement ((wordsOf front).sum + (wordsOf back).sum)
  rwa [Nat.add_assoc, Nat.add_comm (wordsOf back).sum] at hcomplement

section Frames

variable (hu : p.udp = some u) (payload : Bytes)
include hu

/-- The frame of IPv4: a header of twenty bytes and the datagram. -/
theorem synthV4Reply_eq (s d : Ipv4Addr) :
    let front := [0x45, 0] ++ beBytes 2 (ip4HeaderLen + udpHeaderLen + payload.length) ++
      [0, 0, 0, 0, ipDefaultTtl, ipprotoUdp]
    synthV4Reply s d p payload =
      front ++ (beBytes 2 (finalizeChecksum (sumInto 0 (front ++ [0, 0] ++
        (d.octets ++ s.octets)))) ++ (d.octets ++ s.octets)) ++
      udpReply (sumInto 0 (pseudoHeader (.v4 d) (.v4 s) (udpHeaderLen + payload.length)))
        u.dport u.sport payload := by
  have hpseudo : sumInto 0 (pseudoHeader (.v4 d) (.v4 s) (udpHeaderLen + payload.length)) =
      sumInto (sumInto (sumInto 0 d.octets) s.octets)
        ([0, ipprotoUdp] ++ beBytes 2 (udpHeaderLen + payload.length)) := by
    have hd : d.octets.length % 2 = 0 := by simp [octets]
    have hds : (d.octets ++ s.octets).length % 2 = 0 := by simp [octets]
    rw [sumInto_sumInto _ _ hd (by decide), sumInto_sumInto _ _ hds (by decide), pseudoHeader,
      append_assoc]
  intro front
  rw [hpseudo, synthV4Reply, replyPorts, hu, append_assoc front]
  rfl

theorem synthV6Reply_eq (s d : Ipv6Addr) :
    synthV6Reply s d p payload =
      [0x60, 0, 0, 0] ++ beBytes 2 (udpHeaderLen + payload.length) ++ [ipprotoUdp, ipDefaultTtl] ++
        (d.octets ++ (s.octets ++
      udpReply (sumInto 0 (pseudoHeader (.v6 d) (.v6 s) (udpHeaderLen + payload.length)))
        u.dport u.sport payload)) := by
  have hpseudo : sumInto 0 (pseudoHeader (.v6 d) (.v6 s) (udpHeaderLen + payload.length)) =
      sumInto (sumInto (sumInto (sumInto 0 d.octets) s.octets)
        (beBytes 4 (udpHeaderLen + payload.length))) [0, 0, 0, ipprotoUdp] := by
    have hd : d.octets.length % 2 = 0 := by rw [d.length_octets]
    have hds : (d.octets ++ s.octets).length % 2 = 0 := by
      rw [length_append, d.length_octets, s.length_octets]
    have hlen : (d.octets ++ s.octets ++ beBytes 4 (udpHeaderLen + payload.length)).length % 2 =
        0 := by
      rw [length_append, length_append, d.length_octets, s.length_octets, length_beBytes]
    rw [sumInto_sumInto _ _ hd (by decide), sumInto_sumInto _ _ hds (by decide),
      sumInto_sumInto _ _ hlen (by decide)]
    rfl
  rw [hpseudo, synthV6Reply, replyPorts, hu]
  simp only [append_assoc]
  rfl

end Frames

theorem parseIpUdp_v4 {frame : Bytes} {s d : Ipv4Addr} {lo hi ck ck' : UInt8} {datagram : Bytes}
    (hframe : frame = [0x45, 0, hi, lo, 0, 0, 0, 0, ipDefaultTtl, ipprotoUdp, ck, ck'] ++
      (s.octets ++ d.octets) ++ datagram) (hlen : u16At frame 2 = frame.length)
    (hudp : parseUdpLayer frame ip4HeaderLen = some u) :
    parseIpUdp frame = some
      { version := 4, srcIp := .v4 s, dstIp := .v4 d, proto := ipprotoUdp, udp := some u
        tcpDport := none } := by
  have hlong : ip4HeaderLen ≤ frame.length := by
    unfold parseUdpLayer at hudp
    split at hudp
    · cases hudp
    · omega
  have hparse : parseIpUdp frame = parseV4 frame := by rw [hframe]; rfl
  have hfirst : byteAt frame 0 = 0x45 := by rw [hframe]; rfl
  have hihl : ((0x45 : UInt8) &&& 0x0F).toNat = 5 := by decide
  have hproto : byteAt frame 9 = ipprotoUdp := by rw [hframe]; rfl
  have hsrc : ipv4At frame 12 = .v4 s := by rw [hframe]; rfl
  have hdst : ipv4At frame 16 = .v4 d := by rw [hframe]; rfl
  have hhead : 5 * 4 = ip4HeaderLen := rfl
  rw [hparse, parseV4, if_neg (Nat.not_lt.mpr hlong)]
  simp only [hfirst, hihl, hhead]
  rw [if_neg (by decide), if_neg (Nat.not_lt.mpr hlong), if_neg (not_not.mpr hlen), hsrc, hdst,
    hproto, transport, if_pos rfl, if_neg (by decide), hudp]

theorem parseIpUdp_v6 {frame : Bytes} {s d : Ipv6Addr} {lo hi : UInt8} {datagram : Bytes}
    (hframe : frame = [0x60, 0, 0, 0, hi, lo, ipprotoUdp, ipDefaultTtl] ++
      (s.octets ++ (d.octets ++ datagram))) (hudp : parseUdpLayer frame ip6HeaderLen = some u) :
    parseIpUdp frame = some
      { version := 6, srcIp := .v6 s, dstIp := .v6 d, proto := ipprotoUdp, udp := some u
        tcpDport := none } := by
  have hlong : ip6HeaderLen ≤ frame.length := by
    unfold parseUdpLayer at hudp
    split at hudp
    · cases hudp
    · omega
  have haddr : ∀ {a : Ipv6Addr} {off : ℕ}, a.octets <+: frame.drop off →
      ipv6At frame off = some (.v6 a) := by
    intro a off hpre
    have hbytes := bytesAt_of_prefix hpre
    rw [a.length_octets] at hbytes
    simp only [ipv6At, hbytes, a.length_octets, dite_true]
  have hparse : parseIpUdp frame = parseV6 frame := by rw [hframe]; rfl
  have hproto : byteAt frame 6 = ipprotoUdp := by rw [hframe]; rfl
  have hdrop : frame.drop 8 = s.octets ++ (d.octets ++ datagram) := by rw [hframe]; rfl
  have hsrc : ipv6At frame 8 = some (.v6 s) := by
    refine haddr ?_
    rw [hdrop]
    exact prefix_append _ _
  have hdst : ipv6At frame 24 = some (.v6 d) := by
    refine haddr ?_
    have hnext : frame.drop 24 = (frame.drop 8).drop 16 := by rw [drop_drop]
    rw [hnext, hdrop, ← s.length_octets, drop_left]
    exact prefix_append _ _
  rw [hparse, parseV6, if_neg (Nat.not_lt.mpr hlong), hsrc, hdst]
  simp only [hproto]
  rw [← hudp]
  rfl

section Valid

variable {payload : Bytes} (hu : p.udp = some u)
  (hports : u.sport < 65536 ∧ u.dport < 65536) (hfit : FitsFrame p payload)
include hu hports hfit

theorem validReply_v4 {s d : Ipv4Addr} (hv : p.version = 4) (hs : p.srcIp = .v4 s)
    (hd : p.dstIp = .v4 d) : ValidReply p u payload (synthIpUdpReply p payload) := by
  have hframe : synthIpUdpReply p payload = synthV4Reply s d p payload := by
    simp only [synthIpUdpReply, hv, hs, hd]
  rw [FitsFrame, if_pos hv] at hfit
  have hoff : ipHeaderLen p.version = ip4HeaderLen := if_pos hv
  obtain ⟨cksum, hne, hlt, hudp, hsum⟩ := @udpReply_spec u.dport u.sport payload (by omega)
    (pseudoHeader (.v4 d) (.v4 s) (udpHeaderLen + payload.length))
    (by simp [pseudoHeader, octets]) (by simp [pseudoHeader, octets])
  have heq := synthV4Reply_eq hu payload s d
  have hdrop : (synthV4Reply s d p payload).drop ip4HeaderLen =
      udpReply (sumInto 0 (pseudoHeader (.v4 d) (.v4 s) (udpHeaderLen + payload.length)))
        u.dport u.sport payload := by
    rw [heq]
    rfl
  obtain ⟨hlayer, hudpLen, hcksum⟩ := parseUdpLayer_append (by omega) hports.2 hports.1 hlt
    (hdrop.trans hudp)
  have htotal : u16At (synthV4Reply s d p payload) 2 = (synthV4Reply s d p payload).length := by
    have hwritten : beBytes 2 (ip4HeaderLen + udpHeaderLen + payload.length) <+:
        (synthV4Reply s d p payload).drop 2 := by
      exact prefix_append _ _
    have hlength : (synthV4Reply s d p payload).length =
        ip4HeaderLen + udpHeaderLen + payload.length := by
      rw [heq, hudp]
      simp [octets, ip4HeaderLen, udpHeaderLen]
      omega
    rw [hlength]
    exact @u16At_of_written _ (by omega) [] _ _ (by rwa [append_nil])
  rw [hframe]
  refine ⟨?_, fun _ => ?_, ?_, ?_, ?_⟩
  · rw [parseIpUdp_v4 heq htotal hlayer, hv, hs, hd]
  · rw [heq, take_left' (by simp [octets, ip4HeaderLen])]
    exact onesSum_header (by simp) (by simp [octets])
  · rw [hoff, hudpLen]
  · rw [hoff, hs, hd, hdrop, hsum]
  · rw [hoff, hcksum]
    exact hne

theorem validReply_v6 {s d : Ipv6Addr} (hv : p.version = 6) (hs : p.srcIp = .v6 s)
    (hd : p.dstIp = .v6 d) : ValidReply p u payload (synthIpUdpReply p payload) := by
  have hframe : synthIpUdpReply p payload = synthV6Reply s d p payload := by
    simp only [synthIpUdpReply, hv, hs, hd]
  have hsix : ¬ p.version = 4 := by rw [hv]; decide
  rw [FitsFrame, if_neg hsix, Nat.zero_add] at hfit
  have hoff : ipHeaderLen p.version = ip6HeaderLen := if_neg hsix
  obtain ⟨cksum, hne, hlt, hudp, hsum⟩ := @udpReply_spec u.dport u.sport payload hfit
    (pseudoHeader (.v6 d) (.v6 s) (udpHeaderLen + payload.length))
    (by simp [pseudoHeader, d.length_octets, s.length_octets])
    (by simp [pseudoHeader, d.length_octets, s.length_octets])
  have heq := synthV6Reply_eq hu payload s d
  have hdrop : (synthV6Reply s d p payload).drop ip6HeaderLen =
      udpReply (sumInto 0 (pseudoHeader (.v6 d) (.v6 s) (udpHeaderLen + payload.length)))
        u.dport u.sport payload := by
    have hhead : ip6HeaderLen = 8 + (16 + 16) := rfl
    have hbase : (synthV6Reply s d p payload).drop 8 = d.octets ++ (s.octets ++
        udpReply (sumInto 0 (pseudoHeader (.v6 d) (.v6 s) (udpHeaderLen + payload.length)))
          u.dport u.sport payload) := by
      rw [heq]
      rfl
    rw [hhead, ← drop_drop, hbase, ← drop_drop, drop_left' d.length_octets,
      drop_left' s.length_octets]
  obtain ⟨hlayer, hudpLen, hcksum⟩ := parseUdpLayer_append hfit hports.2 hports.1 hlt
    (hdrop.trans hudp)
  rw [hframe]
  refine ⟨?_, fun h => absurd h hsix, ?_, ?_, ?_⟩
  · rw [parseIpUdp_v6 heq hlayer, hv, hs, hd]
  · rw [hoff, hudpLen]
  · rw [hoff, hs, hd, hdrop, hsum]
  · rw [hoff, hcksum]
    exact hne

end Valid

/-- **Every frame is valid**: the reply to a packet with a datagram parses with addresses and
ports swapped and the payload as it was, its checksums add up to ones, and the one of UDP is
not zero. -/
theorem reply_frame_valid {pkt : Bytes} {p : ParsedPacket} {u : UdpLayer}
    (hparse : parseIpUdp pkt = some p) (hudp : p.udp = some u) (payload : Bytes)
    (hfit : FitsFrame p payload) : ValidReply p u payload (synthIpUdpReply p payload) := by
  obtain ⟨s, d, proto, off, rfl⟩ | ⟨s, d, proto, off, rfl⟩ := parseIpUdp_spec hparse
  · exact validReply_v4 hudp (udp_transport hudp) hfit rfl rfl rfl
  · exact validReply_v6 hudp (udp_transport hudp) hfit rfl rfl rfl

/-- A query of three bytes from 10.0.0.2, port 40000, to 10.0.0.1, port 53. -/
theorem reply_frame_valid_odd :
    let pkt : Bytes := [0x45, 0, 0, 31, 0, 0, 0, 0, 64, 17, 0, 0, 10, 0, 0, 2, 10, 0, 0, 1,
      0x9C, 0x40, 0, 53, 0, 11, 0, 0, 1, 2, 3]
    let u : UdpLayer := ⟨40000, 53, [1, 2, 3]⟩
    let p : ParsedPacket := ⟨4, .v4 ⟨10, 0, 0, 2⟩, .v4 ⟨10, 0, 0, 1⟩, ipprotoUdp, some u, none⟩
    parseIpUdp pkt = some p ∧
      ValidReply p u [0xFF, 0xFF, 0xFF] (synthIpUdpReply p [0xFF, 0xFF, 0xFF]) := by
  intro pkt u p
  have hparse : parseIpUdp pkt = some p := by decide +kernel
  exact ⟨hparse, reply_frame_valid hparse rfl _ (by decide +kernel)⟩

end Tunnel
end TortaCore
