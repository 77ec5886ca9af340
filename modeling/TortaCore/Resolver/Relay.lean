import TortaCore.Resolver.Rebind

/-!
# Relay envelopes

A query that goes through relays is wrapped in one envelope for each of them
(`resolver/dnscrypt.rs`).  An envelope names the hop that comes after the relay it is sent to,
so the envelopes are built from the resolver outwards, over the relays after the first in
reverse; the first relay is dialled and stands in no envelope.

## Main definitions

* `wrapForRelay`, `wrapForRelayChain`: the code.
-/

namespace TortaCore
namespace Resolver
namespace Relay

open Text Wire Net List

/-! ### The code -/

/-- An address to send to: the port has sixteen bits. -/
structure Hop extends SocketAddr where
  port_lt : port < 65536

def relayHeader : Bytes := [0xFF, 0xFF, 0xFF, 0xFF, 0xFF, 0xFF, 0xFF, 0xFF, 0x00, 0x00]

/-- Sixteen bytes for every address: `::ffff:a.b.c.d` for one of four. -/
def ipToIpv6Bytes : IpAddr → Ipv6Addr
  | .v4 v => ⟨List.replicate 10 0 ++ [0xFF, 0xFF] ++ v.octets, rfl⟩
  | .v6 v => v

def wrapForRelay (payload : Bytes) (nextHop : Hop) : Bytes :=
  relayHeader ++ (ipToIpv6Bytes nextHop.ip).octets ++ beBytes 2 nextHop.port ++ payload

/-- The bytes to send, and where to. -/
def wrapForRelayChain (payload : Bytes) (resolver : Hop) : List Hop → Bytes × Hop
  | [] => (payload, resolver)
  | first :: relays => (relays.reverse.foldl wrapForRelay (wrapForRelay payload resolver), first)

/-! ### The relays -/

/-- The address with an IPv4-mapped one read as IPv4. -/
def toCanonical : IpAddr → IpAddr
  | .v4 v => .v4 v
  | .v6 v => (v.toIpv4Mapped.map IpAddr.v4).getD (.v6 v)

def Hop.canonical (hop : Hop) : Hop := { hop with ip := toCanonical hop.ip }

/-- Take off the envelope of 28 bytes, and read the next hop in it. -/
def peel (wire : Bytes) : Option (Hop × Bytes) :=
  if h : relayHeader <+: wire ∧ 28 ≤ wire.length then
    some (⟨⟨toCanonical (.v6 ⟨bytesAt wire 10 16, length_bytesAt (by omega)⟩),
      beNat (bytesAt wire 26 2)⟩, by
        have hlt := beNat_lt (bytesAt wire 26 2)
        rwa [length_bytesAt (by omega)] at hlt⟩, wire.drop 28)
  else none

/-- The hops that `n` envelopes lead through from the one that receives the bytes, and what
the last of them receives. -/
def follow : ℕ → Hop → Bytes → Option (List Hop × Bytes)
  | 0, hop, wire => some ([hop], wire)
  | n + 1, hop, wire =>
    (peel wire).bind fun next => (follow n next.1 next.2).map fun r => (hop :: r.1, r.2)

theorem toCanonical_ipToIpv6Bytes (ip : IpAddr) :
    toCanonical (.v6 (ipToIpv6Bytes ip)) = toCanonical ip := by
  cases ip with
  | v4 v => rfl
  | v6 v => rfl

theorem peel_wrapForRelay (payload : Bytes) (hop : Hop) :
    peel (wrapForRelay payload hop) = some (hop.canonical, payload) := by
  have hip := (ipToIpv6Bytes hop.ip).length_octets
  have hbody : (wrapForRelay payload hop).drop 10 =
      (ipToIpv6Bytes hop.ip).octets ++ (beBytes 2 hop.port ++ payload) := by
    rw [wrapForRelay, append_assoc, append_assoc]
    exact drop_left' rfl
  have htail : (wrapForRelay payload hop).drop 26 = beBytes 2 hop.port ++ payload := by
    rw [show 26 = 10 + 16 from rfl, ← drop_drop, hbody, drop_left' hip]
  have hrest : (wrapForRelay payload hop).drop 28 = payload := by
    rw [show 28 = 26 + 2 from rfl, ← drop_drop, htail, drop_left' (length_beBytes 2 _)]
  have hok : relayHeader <+: wrapForRelay payload hop ∧ 28 ≤ (wrapForRelay payload hop).length := by
    refine ⟨⟨_, (append_assoc ..).symm.trans (append_assoc ..).symm⟩, ?_⟩
    simp [wrapForRelay, relayHeader, hip]
    omega
  have hport := beNat_beBytes_of_lt (w := 2) hop.port_lt
  rw [peel, dif_pos hok]
  simp only [bytesAt, hbody, htail, hrest, take_left' hip,
    take_left' (length_beBytes 2 _), hport, Hop.canonical, ← toCanonical_ipToIpv6Bytes hop.ip]

/-- The envelopes after the first relay, one around the other. -/
theorem follow_foldr (payload : Bytes) (resolver : Hop) (relays : List Hop) (dial : Hop) :
    follow (relays.length + 1) dial
        (relays.foldr (fun hop wire => wrapForRelay wire hop) (wrapForRelay payload resolver)) =
      some (dial :: (relays ++ [resolver]).map Hop.canonical, payload) := by
  induction relays generalizing dial with
  | nil =>
    rw [foldr_nil, length_nil, follow, peel_wrapForRelay]
    rfl
  | cons relay relays ih =>
    rw [foldr_cons, length_cons, follow, peel_wrapForRelay, Option.bind_some, ih]
    rfl

/-- **The relays are visited in their order, and then the resolver**, which receives the payload
as it was; without relays it is sent there directly. -/
theorem relays_then_resolver (payload : Bytes) (resolver : Hop) (relays : List Hop) :
    (relays = [] → wrapForRelayChain payload resolver relays = (payload, resolver)) ∧
    ∃ wire dial, wrapForRelayChain payload resolver relays = (wire, dial) ∧
      (relays ++ [resolver]).head? = some dial ∧
      follow relays.length dial wire =
        some (dial :: (relays ++ [resolver]).tail.map Hop.canonical, payload) := by
  cases relays with
  | nil => exact ⟨fun _ => rfl, payload, resolver, rfl, rfl, rfl⟩
  | cons first relays =>
    refine ⟨fun h => (by cases h), _, first, rfl, rfl, ?_⟩
    rw [foldl_reverse]
    exact follow_foldr payload resolver relays first

end Relay
end Resolver
end TortaCore
