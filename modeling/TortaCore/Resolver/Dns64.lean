import TortaCore.Net.IpAddr
import TortaCore.Text.Slice
import TortaCore.Text.Utf8

/-!
# NAT64 prefixes

A DNS64 resolver answers for IPv4-only names by writing the IPv4 address into an
IPv6 prefix.  RFC 6052, section 2.2, says where: in the four octets after the prefix,
passing over octet 8, which stays zero for every length below 96.

`dns64.rs` looks the place up in a table of single offsets.  Its row for 96 is right.
The other five do not follow the section, so the address lands beside its place, on
octet 8, or on the prefix itself.
-/

namespace TortaCore
namespace Resolver

open Text Net List Option

def allowedPrefixBits : List ℕ := [32, 40, 48, 56, 64, 96]

/-- Where the IPv4 octets begin, by prefix length. -/
def suffixByteOffset : List (ℕ × ℕ) := [(32, 6), (40, 5), (48, 4), (56, 3), (64, 2), (96, 12)]

def suffixOffset (bits : ℕ) : Option ℕ :=
  (suffixByteOffset.find? fun row => row.1 == bits).map Prod.snd

/-- A NAT64 prefix: sixteen octets, cleared beyond an allowed length. -/
structure Dns64Prefix where
  octets : List UInt8
  bits : ℕ
  length_octets : octets.length = 16
  bits_mem : bits ∈ allowedPrefixBits
  suffix_zero : ∀ b ∈ octets.drop (bits / 8), b = 0

theorem suffixOffset_of_mem {bits : ℕ} (h : bits ∈ allowedPrefixBits) :
    ∃ off, suffixOffset bits = some off ∧ off + 4 ≤ 16 := by
  revert bits
  decide

/-- `out[off..off + 4].copy_from_slice(&ipv4)`. -/
def overlay (octets : List UInt8) (off : ℕ) (v : Ipv4Addr) : List UInt8 :=
  octets.take off ++ v.octets ++ octets.drop (off + 4)

theorem length_overlay {octets : List UInt8} {off : ℕ} (h : octets.length = 16)
    (hoff : off + 4 ≤ 16) (v : Ipv4Addr) : (overlay octets off v).length = 16 := by
  simp only [overlay, Ipv4Addr.octets, length_append, length_take, length_drop,
    length_cons, length_nil]
  omega

/-- The embedded address; the offset exists because the length is an allowed one. -/
def Dns64Prefix.embed (p : Dns64Prefix) (v : Ipv4Addr) : Ipv6Addr :=
  match h : suffixOffset p.bits with
  | some off =>
    ⟨overlay p.octets off v, length_overlay p.length_octets (by
      obtain ⟨off', hoff, hle⟩ := suffixOffset_of_mem p.bits_mem
      rw [h] at hoff
      cases hoff
      exact hle) v⟩
  | none => absurd h (by
      obtain ⟨off, hoff, -⟩ := suffixOffset_of_mem p.bits_mem
      rw [hoff]
      exact Option.some_ne_none off)

/-! ### Parsing -/

/-- Keep the first `bits` bits. -/
def clearSuffix (octets : List UInt8) (bits : ℕ) : List UInt8 :=
  if bits % 8 = 0 then octets.take (bits / 8) ++ List.replicate (16 - bits / 8) 0
  else
    octets.take (bits / 8) ++
      [octets.getD (bits / 8) 0 &&& (0xFF <<< UInt8.ofNat (8 - bits % 8))] ++
      List.replicate (16 - (bits / 8 + 1)) 0

/-- One group of at most four bytes, as two octets. -/
def parseGroup (g : Str) : Option (List UInt8) :=
  if g.isEmpty || (utf8 g).length > 4 then none
  else (parseUnsigned 16 0xFFFF g).map fun val => Wire.beBytes 2 val

/-- The octets of all groups, if every one parses. -/
def parseGroups : List Str → Option (List UInt8)
  | [] => some []
  | g :: gs => (parseGroup g).bind fun o => (parseGroups gs).map (o ++ ·)

theorem length_parseGroups {gs : List Str} {o : List UInt8} (h : parseGroups gs = some o) :
    o.length = 2 * gs.length := by
  induction gs generalizing o with
  | nil => cases h; rfl
  | cons g gs ih =>
    obtain ⟨a, ha, h⟩ := bind_eq_some_iff.mp h
    obtain ⟨b, hb, rfl⟩ := map_eq_some_iff.mp h
    have hlen : a.length = 2 := by
      rw [parseGroup] at ha
      split at ha
      · cases ha
      · obtain ⟨val, -, rfl⟩ := map_eq_some_iff.mp ha
        exact Wire.length_beBytes 2 val
    rw [length_append, hlen, ih hb, length_cons]
    omega

theorem clearSuffix_of_mem {octets : List UInt8} {bits : ℕ} (hlen : octets.length = 16)
    (h : bits ∈ allowedPrefixBits) :
    (clearSuffix octets bits).length = 16 ∧
      ∀ b ∈ (clearSuffix octets bits).drop (bits / 8), b = 0 := by
  have hfacts : ∀ n ∈ allowedPrefixBits, n % 8 = 0 ∧ n / 8 ≤ 16 := by decide
  obtain ⟨hmod, hle⟩ := hfacts bits h
  rw [clearSuffix, if_pos hmod]
  refine ⟨by rw [length_append, length_take, length_replicate]; omega, ?_⟩
  rw [drop_append_of_le_length (by rw [length_take]; omega), drop_take,
    Nat.sub_self, take_zero, nil_append]
  exact fun b hb => eq_of_mem_replicate hb

/-- A `Pref64::/n` entry: eight groups without `::`, and one of the six lengths. -/
def parsePrefix (s : Str) : Option Dns64Prefix :=
  match splitOnce '/' s with
  | none => none
  | some (addrPart, bitsPart) =>
    match parseUnsigned 10 255 bitsPart with
    | none => none
    | some bits =>
      if hbits : bits ∈ allowedPrefixBits then
        if hgroups : (addrPart.splitOn ':').length = 8 then
          match hoctets : parseGroups (addrPart.splitOn ':') with
          | none => none
          | some octets =>
            have hlen : octets.length = 16 := by rw [length_parseGroups hoctets, hgroups]
            some ⟨clearSuffix octets bits, bits, (clearSuffix_of_mem hlen hbits).1, hbits,
              (clearSuffix_of_mem hlen hbits).2⟩
        else none
      else none

/-! ### RFC 6052, section 2.2 -/

/-- The four octets that follow a prefix of `bits` bits, passing over octet 8. -/
def rfcPositions (bits : ℕ) : List ℕ :=
  (((List.range 16).drop (bits / 8)).filter (· ≠ 8)).take 4

/-- What the section asks of the address that a prefix and an IPv4 address give: the
prefix is kept, octet 8 is zero below 96, and the extraction returns the address. -/
@[mk_iff]
structure Rfc6052 (p : Dns64Prefix) (v : Ipv4Addr) (out : Ipv6Addr) : Prop where
  prefix_kept : out.octets.take (p.bits / 8) = p.octets.take (p.bits / 8)
  octet_eight : p.bits < 96 → out.octets.getD 8 0 = 0
  extracted : (rfcPositions p.bits).map (fun i => out.octets.getD i 0) = v.octets

theorem embed_octets {p : Dns64Prefix} {off : ℕ} (h : suffixOffset p.bits = some off)
    (v : Ipv4Addr) : (p.embed v).octets = overlay p.octets off v := by
  unfold Dns64Prefix.embed
  split
  · next off' h' =>
    rw [h] at h'
    cases h'
    rfl
  · next h' =>
    rw [h] at h'
    cases h'

/-- The prefix octets that the written address covers are zero. -/
def CoversZeros (p : Dns64Prefix) : Prop :=
  ∀ off, suffixOffset p.bits = some off →
    ∀ b ∈ ((p.octets.take (p.bits / 8)).drop off).take 4, b = 0

/-- When the embedding follows the section: always for length 96, for length 40 when
the last octet is zero, and otherwise only where zeros are written over zeros. -/
def EmbedsRight (p : Dns64Prefix) (v : Ipv4Addr) : Prop :=
  p.bits = 96 ∨ (p.bits = 40 ∧ v.d = 0) ∨ (v = ⟨0, 0, 0, 0⟩ ∧ CoversZeros p)

theorem rfc6052_embed (p : Dns64Prefix) (v : Ipv4Addr) :
    Rfc6052 p v (p.embed v) ↔ EmbedsRight p v := by
  obtain ⟨off, hoff, -⟩ := suffixOffset_of_mem p.bits_mem
  rw [rfc6052_iff, embed_octets hoff, EmbedsRight, CoversZeros]
  simp only [hoff, some.injEq, forall_eq']
  obtain ⟨octets, bits, hlen, hbits, hzero⟩ := p
  obtain ⟨a, b, c, d⟩ := v
  match octets, hlen with
  | [o0, o1, o2, o3, o4, o5, o6, o7, o8, o9, o10, o11, o12, o13, o14, o15], hlen =>
    simp only [allowedPrefixBits, mem_cons, not_mem_nil, or_false] at hbits
    rcases hbits with rfl | rfl | rfl | rfl | rfl | rfl
    · -- 32: written two octets late, the third octet on octet 8
      obtain rfl : 6 = off := some.inj hoff
      simp [overlay, Ipv4Addr.octets, rfcPositions, range_succ] at hzero ⊢
      grind
    · -- 40: in place, but the last octet falls on octet 8 instead of after it
      obtain rfl : 5 = off := some.inj hoff
      simp [overlay, Ipv4Addr.octets, rfcPositions, range_succ] at hzero ⊢
      grind
    · -- 48: two octets early, on the end of the prefix
      obtain rfl : 4 = off := some.inj hoff
      simp [overlay, Ipv4Addr.octets, rfcPositions, range_succ] at hzero ⊢
      grind
    · -- 56: wholly inside the prefix
      obtain rfl : 3 = off := some.inj hoff
      simp [overlay, Ipv4Addr.octets, rfcPositions, range_succ] at hzero ⊢
      grind
    · -- 64: wholly inside the prefix
      obtain rfl : 2 = off := some.inj hoff
      simp [overlay, Ipv4Addr.octets, rfcPositions, range_succ] at hzero ⊢
      grind
    · -- 96: the last four octets, as the section has it
      obtain rfl : 12 = off := some.inj hoff
      simp [overlay, Ipv4Addr.octets, rfcPositions, range_succ] at hzero ⊢

theorem octets_injective : Function.Injective Ipv4Addr.octets := by
  rintro ⟨a, b, c, d⟩ ⟨a', b', c', d'⟩ h
  simpa [Ipv4Addr.octets] using h

/-- Wherever it is written, the address can be read back from its four octets. -/
theorem embed_injective (p : Dns64Prefix) : Function.Injective p.embed := by
  intro v w h
  obtain ⟨off, hoff, hle⟩ := suffixOffset_of_mem p.bits_mem
  have hoct := congrArg Ipv6Addr.octets h
  rw [embed_octets hoff, embed_octets hoff, overlay, overlay, append_assoc,
    append_assoc, append_cancel_left_eq, append_cancel_right_eq] at hoct
  exact octets_injective hoct

/-- **DNS64 embedding against RFC 6052.**  Address by address, and for a whole prefix:
only the length 96 is embedded as the section says for every address. -/
theorem rfc6052_embed_iff (p : Dns64Prefix) :
    (∀ v, Rfc6052 p v (p.embed v) ↔
      p.bits = 96 ∨ (p.bits = 40 ∧ v.d = 0) ∨ (v = ⟨0, 0, 0, 0⟩ ∧ CoversZeros p)) ∧
    ((∀ v, Rfc6052 p v (p.embed v)) ↔ p.bits = 96) ∧ Function.Injective p.embed := by
  refine ⟨fun v => rfc6052_embed p v, ⟨fun h => ?_, fun h v => ?_⟩, embed_injective p⟩
  · -- an address without zero octets leaves only the first case
    rcases (rfc6052_embed p ⟨1, 1, 1, 1⟩).mp (h _) with h96 | ⟨-, hd⟩ | ⟨hv, -⟩
    · exact h96
    · cases hd
    · cases hv
  · exact (rfc6052_embed p v).mpr (.inl h)

/-- `2001:db8:1:2:0:0:0:0/64` is accepted, and `192.0.2.33` is written over its third to
sixth octet. -/
theorem embed_overwrites_prefix :
    ∃ p, parsePrefix ['2', '0', '0', '1', ':', 'd', 'b', '8', ':', '1', ':', '2', ':', '0', ':',
        '0', ':', '0', ':', '0', '/', '6', '4'] = some p ∧
      (p.embed ⟨192, 0, 2, 33⟩).octets =
        [0x20, 0x01, 192, 0, 2, 33, 0, 2, 0, 0, 0, 0, 0, 0, 0, 0] ∧
      ¬ Rfc6052 p ⟨192, 0, 2, 33⟩ (p.embed ⟨192, 0, 2, 33⟩) := by
  have hparse : ((parsePrefix ['2', '0', '0', '1', ':', 'd', 'b', '8', ':', '1', ':', '2', ':',
      '0', ':', '0', ':', '0', ':', '0', '/', '6', '4']).map fun p => (p.bits, p.octets)) =
      some (64, [0x20, 0x01, 0x0d, 0xb8, 0, 1, 0, 2, 0, 0, 0, 0, 0, 0, 0, 0]) := by decide +kernel
  obtain ⟨p, hp, heq⟩ := map_eq_some_iff.mp hparse
  obtain ⟨hbits, hoctets⟩ := Prod.mk.inj heq
  refine ⟨p, hp, ?_, fun h => ?_⟩
  · rw [embed_octets (show suffixOffset p.bits = some 2 by rw [hbits]; rfl), hoctets]
    rfl
  · rcases (rfc6052_embed p _).mp h with h96 | ⟨h40, -⟩ | ⟨hv, -⟩
    · rw [hbits] at h96
      cases h96
    · rw [hbits] at h40
      cases h40
    · cases hv

end Resolver
end TortaCore
