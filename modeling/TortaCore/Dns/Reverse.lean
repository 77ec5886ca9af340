import TortaCore.Net.IpAddr
import TortaCore.Text.Slice
import TortaCore.Text.Utf8

/-!
# Reverse names

`decode_ptr_to_ip` of `dns.rs` reads the address out of the name of a reverse query: four decimal
labels under `in-addr.arpa`, lowest octet first, or thirty-two hexadecimal labels under `ip6.arpa`,
lowest half first.

## Main definitions

* `decodePtrToIp`, `isPrivatePtr`: the functions of the source.
-/

namespace TortaCore
namespace Dns

open Text Net Wire List

/-! ### Decoding -/

/-- `str::strip_suffix`. -/
def stripSuffix (suffix s : Str) : Option Str :=
  if suffix.isSuffixOf s then some (s.take (s.length - suffix.length)) else none

def inAddrSuffix : Str := ".in-addr.arpa".toList

def ip6Suffix : Str := ".ip6.arpa".toList

/-- Read exactly `limit` labels into an array; `values` are those read so far. -/
def readLabels (limit : ℕ) (read : Str → Option UInt8) (values : List UInt8) :
    List Str → Option (List UInt8)
  | [] => if values.length = limit then some values else none
  | label :: rest =>
    if limit ≤ values.length then none
    else (read label).bind fun v => readLabels limit read (values ++ [v]) rest

/-- `label.parse::<u8>()`. -/
def readOctet (label : Str) : Option UInt8 := (parseUnsigned 10 255 label).map UInt8.ofNat

/-- A label of one lower-case hexadecimal digit. -/
def readNibble (label : Str) : Option UInt8 :=
  match utf8 label with
  | [b] =>
    if 0x30 ≤ b ∧ b ≤ 0x39 then some (b - 0x30)
    else if 0x61 ≤ b ∧ b ≤ 0x66 then some (b - 0x61 + 10)
    else none
  | _ => none

/-- The bytes of thirty-two halves: the low half of byte `i` is at position `2 * (15 - i)`, the
high half after it. -/
def foldNibbles (nibbles : List UInt8) : List UInt8 :=
  (List.range 16).map fun i =>
    let base := 2 * (15 - i)
    ((nibbles[base + 1]?.getD 0) <<< 4) ||| (nibbles[base]?.getD 0)

def ptrV4 (octets : List UInt8) : Ipv4Addr :=
  ⟨octets[3]?.getD 0, octets[2]?.getD 0, octets[1]?.getD 0, octets[0]?.getD 0⟩

def ptrV6 (nibbles : List UInt8) : Ipv6Addr := ⟨foldNibbles nibbles, by simp [foldNibbles]⟩

def decodePtrToIp (qname : Str) : Option IpAddr :=
  match stripSuffix inAddrSuffix qname with
  | some stem => (readLabels 4 readOctet [] (stem.splitOn '.')).map fun o => .v4 (ptrV4 o)
  | none =>
    match stripSuffix ip6Suffix qname with
    | some stem => (readLabels 32 readNibble [] (stem.splitOn '.')).map fun ns => .v6 (ptrV6 ns)
    | none => none

def qtypePtr : ℕ := 12

def isPrivatePtr (qname : Str) (qtype : ℕ) (isPrivate : IpAddr → Bool) : Bool :=
  if qtype ≠ qtypePtr then false
  else
    match decodePtrToIp qname with
    | some ip => isPrivate ip
    | none => false

/-! ### Encoding -/

def hexDigit (nibble : UInt8) : Char := nibble.toNat.digitChar

def lowNibble (b : UInt8) : UInt8 := b &&& 0x0F

def highNibble (b : UInt8) : UInt8 := b >>> 4

/-- The labels of an IPv4 address: its octets in decimal, last one first. -/
def labels4 (a : Ipv4Addr) : List Str := a.octets.reverse.map fun o => decimal o.toNat

/-- The labels of an IPv6 address: the halves of its octets in hexadecimal, last one first. -/
def labels6 (a : Ipv6Addr) : List Str :=
  (a.octets.flatMap fun b => [highNibble b, lowNibble b]).reverse.map fun n => [hexDigit n]

/-- The reverse name of an address. -/
def reverseName : IpAddr → Str
  | .v4 a => ['.'].intercalate (labels4 a) ++ inAddrSuffix
  | .v6 a => ['.'].intercalate (labels6 a) ++ ip6Suffix

/-! ### Labels -/

theorem stripSuffix_append (s suffix : Str) : stripSuffix suffix (s ++ suffix) = some s := by
  rw [stripSuffix, if_pos (by simp), length_append, Nat.add_sub_cancel, take_left]

theorem stripSuffix_eq_some {suffix s stem : Str} (h : stripSuffix suffix s = some stem) :
    s = stem ++ suffix := by
  rw [stripSuffix] at h
  split at h
  next hsuf =>
    obtain ⟨pre, rfl⟩ := isSuffixOf_iff_suffix.mp hsuf
    cases h
    rw [length_append, Nat.add_sub_cancel, take_left]
  next => cases h

theorem readLabels_eq_some_iff {limit : ℕ} {read : Str → Option UInt8} {vs : List UInt8}
    {ls : List Str} {values : List UInt8} :
    readLabels limit read values ls = some vs ↔
      ∃ new, vs = values ++ new ∧ vs.length = limit ∧ ls.map read = new.map some := by
  induction ls generalizing values with
  | nil =>
    rw [readLabels]
    constructor
    · intro h
      split at h
      next hlen =>
        cases h
        exact ⟨[], (append_nil _).symm, hlen, rfl⟩
      next => cases h
    · rintro ⟨new, rfl, hlen, hnew⟩
      cases new with
      | nil => rw [append_nil] at hlen ⊢; rw [if_pos hlen]
      | cons v new => cases hnew
  | cons label ls ih =>
    rw [readLabels]
    constructor
    · intro h
      split at h
      next => cases h
      next =>
        obtain ⟨v, hv, h⟩ := Option.bind_eq_some_iff.mp h
        obtain ⟨new, rfl, hlen, hnew⟩ := ih.mp h
        refine ⟨v :: new, by simp, hlen, ?_⟩
        rw [map_cons, map_cons, hv, hnew]
    · rintro ⟨new, rfl, hlen, hnew⟩
      cases new with
      | nil => cases hnew
      | cons v new =>
        obtain ⟨hv, hnew⟩ := cons.inj hnew
        rw [length_append, length_cons] at hlen
        rw [if_neg (by omega), hv, Option.bind_some]
        exact ih.mpr ⟨new, by simp, by simp; omega, hnew⟩

theorem readLabels_map {limit : ℕ} {read : Str → Option UInt8} {write : UInt8 → Str}
    {vs : List UInt8} (hlen : vs.length = limit) (hread : ∀ v ∈ vs, read (write v) = some v) :
    readLabels limit read [] (vs.map write) = some vs := by
  refine readLabels_eq_some_iff.mpr ⟨vs, rfl, hlen, ?_⟩
  rw [map_map]
  exact map_congr_left hread

theorem readOctet_decimal (o : UInt8) : readOctet (decimal o.toNat) = some o := by
  rw [readOctet, parseUnsigned_decimal (Nat.le_of_lt_succ o.toNat_lt), Option.map_some,
    UInt8.ofNat_toNat]

/-- A byte as a digit, as a character and as two halves. -/
def NibbleFacts (b : UInt8) : Prop :=
  (b < 16 → readNibble [hexDigit b] = some b ∧ hexDigit b ≠ '.') ∧
  (0x30 ≤ b ∧ b ≤ 0x39 → utf8 [hexDigit (b - 0x30)] = [b] ∧ b - 0x30 < 16) ∧
  (0x61 ≤ b ∧ b ≤ 0x66 → utf8 [hexDigit (b - 0x61 + 10)] = [b] ∧ b - 0x61 + 10 < 16) ∧
  (highNibble b <<< 4) ||| lowNibble b = b ∧ lowNibble b < 16 ∧ highNibble b < 16

instance (b : UInt8) : Decidable (NibbleFacts b) :=
  inferInstanceAs (Decidable (_ ∧ _ ∧ _ ∧ _ ∧ _ ∧ _))

/-- All bytes and all pairs of halves, in one table. -/
theorem nibble_table : (∀ n < 256, NibbleFacts (UInt8.ofNat n)) ∧
    ∀ m < 16, ∀ n < 16,
      lowNibble ((UInt8.ofNat m <<< 4) ||| UInt8.ofNat n) = UInt8.ofNat n ∧
        highNibble ((UInt8.ofNat m <<< 4) ||| UInt8.ofNat n) = UInt8.ofNat m := by
  decide +kernel

theorem nibbleFacts (b : UInt8) : NibbleFacts b := forall_byte nibble_table.1 b

theorem readNibble_hexDigit {n : UInt8} (h : n < 16) : readNibble [hexDigit n] = some n :=
  ((nibbleFacts n).1 h).1

theorem hexDigit_ne_dot {n : UInt8} (h : n < 16) : hexDigit n ≠ '.' :=
  ((nibbleFacts n).1 h).2

theorem readNibble_eq_some {label : Str} {n : UInt8} (h : readNibble label = some n) :
    label = [hexDigit n] ∧ n < 16 := by
  rw [readNibble] at h
  split at h
  next b hb =>
    split at h
    next hdec =>
      cases h
      obtain ⟨henc, hlt⟩ := (nibbleFacts b).2.1 hdec
      exact ⟨utf8_injective (hb.trans henc.symm), hlt⟩
    next =>
      split at h
      next hhex =>
        cases h
        obtain ⟨henc, hlt⟩ := (nibbleFacts b).2.2.1 hhex
        exact ⟨utf8_injective (hb.trans henc.symm), hlt⟩
      next => cases h
  next => cases h

theorem labels_of_readNibble {ls : List Str} {ns : List UInt8} (h : ls.map readNibble = ns.map
    some) :
    (ls = ns.map fun n => [hexDigit n]) ∧ ∀ n ∈ ns, n < 16 := by
  induction ls generalizing ns with
  | nil =>
    cases ns with
    | nil => exact ⟨rfl, fun n hn => by cases hn⟩
    | cons n ns => cases h
  | cons l ls ih =>
    cases ns with
    | nil => cases h
    | cons n ns =>
      obtain ⟨hl, hls⟩ := cons.inj h
      obtain ⟨rfl, hlt⟩ := readNibble_eq_some hl
      obtain ⟨rfl, hlts⟩ := ih hls
      exact ⟨rfl, forall_mem_cons.mpr ⟨hlt, hlts⟩⟩

/-! ### Halves of bytes -/

/-- The bytes of a list of halves, low half first. -/
def joinNibbles : List UInt8 → List UInt8
  | lo :: hi :: rest => ((hi <<< 4) ||| lo) :: joinNibbles rest
  | _ => []

/-- The halves of the bytes, low half first. -/
def spreadNibbles (bytes : List UInt8) : List UInt8 :=
  bytes.flatMap fun b => [lowNibble b, highNibble b]

theorem spreadNibbles_cons (b : UInt8) (bytes : List UInt8) :
    spreadNibbles (b :: bytes) = lowNibble b :: highNibble b :: spreadNibbles bytes := rfl

theorem getElem?_joinNibbles : ∀ (ns : List UInt8) (j : ℕ), 2 * j + 1 < ns.length →
    (joinNibbles ns)[j]? = some (((ns[2 * j + 1]?.getD 0) <<< 4) ||| (ns[2 * j]?.getD 0))
  | [], _, h => absurd h (by simp)
  | [_], _, h => absurd h (by simp)
  | lo :: hi :: rest, 0, _ => rfl
  | lo :: hi :: rest, j + 1, h => by
    rw [joinNibbles, getElem?_cons_succ, getElem?_joinNibbles rest j (by simp at h; omega)]
    rfl

theorem length_joinNibbles : ∀ ns : List UInt8, (joinNibbles ns).length = ns.length / 2
  | [] => rfl
  | [n] => by simp [joinNibbles]
  | lo :: hi :: rest => by
    rw [joinNibbles, length_cons, length_joinNibbles rest, length_cons,
      length_cons]
    omega

theorem foldNibbles_eq {ns : List UInt8} (h : ns.length = 32) :
    foldNibbles ns = (joinNibbles ns).reverse := by
  have hlen : (joinNibbles ns).length = 16 := by rw [length_joinNibbles, h]
  refine ext_getElem? fun i => ?_
  by_cases hi : i < 16
  · rw [getElem?_reverse (by rw [hlen]; exact hi), hlen, getElem?_joinNibbles ns _ (by omega)]
    simp [foldNibbles, hi]
  · rw [getElem?_eq_none (by simp [foldNibbles]; omega),
      getElem?_eq_none (by rw [length_reverse, hlen]; omega)]

theorem joinNibbles_spreadNibbles (bytes : List UInt8) :
    joinNibbles (spreadNibbles bytes) = bytes := by
  have hbyte : ∀ b : UInt8, (highNibble b <<< 4) ||| lowNibble b = b := fun b =>
    (nibbleFacts b).2.2.2.1
  induction bytes with
  | nil => rfl
  | cons b bytes ih =>
    rw [spreadNibbles_cons, joinNibbles, ih, hbyte]

theorem halves_join {hi lo : UInt8} (hhi : hi < 16) (hlo : lo < 16) :
    lowNibble ((hi <<< 4) ||| lo) = lo ∧ highNibble ((hi <<< 4) ||| lo) = hi := by
  have h := nibble_table.2 hi.toNat (UInt8.lt_iff_toNat_lt.mp hhi) lo.toNat
    (UInt8.lt_iff_toNat_lt.mp hlo)
  simpa only [UInt8.ofNat_toNat] using h

theorem spreadNibbles_joinNibbles : ∀ {ns : List UInt8}, (∀ n ∈ ns, n < 16) →
    ns.length % 2 = 0 → spreadNibbles (joinNibbles ns) = ns
  | [], _, _ => rfl
  | [_], _, h => absurd h (by simp)
  | lo :: hi :: rest, hlt, h => by
    obtain ⟨hlow, hhigh⟩ := halves_join (hlt hi (by simp)) (hlt lo (by simp))
    rw [joinNibbles, spreadNibbles_cons, hlow, hhigh, spreadNibbles_joinNibbles
      (fun n hn => hlt n (mem_cons_of_mem _ (mem_cons_of_mem _ hn)))
      (by simp at h; omega)]

theorem nibble_lt_of_mem_spreadNibbles {bytes : List UInt8} {n : UInt8}
    (h : n ∈ spreadNibbles bytes) : n < 16 := by
  have hbyte : ∀ b : UInt8, lowNibble b < 16 ∧ highNibble b < 16 := fun b =>
    (nibbleFacts b).2.2.2.2
  obtain ⟨b, -, hn⟩ := mem_flatMap.mp h
  rcases mem_pair.mp hn with rfl | rfl
  · exact (hbyte b).1
  · exact (hbyte b).2

theorem labels6_eq (a : Ipv6Addr) :
    labels6 a = (spreadNibbles a.octets.reverse).map fun n => [hexDigit n] := by
  rw [labels6, reverse_flatMap]
  rfl

theorem length_spreadNibbles (bytes : List UInt8) :
    (spreadNibbles bytes).length = 2 * bytes.length := by
  induction bytes with
  | nil => rfl
  | cons b bytes ih =>
    rw [spreadNibbles_cons, length_cons, length_cons, ih, length_cons]
    omega

/-! ### Round trip and exactness -/

theorem stripSuffix_inAddr_ip6 (s : Str) : stripSuffix inAddrSuffix (s ++ ip6Suffix) = none := by
  rw [stripSuffix, if_neg]
  rw [isSuffixOf_iff_suffix]
  intro h
  have hshort : ip6Suffix <:+ inAddrSuffix :=
    suffix_of_suffix_length_le (suffix_append s ip6Suffix) h (by decide)
  exact absurd hshort (by decide)

theorem decodePtrToIp_reverseName_v4 (a : Ipv4Addr) :
    decodePtrToIp (reverseName (.v4 a)) = some (.v4 a) := by
  have hsplit : (['.'].intercalate (labels4 a)).splitOn '.' = labels4 a := by
    refine splitOn_intercalate_labels (by simp [labels4, Ipv4Addr.octets]) fun l hl => ?_
    obtain ⟨o, -, rfl⟩ := mem_map.mp hl
    exact notMem_decimal (by decide) _
  rw [decodePtrToIp, reverseName, stripSuffix_append]
  dsimp only
  have hlen : a.octets.reverse.length = 4 := rfl
  rw [hsplit, labels4, readLabels_map hlen fun o _ => readOctet_decimal o]
  rfl

theorem decodePtrToIp_reverseName_v6 (a : Ipv6Addr) :
    decodePtrToIp (reverseName (.v6 a)) = some (.v6 a) := by
  have hlen : (spreadNibbles a.octets.reverse).length = 32 := by
    rw [length_spreadNibbles, length_reverse, a.length_octets]
  have hsplit : (['.'].intercalate (labels6 a)).splitOn '.' = labels6 a := by
    rw [labels6_eq]
    refine splitOn_intercalate_labels ?_ fun l hl => ?_
    · rw [Ne, map_eq_nil_iff, ← length_eq_zero_iff, hlen]
      decide
    · obtain ⟨n, hn, rfl⟩ := mem_map.mp hl
      rw [mem_singleton]
      exact (hexDigit_ne_dot (nibble_lt_of_mem_spreadNibbles hn)).symm
  rw [decodePtrToIp, reverseName, stripSuffix_inAddr_ip6, stripSuffix_append]
  dsimp only
  rw [hsplit, labels6_eq, readLabels_map hlen fun n hn =>
    readNibble_hexDigit (nibble_lt_of_mem_spreadNibbles hn), Option.map_some]
  congr 2
  refine Ipv6Addr.mk.injEq .. |>.mpr ?_
  rw [foldNibbles_eq hlen, joinNibbles_spreadNibbles, reverse_reverse]

theorem eq_reverseName_of_decodePtrToIp {n : Str} {a : Ipv6Addr}
    (h : decodePtrToIp n = some (.v6 a)) : n = reverseName (.v6 a) := by
  rw [decodePtrToIp] at h
  split at h
  next => simp at h
  next =>
    split at h
    next stem hstem =>
      obtain ⟨ns, hns, ha⟩ := Option.map_eq_some_iff.mp h
      cases ha
      obtain ⟨new, rfl, hlen, hread⟩ := readLabels_eq_some_iff.mp hns
      obtain ⟨hlabels, hlt⟩ := labels_of_readNibble hread
      have hspread : spreadNibbles (foldNibbles ns).reverse = ns := by
        rw [foldNibbles_eq hlen, reverse_reverse, spreadNibbles_joinNibbles hlt (by rw [hlen])]
      rw [stripSuffix_eq_some hstem, reverseName, labels6_eq]
      change _ = ['.'].intercalate ((spreadNibbles (foldNibbles ns).reverse).map _) ++ _
      rw [hspread, ← hlabels, intercalate_splitOn]
    next => cases h

/-- **Reverse names**: decoding inverts the encoding of every address; an IPv6 address is decoded
from its reverse name only, so no two names decode to one address; and the test for private
addresses sees the address of every reverse name. -/
theorem reverse_names :
    (∀ a, decodePtrToIp (reverseName a) = some a) ∧
    (∀ n a, decodePtrToIp n = some (.v6 a) → n = reverseName (.v6 a)) ∧
    (∀ m n a, decodePtrToIp m = some (.v6 a) → decodePtrToIp n = some (.v6 a) → m = n) ∧
    ∀ a isPrivate, isPrivatePtr (reverseName a) qtypePtr isPrivate = isPrivate a := by
  have hround : ∀ a, decodePtrToIp (reverseName a) = some a := by
    intro a
    cases a with
    | v4 a => exact decodePtrToIp_reverseName_v4 a
    | v6 a => exact decodePtrToIp_reverseName_v6 a
  refine ⟨hround, fun n a => eq_reverseName_of_decodePtrToIp, fun m n a hm hn => ?_,
    fun a isPrivate => ?_⟩
  · rw [eq_reverseName_of_decodePtrToIp hm, eq_reverseName_of_decodePtrToIp hn]
  · rw [isPrivatePtr, if_neg fun h => h rfl, hround]

end Dns
end TortaCore
