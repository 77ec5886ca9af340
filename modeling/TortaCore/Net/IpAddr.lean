import TortaCore.Text.Number
import TortaCore.Wire.Cursor

/-!
# IP addresses and their text form

IPv4 and IPv6 addresses, and the parser behind `str::parse::<IpAddr>()`: dotted
decimals without leading zeros, colon-separated hexadecimal groups with at most
one `::`, and an IPv4 tail in place of the last two groups.

Every reader takes the text that is left and returns its value with the text
after it; a reader that fails consumes nothing.

## Main definitions

* `Ipv4Addr`, `Ipv6Addr`, `IpAddr`.
* `readNumber`, `readIpv4Addr`, `readIpv6Addr`: the readers.

## Main results

* `readGroups_length_le`: a group reader stays within its limit, so that the
  sixteen octets of an IPv6 address can be put together.
-/

namespace TortaCore
namespace Net

open Text List

/-- An IPv4 address, first octet first. -/
structure Ipv4Addr where
  a : UInt8
  b : UInt8
  c : UInt8
  d : UInt8
  deriving DecidableEq, Repr

def Ipv4Addr.octets (v : Ipv4Addr) : List UInt8 := [v.a, v.b, v.c, v.d]

/-- An IPv6 address: sixteen octets. -/
structure Ipv6Addr where
  octets : List UInt8
  length_octets : octets.length = 16
  deriving DecidableEq

inductive IpAddr where
  | v4 (a : Ipv4Addr)
  | v6 (a : Ipv6Addr)
  deriving DecidableEq

/-! ### Readers -/

/-- A number of at most `maxDigits` digits that is at most `bound`; all the digits
that follow belong to it. -/
def readNumber (radix maxDigits : ℕ) (allowZeroPrefix : Bool) (bound : ℕ) (s : Str) :
    Option (ℕ × Str) :=
  let digits := s.takeWhile fun c => (toDigit radix c).isSome
  let rest := s.dropWhile fun c => (toDigit radix c).isSome
  if digits.length > maxDigits ∨ digits.length = 0 then none
  else if !allowZeroPrefix && s.head? == some '0' && digits.length > 1 then none
  else if digitsValue radix digits ≤ bound then some (digitsValue radix digits, rest)
  else none

def readGivenChar (c : Char) : Str → Option Str
  | [] => none
  | x :: s => if x = c then some s else none

/-- The inner reader, after a separator unless this is the first item. -/
def readSeparator {α : Type} (sep : Char) (first : Bool) (inner : Str → Option (α × Str))
    (s : Str) : Option (α × Str) :=
  if first then inner s else (readGivenChar sep s).bind inner

def readIpv4Addr (s : Str) : Option (Ipv4Addr × Str) := do
  let octet := readNumber 10 3 false 255
  let (a, s) ← readSeparator '.' true octet s
  let (b, s) ← readSeparator '.' false octet s
  let (c, s) ← readSeparator '.' false octet s
  let (d, s) ← readSeparator '.' false octet s
  some (⟨UInt8.ofNat a, UInt8.ofNat b, UInt8.ofNat c, UInt8.ofNat d⟩, s)

/-- A run of at most `limit` groups, two octets each, and whether it ended in an IPv4
address, which needs room for two groups. -/
def readGroups (first : Bool) : ℕ → Str → List UInt8 × Bool × Str
  | 0, s => ([], false, s)
  | limit + 1, s =>
    let ipv4 := if 0 < limit then readSeparator ':' first readIpv4Addr s else none
    match ipv4 with
    | some (v, s) => (v.octets, true, s)
    | none =>
      match readSeparator ':' first (readNumber 16 4 true 0xFFFF) s with
      | some (g, s) =>
        let (gs, b, s) := readGroups false limit s
        (Wire.beBytes 2 g ++ gs, b, s)
      | none => ([], false, s)

theorem readGroups_length_le (limit : ℕ) (first : Bool) (s : Str) :
    (readGroups first limit s).1.length ≤ 2 * limit := by
  induction limit generalizing first s with
  | zero => simp [readGroups]
  | succ limit ih =>
    rw [readGroups]
    split
    · next v _ h =>
      -- an IPv4 tail is read only where two groups are left
      have hlimit : 0 < limit := by
        by_contra hl
        rw [if_neg hl] at h
        cases h
      show v.octets.length ≤ 2 * (limit + 1)
      rw [Ipv4Addr.octets]
      simp only [length_cons, length_nil]
      omega
    · split
      · next g s' _ =>
        have h := ih false s'
        show (Wire.beBytes 2 g ++ (readGroups false limit s').1).length ≤ 2 * (limit + 1)
        rw [length_append, Wire.length_beBytes]
        omega
      · exact Nat.zero_le _

/-- The head and the tail of an address around its `::`, with zeros between them. -/
def joinGroups (head tail : List UInt8) : List UInt8 :=
  head ++ List.replicate (16 - head.length - tail.length) 0 ++ tail

theorem length_joinGroups {head tail : List UInt8} (h : head.length + tail.length ≤ 16) :
    (joinGroups head tail).length = 16 := by
  simp only [joinGroups, length_append, length_replicate]
  omega

theorem readGroups_tail_room (head : List UInt8) (first : Bool) (s : Str) (h : head.length < 16) :
    head.length + (readGroups first (7 - head.length / 2) s).1.length ≤ 16 := by
  have hle := readGroups_length_le (7 - head.length / 2) first s
  omega

def readIpv6Addr (s : Str) : Option (Ipv6Addr × Str) :=
  let (head, headIpv4, s) := readGroups true 8 s
  if h8 : head.length = 16 then some (⟨head, h8⟩, s)
  else if headIpv4 then none
  else
    match (readGivenChar ':' s).bind (readGivenChar ':') with
    | none => none
    | some s =>
      if h : head.length < 16 then
        some (⟨joinGroups head (readGroups true (7 - head.length / 2) s).1,
          length_joinGroups (readGroups_tail_room head true s h)⟩,
          (readGroups true (7 - head.length / 2) s).2.2)
      else none

/-- `str::parse::<IpAddr>()`: nothing may be left over. -/
def IpAddr.parse (s : Str) : Option IpAddr :=
  match readIpv4Addr s with
  | some (v, rest) => if rest.isEmpty then some (.v4 v) else none
  | none =>
    match readIpv6Addr s with
    | some (v, rest) => if rest.isEmpty then some (.v6 v) else none
    | none => none

/-- `str::parse::<Ipv6Addr>()`. -/
def Ipv6Addr.parse (s : Str) : Option Ipv6Addr :=
  match readIpv6Addr s with
  | some (v, rest) => if rest.isEmpty then some v else none
  | none => none

/-- An address with a port. -/
structure SocketAddr where
  ip : IpAddr
  port : ℕ
  deriving DecidableEq

/-- A decimal number of any length that is at most `bound`. -/
def readDecimal (bound : ℕ) (s : Str) : Option (ℕ × Str) := readNumber 10 s.length true bound s

def readPort (s : Str) : Option (ℕ × Str) := (readGivenChar ':' s).bind (readDecimal 65535)

def readSocketAddrV4 (s : Str) : Option (SocketAddr × Str) := do
  let (ip, s) ← readIpv4Addr s
  let (port, s) ← readPort s
  some (⟨.v4 ip, port⟩, s)

/-- A scope, which may be left out. -/
def readScopeId (s : Str) : Str :=
  match (readGivenChar '%' s).bind (readDecimal 4294967295) with
  | some (_, rest) => rest
  | none => s

def readSocketAddrV6 (s : Str) : Option (SocketAddr × Str) := do
  let s ← readGivenChar '[' s
  let (ip, s) ← readIpv6Addr s
  let s ← readGivenChar ']' (readScopeId s)
  let (port, s) ← readPort s
  some (⟨.v6 ip, port⟩, s)

/-- `str::parse::<SocketAddr>()`. -/
def SocketAddr.parse (s : Str) : Option SocketAddr :=
  match (readSocketAddrV4 s).or (readSocketAddrV6 s) with
  | some (sa, rest) => if rest.isEmpty then some sa else none
  | none => none

end Net
end TortaCore
