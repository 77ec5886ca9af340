import TortaCore.Dns.Synthesis

/-!
# Rebinding

A public name whose answer holds a private address is the mark of DNS rebinding.  The
detector skims the addresses from the answer section; a message that it cannot walk has
none.  What it finds can therefore change when a message is rewritten, so the resolver's
guarantee is stated about the layout of the answers instead, which does not.

## Main definitions

* `isPublicIp`, `extractAnswerIps`, `isRebind`: the detector.
-/

namespace TortaCore

namespace Net

namespace Ipv4Addr

def isPrivate (v : Ipv4Addr) : Bool :=
  v.a == 10 || (v.a == 172 && 16 ≤ v.b && v.b ≤ 31) || (v.a == 192 && v.b == 168)

def isLoopback (v : Ipv4Addr) : Bool := v.a == 127

def isLinkLocal (v : Ipv4Addr) : Bool := v.a == 169 && v.b == 254

def isUnspecified (v : Ipv4Addr) : Bool := v.octets == [0, 0, 0, 0]

def isBroadcast (v : Ipv4Addr) : Bool := v.octets == [255, 255, 255, 255]

def isDocumentation (v : Ipv4Addr) : Bool :=
  v.octets.take 3 ∈ [[192, 0, 2], [198, 51, 100], [203, 0, 113]]

def isMulticast (v : Ipv4Addr) : Bool := 224 ≤ v.a && v.a ≤ 239

end Ipv4Addr

namespace Ipv6Addr

def isLoopback (v : Ipv6Addr) : Bool := v.octets == List.replicate 15 0 ++ [1]

def isUnspecified (v : Ipv6Addr) : Bool := v.octets == List.replicate 16 0

def isUniqueLocal (v : Ipv6Addr) : Bool := v.octets.getD 0 0 &&& 0xFE == 0xFC

def isUnicastLinkLocal (v : Ipv6Addr) : Bool :=
  v.octets.getD 0 0 == 0xFE && v.octets.getD 1 0 &&& 0xC0 == 0x80

def isMulticast (v : Ipv6Addr) : Bool := v.octets.getD 0 0 == 0xFF

/-- The address behind `::ffff:0:0/96`. -/
def toIpv4Mapped (v : Ipv6Addr) : Option Ipv4Addr :=
  if v.octets.take 12 = List.replicate 10 0 ++ [0xFF, 0xFF] then
    match v.octets.drop 12 with
    | [a, b, c, d] => some ⟨a, b, c, d⟩
    | _ => none
  else none

end Ipv6Addr

end Net

namespace Resolver

open Text Dns Wire Net

/-! ### The detector -/

def isPublicV4 (v : Ipv4Addr) : Bool :=
  !(v.isPrivate || v.isLoopback || v.isLinkLocal || v.isUnspecified || v.isBroadcast ||
    v.isDocumentation || v.isMulticast)

def isPublicIp : IpAddr → Bool
  | .v4 v => isPublicV4 v
  | .v6 v =>
    !(v.isLoopback || v.isUnspecified || v.isUniqueLocal || v.isUnicastLinkLocal ||
      v.isMulticast || v.toIpv4Mapped.any fun m => !isPublicV4 m)

/-- The address in the data of an A or AAAA record of the right length. -/
def addressOf (rtype : ℕ) (rdata : Bytes) : Option IpAddr :=
  if rtype = typeA then
    match rdata with
    | [a, b, c, d] => some (.v4 ⟨a, b, c, d⟩)
    | _ => none
  else if rtype = typeAaaa then
    if h : rdata.length = 16 then some (.v6 ⟨rdata, h⟩) else none
  else none

/-- The addresses of laid out records. -/
def addressesOf (recs : List (ℕ × Bytes)) : List IpAddr := recs.filterMap fun d => addressOf d.1 d.2

def extractAnswerIps (responseWire : Bytes) : List IpAddr :=
  match answerRecords responseWire with
  | none => []
  | some records => addressesOf (records.map (AnswerRecord.data responseWire))

def isRebind (answerIps : List IpAddr) : Bool := answerIps.any fun ip => !isPublicIp ip

def privateSuffixes : List Str :=
  ["local".toList, "lan".toList, "internal".toList, "home.arpa".toList, "in-addr.arpa".toList,
    "ip6.arpa".toList]

/-- The names for which a private address is legitimate: a special-use or reverse zone, or
a name below one. -/
def isPrivateOrLocalName (qname : Str) : Bool :=
  privateSuffixes.any fun suf => ('.' :: suf).isSuffixOf qname || qname == suf

theorem isRebind_eq_false_iff {ips : List IpAddr} :
    isRebind ips = false ↔ ∀ ip ∈ ips, isPublicIp ip = true := by
  simp [isRebind]

theorem isRebind_of_subset {ips ips' : List IpAddr} (hsub : ips ⊆ ips')
    (h : isRebind ips' = false) : isRebind ips = false :=
  isRebind_eq_false_iff.mpr fun ip hip => isRebind_eq_false_iff.mp h ip (hsub hip)

/-! ### Clean messages -/

/-- Whatever answers the message lays out, their addresses are public. -/
def Clean (w : Bytes) : Prop := ∀ recs, LaysOut w recs → isRebind (addressesOf recs) = false

/-- **In a clean message the detector finds nothing.** -/
theorem Clean.isRebind_eq_false {w : Bytes} (h : Clean w) :
    isRebind (extractAnswerIps w) = false := by
  unfold extractAnswerIps
  split
  · rfl
  · next records hrecords => exact h _ (laysOut_of_answerRecords hrecords)

/-- A message that the detector can walk is clean when it finds nothing. -/
theorem clean_of_answerRecords {w : Bytes} {records : List AnswerRecord}
    (hrecords : answerRecords w = some records) (h : isRebind (extractAnswerIps w) = false) :
    Clean w := by
  intro recs hrecs
  obtain rfl := hrecs.unique (laysOut_of_answerRecords hrecords)
  rwa [extractAnswerIps, hrecords] at h

theorem clean_of_count {w : Bytes} (h : u16At w 6 = 0) : Clean w := by
  intro recs hrecs
  obtain rfl := laysOut_nil_of_count hrecs h
  rfl

theorem Clean.of_body {w w' : Bytes} (h : Clean w) (hbody : w'.drop 12 = w.drop 12)
    (hcount : u16At w' 6 = u16At w 6) : Clean w' :=
  fun recs hrecs => h recs (hrecs.of_body hbody hcount)

theorem Clean.of_question {w w' : Bytes} (h : Clean w) {e : ℕ} (hname : NameEnds w 12 e)
    (hname' : NameEnds w' 12 e) (hbody : w'.drop (e + 4) = w.drop (e + 4))
    (hcount : u16At w' 6 = u16At w 6) : Clean w' :=
  fun recs hrecs => h recs (hrecs.of_question hname hname' hbody hcount)

theorem Clean.filterRr {response out : Bytes} (h : Clean response) {dropTypes : List ℕ}
    {anyDefang isAnyQuery : Bool}
    (hfilter : Dns.filterRr response dropTypes anyDefang isAnyQuery = some out) : Clean out := by
  intro recs hrecs
  obtain ⟨recs₀, hrecs₀, hsub⟩ := laysOut_filterRr hfilter hrecs
  exact isRebind_of_subset (List.filterMap_subset _ hsub) (h recs₀ hrecs₀)

end Resolver
end TortaCore
