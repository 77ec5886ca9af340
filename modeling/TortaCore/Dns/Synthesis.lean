import TortaCore.Dns.Layout
import TortaCore.Net.IpAddr

/-!
# Forged replies

Replies that are made from the query alone: denials, and address answers whose owners are
compression pointers to the question.

## Main definitions

* `buildNxdomainResponse`, `buildSinkholeResponse`, `buildAddressResponse`.
-/

namespace TortaCore
namespace Dns

open Text Wire Net List

/-- The query up to `qend` under a response header: QR and RA set, the given RCODE, one
question and nothing else. -/
def echoQuestion (rcode : UInt8) (query : Bytes) (qend : ℕ) : Bytes :=
  query.take 2 ++ [query.getD 2 0 ||| 0x80, ((query.getD 3 0 ||| 0x80) &&& 0xF0) ||| rcode,
    0, 1, 0, 0, 0, 0, 0, 0] ++ (query.take qend).drop 12

/-- What `build_nxdomain_response`, `build_servfail_response` and
`positive_response_canvas` have in common. -/
def responseCanvas (rcode : UInt8) (query : Bytes) : Option Bytes :=
  (parseQuestionFull query).map fun q => echoQuestion rcode query q.2

def buildNxdomainResponse (query : Bytes) : Option Bytes := responseCanvas 3 query

def buildServfailResponse (query : Bytes) : Option Bytes := responseCanvas 2 query

def positiveResponseCanvas (query : Bytes) : Option Bytes := responseCanvas 0 query

/-- The record that `push_address_answer` appends; the owner points at the question. -/
def addressRecord (ip : IpAddr) (ttl : ℕ) : Written :=
  match ip with
  | .v4 v => ⟨[0xC0, 0x0C], typeA, classIn, ttl, v.octets⟩
  | .v6 v => ⟨[0xC0, 0x0C], typeAaaa, classIn, ttl, v.octets⟩

def pushAddressAnswer (resp : Bytes) (ip : IpAddr) (ttl : ℕ) : Bytes :=
  resp ++ (addressRecord ip ttl).bytes

def buildSinkholeResponse (query : Bytes) (ip : IpAddr) : Option Bytes :=
  (positiveResponseCanvas query).map fun resp => setAncount (pushAddressAnswer resp ip 0) 1

/-- One answer for each address, all with the same time to live. -/
def buildAddressResponse (query : Bytes) (ips : List IpAddr) (ttl : ℕ) : Option Bytes :=
  (positiveResponseCanvas query).map fun resp =>
    setAncount (ips.foldl (fun resp ip => pushAddressAnswer resp ip ttl) resp) ips.length

/-! ### Layout -/

theorem laysOut_nil_of_count {w : Bytes} {recs : List (ℕ × Bytes)} (h : LaysOut w recs)
    (hcount : u16At w 6 = 0) : recs = [] := by
  obtain ⟨e, -, hrecs⟩ := h
  rw [hcount] at hrecs
  cases hrecs
  rfl

theorem addressRecord_sound (ip : IpAddr) (ttl : ℕ) : (addressRecord ip ttl).Sound := by
  have howner : ∀ {buf : Bytes} {p : ℕ}, [0xC0, 0x0C] <+: buf.drop p → NameEnds buf p (p + 2) := by
    intro buf p h
    obtain ⟨rest, hrest⟩ := h
    have hget := congrArg (·[0]?) hrest
    exact .pointer (show _ = some 0xC0 by simpa using hget.symm) (by decide)
  cases ip with
  | v4 v =>
    exact ⟨show typeA < 65536 by decide, show 4 < 65536 by decide, howner⟩
  | v6 v =>
    exact ⟨show typeAaaa < 65536 by decide,
      show v.octets.length < 65536 by rw [v.length_octets]; decide, howner⟩

theorem setAncount_spec {buf : Bytes} (hlen : 8 ≤ buf.length) (count : ℕ) :
    u16At (setAncount buf count) 6 = count % 65536 ∧
      ∀ q, 8 ≤ q → (setAncount buf count).drop q = buf.drop q := by
  have hsix : (buf.take 6).length = 6 := length_take_of_le (by omega)
  constructor
  · have hpre : beBytes 2 count <+: (setAncount buf count).drop 6 := by
      rw [setAncount, drop_left' hsix]
      exact prefix_append _ _
    have hbytes := bytesAt_of_prefix hpre
    rw [length_beBytes] at hbytes
    rw [u16At, hbytes]
    exact beNat_beBytes 2 count
  · intro q hq
    have height : (setAncount buf count).drop 8 = buf.drop 8 := by
      rw [setAncount, ← append_assoc, drop_left' (by simp [hsix, length_beBytes])]
    rw [← Nat.add_sub_cancel' hq, ← drop_drop, height, drop_drop]

theorem u16At_echoQuestion {rcode : UInt8} {query : Bytes} (hlen : 2 ≤ query.length)
    {qend : ℕ} : u16At (echoQuestion rcode query qend) 6 = 0 := by
  match query, hlen with
  | a :: b :: rest, _ => rfl

/-- A canvas ends where the question does, has no answers, and echoes the question. -/
theorem responseCanvas_spec {rcode : UInt8} {query resp : Bytes}
    (h : responseCanvas rcode query = some resp) :
    ∃ e, NameEnds query 12 e ∧ resp.length = e + 4 ∧ u16At resp 6 = 0 ∧
      ∀ i, 12 ≤ i → i < e + 4 → resp[i]? = query[i]? := by
  obtain ⟨⟨q, qend⟩, hparse, rfl⟩ := Option.map_eq_some_iff.mp h
  obtain ⟨hlen, -, pos, hname, hpos, -, -, -, rfl⟩ := parseQuestionFull_eq_some_iff.mp hparse
  have hlt := (readName_bounds hname).1
  have htwo : (query.take 2).length = 2 := length_take_of_le (by omega)
  refine ⟨pos, nameEnds_of_readName hname, ?_, u16At_echoQuestion (by omega), ?_⟩
  · simp only [echoQuestion, length_append, htwo, length_cons, length_nil, length_drop, length_take]
    omega
  · intro i hi hi'
    have hheader : (query.take 2 ++ [query.getD 2 0 ||| 0x80,
        ((query.getD 3 0 ||| 0x80) &&& 0xF0) ||| rcode, 0, 1, 0, 0, 0, 0, 0, 0]).length = 12 := by
      rw [length_append, htwo]
      rfl
    rw [echoQuestion, getElem?_append_right (by omega), hheader, getElem?_drop,
      Nat.add_sub_cancel' hi, getElem?_take_of_lt hi']

/-- **A canvas with answers behind it lays out those answers**, cut at what the count field
holds. -/
theorem laysOut_canvas {rcode : UInt8} {query resp : Bytes}
    (hcanvas : responseCanvas rcode query = some resp) {xs : List Written}
    (hsound : ∀ x ∈ xs, x.Sound) :
    LaysOut (setAncount (resp ++ xs.flatMap Written.bytes) xs.length)
      ((xs.take (xs.length % 65536)).map fun x => (x.rtype, x.rdata)) := by
  obtain ⟨e, hname, hlen, -, hecho⟩ := responseCanvas_spec hcanvas
  have hlt := hname.lt
  have hroom : 8 ≤ (resp ++ xs.flatMap Written.bytes).length := by
    rw [length_append]
    omega
  obtain ⟨hcount, hdrop⟩ := setAncount_spec hroom xs.length
  refine ⟨e, hname.congr fun i hi hi' => ?_, ?_⟩
  · rw [← hecho i hi (by omega), getElem?_of_drop_eq (hdrop 12 (by omega)) hi,
      getElem?_append_left (by omega)]
  · have hanswers : (setAncount (resp ++ xs.flatMap Written.bytes) xs.length).drop (e + 4) =
        xs.flatMap Written.bytes := by
      rw [hdrop _ (by omega), ← hlen, drop_left]
    rw [hcount]
    exact recordsAt_written xs hsound ⟨[], by rw [append_nil, hanswers]⟩ (Nat.mod_le _ _)

end Dns
end TortaCore
