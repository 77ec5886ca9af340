import TortaCore.Resolver.Dns64
import TortaCore.Resolver.Rebind

/-!
# DNS64 replies

When an AAAA query comes back without an AAAA record, the resolver asks for the A records
of the name and answers with each of them embedded in each configured prefix.

## Main definitions

* `buildSynthAaaa`: the synthesized reply.
-/

namespace TortaCore
namespace Resolver

open Text Dns Wire Net List

/-- The prefixes that `set_prefixes` installs; an entry that does not parse is dropped. -/
def setPrefixes (csv : Str) : List Dns64Prefix :=
  ((csv.splitOnP fun c => c == ',' || c == '\n' || c == '\r').map trim).filterMap fun entry =>
    if entry.isEmpty then none else parsePrefix entry

/-- An AAAA query whose reply can be walked and has no AAAA record. -/
def needsSynthesis (queryQtype : ℕ) (validatedAaaaResponse : Bytes) : Bool :=
  if queryQtype ≠ typeAaaa then false
  else
    match answerRecords validatedAaaaResponse with
    | none => false
    | some answers => !answers.any fun r => r.rtype == typeAaaa

def synthTtlCap : ℕ := 600

/-- The time to live of the first SOA record of the Authority section. -/
def soaTtlFloor (aResponse : Bytes) : Option ℕ :=
  ((authorityRecords aResponse).bind fun ns => ns.find? fun r => r.rtype == rtypeSoa).map (·.ttl)

/-- The IPv4 address of an A record. -/
def ipv4Of (aResponse : Bytes) (r : AnswerRecord) : Option Ipv4Addr :=
  if r.rtype = typeA ∧ r.rdlength = 4 then
    match bytesAt aResponse r.rdataAt 4 with
    | [a, b, c, d] => some ⟨a, b, c, d⟩
    | _ => none
  else none

/-- The addresses and times to live of the A records of a reply. -/
def ipv4sOf (aResponse : Bytes) (answers : List AnswerRecord) : List (Ipv4Addr × ℕ) :=
  answers.filterMap fun r => (ipv4Of aResponse r).map fun v => (v, r.ttl)

/-- The answers of a synthesized reply: one for each address and prefix. -/
def synthRecords (v4s : List (Ipv4Addr × ℕ)) (cap : ℕ) (prefixes : List Dns64Prefix) :
    List Written :=
  v4s.flatMap fun v => prefixes.map fun p => addressRecord (.v6 (p.embed v.1)) (min v.2 cap)

def buildSynthAaaa (queryWire aResponse : Bytes) (prefixes : List Dns64Prefix) : Option Bytes :=
  if prefixes.isEmpty then none
  else
    match answerRecords aResponse with
    | none => none
    | some answers =>
      let v4s := ipv4sOf aResponse answers
      if v4s.isEmpty then none
      else
        let cap := min ((soaTtlFloor aResponse).getD synthTtlCap) synthTtlCap
        let records := synthRecords v4s cap prefixes
        (buildAddressResponse queryWire [] 0).map fun resp =>
          setAncount (resp ++ records.flatMap Written.bytes) records.length

/-! ### The addresses of a synthesized reply -/

theorem buildAddressResponse_nil (query : Bytes) (ttl : ℕ) :
    buildAddressResponse query [] ttl = positiveResponseCanvas query := by
  unfold buildAddressResponse positiveResponseCanvas responseCanvas
  cases hparse : parseQuestionFull query with
  | none => rfl
  | some q =>
    obtain ⟨hlen, -⟩ := parseQuestionFull_eq_some_iff.mp hparse
    -- the count that is written is the one that stands there
    match query, hlen with
    | a :: b :: rest, _ => rfl

variable {prefixes : List Dns64Prefix} {queryWire aResponse synth : Bytes}

theorem buildSynthAaaa_eq_some (h : buildSynthAaaa queryWire aResponse prefixes = some synth) :
    ∃ answers resp, answerRecords aResponse = some answers ∧
      positiveResponseCanvas queryWire = some resp ∧
      let records := synthRecords (ipv4sOf aResponse answers)
        (min ((soaTtlFloor aResponse).getD synthTtlCap) synthTtlCap) prefixes
      synth = setAncount (resp ++ records.flatMap Written.bytes) records.length := by
  unfold buildSynthAaaa at h
  split at h
  · cases h
  split at h
  · cases h
  next answers hanswers =>
  dsimp only at h
  split at h
  · cases h
  rw [buildAddressResponse_nil] at h
  obtain ⟨resp, hcanvas, rfl⟩ := Option.map_eq_some_iff.mp h
  exact ⟨answers, resp, hanswers, hcanvas, rfl⟩

theorem addressOf_addressRecord (ip : IpAddr) (ttl : ℕ) :
    addressOf (addressRecord ip ttl).rtype (addressRecord ip ttl).rdata = some ip := by
  cases ip with
  | v4 v => rfl
  | v6 v => exact dif_pos v.length_octets

/-- The addresses of a synthesized reply, in order. -/
def embeddings (v4s : List (Ipv4Addr × ℕ)) (prefixes : List Dns64Prefix) : List Ipv6Addr :=
  v4s.flatMap fun v => prefixes.map fun p => p.embed v.1

theorem mem_embeddings {v4s : List (Ipv4Addr × ℕ)} {ip : Ipv6Addr} :
    ip ∈ embeddings v4s prefixes ↔ ∃ v ∈ v4s, ∃ p ∈ prefixes, p.embed v.1 = ip := by
  simp [embeddings]

theorem length_synthRecords (v4s : List (Ipv4Addr × ℕ)) (cap : ℕ) (prefixes : List Dns64Prefix) :
    (synthRecords v4s cap prefixes).length = v4s.length * prefixes.length := by
  simp [synthRecords, length_flatMap]

theorem addressesOf_synthRecords (v4s : List (Ipv4Addr × ℕ)) (cap : ℕ)
    (prefixes : List Dns64Prefix) (n : ℕ) :
    addressesOf (((synthRecords v4s cap prefixes).take n).map fun x => (x.rtype, x.rdata)) =
      ((embeddings v4s prefixes).take n).map .v6 := by
  -- both lists come from the pairs of an address and a time to live
  obtain ⟨pairs, hrecords, hips⟩ : ∃ pairs : List (Ipv6Addr × ℕ),
      synthRecords v4s cap prefixes = pairs.map (fun x => addressRecord (.v6 x.1) x.2) ∧
        embeddings v4s prefixes = pairs.map Prod.fst :=
    ⟨v4s.flatMap fun v => prefixes.map fun p => (p.embed v.1, min v.2 cap),
      by simp [synthRecords, map_flatMap, Function.comp_def],
      by simp [embeddings, map_flatMap, Function.comp_def]⟩
  rw [hrecords, hips, addressesOf, ← map_take, ← map_take, map_map, filterMap_map, map_map]
  simp only [Function.comp_def, addressOf_addressRecord]
  exact congrFun filterMap_eq_map _

/-- **A synthesized reply holds the embedded addresses**, cut at what the count field
holds. -/
theorem addressesOf_buildSynthAaaa (h : buildSynthAaaa queryWire aResponse prefixes = some synth) :
    ∃ answers recs, answerRecords aResponse = some answers ∧ LaysOut synth recs ∧
      let v4s := ipv4sOf aResponse answers
      addressesOf recs = ((embeddings v4s prefixes).take
        (v4s.length * prefixes.length % 65536)).map .v6 := by
  obtain ⟨answers, resp, hanswers, hcanvas, rfl⟩ := buildSynthAaaa_eq_some h
  have hsound : ∀ cap, ∀ x ∈ synthRecords (ipv4sOf aResponse answers) cap prefixes, x.Sound := by
    intro cap x hx
    obtain ⟨v, -, hv⟩ := mem_flatMap.mp hx
    obtain ⟨p, -, rfl⟩ := mem_map.mp hv
    exact addressRecord_sound _ _
  refine ⟨answers, _, hanswers, laysOut_canvas hcanvas (hsound _), ?_⟩
  rw [addressesOf_synthRecords, length_synthRecords]

/-- The embeddings of the A records of a reply in the prefixes are public. -/
def EmbedsPublic (aResponse : Bytes) (prefixes : List Dns64Prefix) : Prop :=
  ∀ answers, answerRecords aResponse = some answers → ∀ v ∈ ipv4sOf aResponse answers,
    ∀ p ∈ prefixes, isPublicIp (.v6 (p.embed v.1)) = true

theorem clean_buildSynthAaaa (hpublic : EmbedsPublic aResponse prefixes)
    (h : buildSynthAaaa queryWire aResponse prefixes = some synth) : Clean synth := by
  obtain ⟨answers, recs, hanswers, hlays, haddresses⟩ := addressesOf_buildSynthAaaa h
  intro recs' hrecs'
  obtain rfl := hrecs'.unique hlays
  refine isRebind_eq_false_iff.mpr fun ip hip => ?_
  rw [haddresses] at hip
  obtain ⟨e, he, rfl⟩ := mem_map.mp hip
  obtain ⟨v, hv, p, hp, rfl⟩ := mem_embeddings.mp (mem_of_mem_take he)
  exact hpublic answers hanswers v hv p hp

end Resolver
end TortaCore
