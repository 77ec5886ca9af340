import TortaCore.Dns.Acceptance
import TortaCore.Resolver.Dns64Reply
import TortaCore.Resolver.Local

/-!
# Forged replies, side by side

The denial, the sinkhole, the address answers and the synthesized AAAA answers all start
from the echoed question.  Here they are held against the check that upstream replies have
to pass, and the two builders of address answers against each other.
-/

namespace TortaCore
namespace Resolver

open Text Dns Wire Net Machine List

/-! ### The check -/

/-- The answer that says that `name` has this address. -/
def addressAnswer (name : Str) (ip : IpAddr) (ttl : ℕ) : Record :=
  match ip with
  | .v4 v => ⟨name, typeA, classIn, ttl, v.octets⟩
  | .v6 v => ⟨name, typeAaaa, classIn, ttl, v.octets⟩

theorem record_addressRecord (name : Str) (ip : IpAddr) (ttl : ℕ) :
    (addressRecord ip ttl).record name = addressAnswer name ip ttl := by
  cases ip <;> rfl

theorem addressRecord_fits (ip : IpAddr) {ttl : ℕ} (httl : ttl < 2 ^ 32) :
    (addressRecord ip ttl).Fits ∧ (addressRecord ip ttl).owner = [0xC0, 0x0C] := by
  have htypes : typeA < 65536 ∧ typeAaaa < 65536 ∧ classIn < 65536 := by decide
  cases ip with
  | v4 v => exact ⟨⟨htypes.1, htypes.2.2, httl, show 4 < 65536 by decide⟩, rfl⟩
  | v6 v =>
    refine ⟨⟨htypes.2.1, htypes.2.2, httl, ?_⟩, rfl⟩
    show v.octets.length < 65536
    rw [v.length_octets]
    decide

/-- The loop of `build_address_response` appends one record after the other. -/
theorem foldl_pushAddressAnswer (ttl : ℕ) (ips : List IpAddr) (resp : Bytes) :
    ips.foldl (fun resp ip => pushAddressAnswer resp ip ttl) resp =
      resp ++ (ips.map fun ip => addressRecord ip ttl).flatMap Written.bytes := by
  induction ips generalizing resp with
  | nil => simp
  | cons ip ips ih =>
    rw [foldl_cons, ih, pushAddressAnswer, map_cons, flatMap_cons, append_assoc]

variable {query : Bytes}

theorem buildAddressResponse_eq {q : DnsQuestion} {qend : ℕ}
    (hparse : parseQuestionFull query = some (q, qend)) (ips : List IpAddr) (ttl : ℕ) :
    buildAddressResponse query ips ttl = some (setAncount (echoQuestion 0 query qend ++
      (ips.map fun ip => addressRecord ip ttl).flatMap Written.bytes) ips.length) := by
  rw [buildAddressResponse, positiveResponseCanvas, responseCanvas, hparse]
  simp only [Option.map_some, foldl_pushAddressAnswer]

theorem setAncount_echoQuestion (hlen : 2 ≤ query.length) (rcode : UInt8) (qend : ℕ) :
    setAncount (echoQuestion rcode query qend) 0 = echoQuestion rcode query qend := by
  match query, hlen with
  | a :: b :: rest, _ => rfl

/-- **Forged replies pass the check.**  For a query that is not truncated and whose question
name has no compression pointer, every forged reply is accepted as a reply to it, and its
answers are the given addresses, in order, owned by the queried name. -/
theorem forged_replies_accepted {query : Bytes} {q : DnsQuestion} {qend : ℕ}
    (hparse : parseQuestionFull query = some (q, qend)) (htc : maskAt query 2 0x02 = 0)
    (hplain : ∃ e, PlainName query 12 e) :
    (∃ w, buildNxdomainResponse query = some w ∧ Accepted query w []) ∧
    (∀ ip, ∃ w, buildSinkholeResponse query ip = some w ∧
      Accepted query w [addressAnswer q.qname ip 0]) ∧
    (∀ ips ttl, ips.length ≤ 65535 → ttl < 2 ^ 32 →
      ∃ w, buildAddressResponse query ips ttl = some w ∧
        Accepted query w (ips.map fun ip => addressAnswer q.qname ip ttl)) ∧
    (∀ aResponse prefixes w, buildSynthAaaa query aResponse prefixes = some w →
      ∃ answers, answerRecords aResponse = some answers ∧
        let v4s := ipv4sOf aResponse answers
        let cap := min ((soaTtlFloor aResponse).getD synthTtlCap) synthTtlCap
        v4s.length * prefixes.length ≤ 65535 →
          Accepted query w (v4s.flatMap fun v => prefixes.map fun p =>
            addressAnswer q.qname (.v6 (p.embed v.1)) (min v.2 cap))) := by
  obtain ⟨e, hplain⟩ := hplain
  obtain ⟨hlen, -⟩ := parseQuestionFull_eq_some_iff.mp hparse
  refine ⟨?_, ?_, ?_, ?_⟩
  · refine ⟨echoQuestion 3 query qend, by
      rw [buildNxdomainResponse, responseCanvas, hparse, Option.map_some], ?_⟩
    have hacc := accepted_canvas hparse htc hplain (.inr rfl : (3 : UInt8) = 0 ∨ _)
      [] (by simp) (by simp)
    rwa [flatMap_nil, append_nil, length_nil, setAncount_echoQuestion (by omega)] at hacc
  · intro ip
    refine ⟨setAncount (pushAddressAnswer (echoQuestion 0 query qend) ip 0) 1, by
      rw [buildSinkholeResponse, positiveResponseCanvas, responseCanvas, hparse,
        Option.map_some, Option.map_some], ?_⟩
    have hacc := accepted_canvas hparse htc hplain (.inl rfl : (0 : UInt8) = 0 ∨ _)
      [addressRecord ip 0] (by simpa using addressRecord_fits ip (by decide)) (by simp)
    simpa [pushAddressAnswer, record_addressRecord] using hacc
  · intro ips ttl hcount httl
    refine ⟨_, buildAddressResponse_eq hparse ips ttl, ?_⟩
    have hacc := accepted_canvas hparse htc hplain (.inl rfl : (0 : UInt8) = 0 ∨ _)
      (ips.map fun ip => addressRecord ip ttl)
      (by
        intro x hx
        obtain ⟨ip, -, rfl⟩ := mem_map.mp hx
        exact addressRecord_fits ip httl)
      (by rwa [length_map])
    rw [length_map, map_map] at hacc
    simpa only [Function.comp_def, record_addressRecord] using hacc
  · intro aResponse prefixes w h
    obtain ⟨answers, resp, hanswers, hcanvas, rfl⟩ := buildSynthAaaa_eq_some h
    refine ⟨answers, hanswers, ?_⟩
    intro v4s cap hcount
    rw [positiveResponseCanvas, responseCanvas, hparse] at hcanvas
    cases hcanvas
    have hacc := accepted_canvas hparse htc hplain (.inl rfl : (0 : UInt8) = 0 ∨ _)
      (synthRecords v4s cap prefixes)
      (by
        intro x hx
        obtain ⟨v, -, hv⟩ := mem_flatMap.mp hx
        obtain ⟨p, -, rfl⟩ := mem_map.mp hv
        -- the cap keeps every time to live inside its field
        have hcap : min v.2 cap ≤ synthTtlCap :=
          Nat.le_trans (Nat.min_le_right _ _) (Nat.min_le_right _ _)
        exact addressRecord_fits _ (Nat.lt_of_le_of_lt hcap (by decide)))
      (by simpa [synthRecords, length_flatMap] using hcount)
    simpa only [synthRecords, map_flatMap, map_map, Function.comp_def,
      record_addressRecord] using hacc

/-- A query for the address of `a`. -/
def plainQuery : Bytes :=
  [0x12, 0x34, 0x01, 0, 0, 1, 0, 0, 0, 0, 0, 0, 1, 0x61, 0, 0, 1, 0, 1]

theorem plainName_plainQuery : PlainName plainQuery 12 15 :=
  .label rfl (by decide) (by decide) (.root rfl)

theorem forged_replies_accepted_plainQuery :
    (parseQuestionFull plainQuery).isSome = true ∧ maskAt plainQuery 2 0x02 = 0 ∧
      ∃ w, buildAddressResponse plainQuery [.v4 ⟨192, 0, 2, 1⟩, .v4 ⟨192, 0, 2, 2⟩] 60 = some w ∧
        Accepted plainQuery w [addressAnswer ['a'] (.v4 ⟨192, 0, 2, 1⟩) 60,
          addressAnswer ['a'] (.v4 ⟨192, 0, 2, 2⟩) 60] := by
  have hparse : parseQuestionFull plainQuery = some (⟨0x1234, ['a'], 1, 1⟩, 19) := by
    decide +kernel
  refine ⟨by rw [hparse]; rfl, by decide, ?_⟩
  exact (forged_replies_accepted hparse (by decide) ⟨15, plainName_plainQuery⟩).2.2.1 _ _
    (by decide) (by decide)

/-! ### Two walkers, two builders -/

/-- What `question_end` has counted when `read_name` has joined these labels: a byte for
each label length and no dots. -/
def walkedOf (labels : Bytes) : ℕ := if labels = [] then 0 else labels.length + 1

theorem walkedOf_pushLabel {labels l : Bytes} (hl : l ≠ []) :
    walkedOf (pushLabel labels l) = walkedOf labels + (l.length + 1) := by
  by_cases h : labels = []
  · simp [walkedOf, pushLabel, h, hl]
  · simp only [walkedOf, pushLabel_of_ne_nil h, h, append_eq_nil_iff, false_and, if_false,
      length_append, length_cons]
    omega

theorem walkedOf_mono {labels labels' : Bytes} (h : labels.length ≤ labels'.length) :
    walkedOf labels ≤ walkedOf labels' := by
  unfold walkedOf
  split
  · exact Nat.zero_le _
  · next hne =>
    have hpos := length_pos_of_ne_nil hne
    rw [if_neg (ne_nil_of_length_pos (by omega))]
    omega

theorem questionEndStep_label {p walked : ℕ} {len : UInt8} (hlen : query[p]? = some len)
    (hne : len ≠ 0) (hle : len.toNat ≤ maxLabelLen)
    (hwalked : walked + (len.toNat + 1) ≤ maxQuestionName)
    (hend : p + 1 + len.toNat ≤ query.length) :
    questionEndStep query (p, walked) = .next (p + 1 + len.toNat, walked + (len.toNat + 1)) := by
  have hp : ¬ len &&& 0xC0 = 0xC0 := by
    have hnot := not_isPointer_of_le hle
    simpa [isPointer] using hnot
  simp only [questionEndStep, hlen, hp, hne, Nat.not_lt.mpr hwalked, Nat.not_lt.mpr hend, if_false]

/-- Below the limit of the name the two walkers stop in the same place. -/
theorem evaluates_questionEndStep {p e : ℕ} (h : PlainName query p e) {l raw : Bytes} {j after : ℕ}
    (heval : Evaluates (nameStep query) ⟨l, p, j, none⟩ (some (raw, after)))
    (hraw : walkedOf raw ≤ maxQuestionName) :
    Evaluates (questionEndStep query) (p, walkedOf l) (some e) := by
  induction h generalizing l with
  | root hz =>
    refine .halt ?_
    simp only [questionEndStep, hz]
    rfl
  | @label p e len hlen hne hle hrest ih =>
    obtain ⟨hend, -, htail⟩ := evaluates_of_label (s := ⟨l, p, j, none⟩) hlen hne hle heval
    have hbody : (bytesAt query (p + 1) len.toNat).length = len.toNat := length_bytesAt hend
    have hpush : walkedOf (pushLabel l (bytesAt query (p + 1) len.toNat)) =
        walkedOf l + (len.toNat + 1) := by
      rw [walkedOf_pushLabel, hbody]
      intro hnil
      rw [hnil] at hbody
      exact hne (UInt8.toNat_inj.mp hbody.symm)
    have hnext := ih htail
    rw [hpush] at hnext
    -- the labels that follow only add to the count
    have hgrow : walkedOf (pushLabel l (bytesAt query (p + 1) len.toNat)) ≤ walkedOf raw := by
      obtain ⟨ls, -, hfold⟩ := labelsAt_of_evaluates htail
      rw [hfold]
      exact walkedOf_mono (length_le_foldl_pushLabel ls _)
    exact .next (questionEndStep_label hlen hne hle (by omega) hend) hnext

/-- The walker of `local.rs` accepts no compression pointer. -/
theorem plainName_of_questionEndStep {p e : ℕ} (h : NameEnds query p e) {walked stop : ℕ}
    (hwalk : Evaluates (questionEndStep query) (p, walked) (some stop)) : PlainName query p e := by
  induction h generalizing walked with
  | root hz => exact .root hz
  | @pointer p len hlen hp =>
    have hpointer : questionEndStep query (p, walked) = .halt none := by
      simp only [isPointer, beq_iff_eq] at hp
      simp only [questionEndStep, hlen, hp, if_true]
    cases hwalk with
    | halt hs => rw [hpointer] at hs; cases hs
    | next hs _ => rw [hpointer] at hs; cases hs
  | @label p e len hlen hne hle _ ih =>
    have hp : ¬ len &&& 0xC0 = 0xC0 := by simpa [isPointer] using not_isPointer_of_le hle
    refine .label hlen hne hle ?_
    cases hwalk with
    | halt hs =>
      simp only [questionEndStep, hlen, hp, hne, if_false] at hs
      split at hs
      · cases hs
      · split at hs <;> cases hs
    | next hs hrest =>
      simp only [questionEndStep, hlen, hp, hne, if_false] at hs
      split at hs
      · cases hs
      split at hs
      · cases hs
      · cases hs
        exact ih hrest

section Agreement

variable {q : DnsQuestion} {qend : ℕ}
  (hparse : parseQuestionFull query = some (q, qend))
include hparse

/-- On a plain question below the limit of a name the walkers agree. -/
theorem questionEnd_of_plain (hplain : ∃ e, PlainName query 12 e)
    (hlimit : ∀ raw stop, readRaw query 12 = some (raw, stop) → raw.length ≠ maxNameLen) :
    questionEnd query = some qend := by
  obtain ⟨hlen, -, pos, hname, hpos, -, -, -, rfl⟩ := parseQuestionFull_eq_some_iff.mp hparse
  obtain ⟨raw, heval, -⟩ := readName_eq_some_iff.mp hname
  obtain ⟨e, hplain⟩ := hplain
  obtain rfl := hplain.nameEnds.unique (nameEnds_of_readName hname)
  have hne := hlimit raw e (readRaw_eq_iff.mpr heval)
  have hmax : raw.length ≤ maxNameLen := length_raw_le heval (Nat.zero_le _)
  have hwalked : walkedOf raw ≤ maxQuestionName := by
    unfold walkedOf maxQuestionName
    unfold maxNameLen at hne hmax
    split <;> omega
  exact questionEnd_eq_some_iff.mpr ⟨hlen, e, evaluates_questionEndStep hplain heval hwalked,
    hpos, rfl⟩

/-- Where the walker of `local.rs` accepts, the builders write the same bytes. -/
theorem synthAddress_eq (hend : questionEnd query = some qend) {ips : List IpAddr}
    (hne : ips ≠ []) (hcount : ips.length ≤ 65535) (ttl : ℕ) :
    synthAddress query ips ttl = buildAddressResponse query ips ttl := by
  have hfew : ¬ ips.length ≥ 2 ^ 16 := by omega
  have hempty : ¬ ips.isEmpty = true := by simpa using hne
  obtain ⟨hlen, -⟩ := parseQuestionFull_eq_some_iff.mp hparse
  simp only [synthAddress, hempty, hparse, hend, hfew, if_false, buildAddressResponse_eq hparse,
    flatMap_map]
  -- the count is written before the answers or after them
  match query, hlen with
  | a :: b :: rest, _ => rfl

end Agreement

theorem synthAddress_of_not_plain (h : ¬ ∃ e, PlainName query 12 e) (ips : List IpAddr) (ttl : ℕ) :
    synthAddress query ips ttl = none := by
  unfold synthAddress
  split
  · rfl
  split
  · next q' qend hparse hend =>
    exfalso
    obtain ⟨-, -, pos, hname, -⟩ := parseQuestionFull_eq_some_iff.mp hparse
    obtain ⟨-, stop, hwalk, -⟩ := questionEnd_eq_some_iff.mp hend
    exact h ⟨pos, plainName_of_questionEndStep (nameEnds_of_readName hname) hwalk⟩
  · rfl

/-- The pinned addresses of the family that is asked for. -/
def LocalRecord.addresses (record : LocalRecord) (qtype : ℕ) : List IpAddr :=
  if qtype = typeA then record.a.map .v4
  else if qtype = typeAaaa then record.aaaa.map .v6
  else []

theorem localAnswerIfPinned_eq {lookupPinned : Str → Option LocalRecord} {record : LocalRecord}
    {qname : Str} (hpinned : lookupPinned qname = some record) {qtype : ℕ}
    (hne : record.addresses qtype ≠ []) (query : Bytes) :
    localAnswerIfPinned lookupPinned query qname qtype =
      synthAddress query (record.addresses qtype) record.ttl := by
  unfold LocalRecord.addresses at hne ⊢
  rw [localAnswerIfPinned, hpinned]
  dsimp only
  split at hne
  · next htype => rw [if_pos ⟨htype, by simpa using hne⟩, if_pos htype]
  · next htype =>
    rw [if_neg (fun h => htype h.1), if_neg htype]
    split at hne
    · next htype' => rw [if_pos ⟨htype', by simpa using hne⟩, if_pos htype']
    · exact absurd rfl hne

/-- **The two builders of address answers agree** on a question name without compression
pointers that does not fill the limit of a name, so that a name pinned under it is answered
whenever it parses.  A question name with a pointer is refused by the one in `local.rs`. -/
theorem synthAddress_agrees (query : Bytes) :
    ((∃ e, PlainName query 12 e) →
      (∀ raw stop, readRaw query 12 = some (raw, stop) → raw.length ≠ maxNameLen) →
      (∀ ips ttl, ips ≠ [] → ips.length ≤ 65535 →
        synthAddress query ips ttl = buildAddressResponse query ips ttl) ∧
      ∀ q qend, parseQuestionFull query = some (q, qend) → questionEnd query = some qend ∧
        ∀ lookupPinned record, lookupPinned q.qname = some record →
          record.addresses q.qtype ≠ [] → (record.addresses q.qtype).length ≤ 65535 →
          (localAnswerIfPinned lookupPinned query q.qname q.qtype).isSome = true) ∧
    ((¬ ∃ e, PlainName query 12 e) → ∀ ips ttl, synthAddress query ips ttl = none) := by
  refine ⟨fun hplain hlimit => ⟨?_, ?_⟩, synthAddress_of_not_plain⟩
  · intro ips ttl hne hcount
    cases hparse : parseQuestionFull query with
    | none =>
      have hbuild : buildAddressResponse query ips ttl = none := by
        rw [buildAddressResponse, positiveResponseCanvas, responseCanvas, hparse]
        rfl
      rw [hbuild, synthAddress, hparse, ite_self]
    | some r =>
      exact synthAddress_eq hparse (questionEnd_of_plain hparse hplain hlimit) hne hcount ttl
  · intro q qend hparse
    have hend := questionEnd_of_plain hparse hplain hlimit
    refine ⟨hend, fun lookupPinned record hpinned hne hcount => ?_⟩
    rw [localAnswerIfPinned_eq hpinned hne, synthAddress_eq hparse hend hne hcount,
      buildAddressResponse_eq hparse]
    rfl

theorem synthAddress_agrees_plainQuery :
    synthAddress plainQuery [.v4 ⟨192, 0, 2, 1⟩] 60 =
      buildAddressResponse plainQuery [.v4 ⟨192, 0, 2, 1⟩] 60 := by
  have hraw : readRaw plainQuery 12 = some ([0x61], 15) := by decide +kernel
  have hlimit : ∀ raw stop, readRaw plainQuery 12 = some (raw, stop) →
      raw.length ≠ maxNameLen := by
    intro raw stop h
    cases hraw.symm.trans h
    decide
  exact ((synthAddress_agrees plainQuery).1 ⟨15, plainName_plainQuery⟩ hlimit).1 _ _
    (by decide) (by decide)

/-- A query whose question name is a pointer behind the question. -/
def pointerQuery : Bytes :=
  [0x12, 0x34, 0x01, 0, 0, 1, 0, 0, 0, 0, 0, 0, 0xC0, 0x12, 0, 1, 0, 1, 1, 0x61, 0]

/-- A query for a name of four full labels: 255 bytes with the dots between them. -/
def fullQuery : Bytes :=
  [0x12, 0x34, 0x01, 0, 0, 1, 0, 0, 0, 0, 0, 0] ++
    (List.replicate 4 (63 :: List.replicate 63 0x61)).flatten ++ [0, 0, 1, 0, 1]

/-- The question parses, and one builder answers it; the other refuses. -/
def AnsweredByOne (query : Bytes) : Prop :=
  (parseQuestionFull query).isSome = true ∧ questionEnd query = none ∧
    synthAddress query [.v4 ⟨192, 0, 2, 1⟩] 60 = none ∧
    (buildAddressResponse query [.v4 ⟨192, 0, 2, 1⟩] 60).isSome = true

theorem builders_disagree : AnsweredByOne pointerQuery ∧ AnsweredByOne fullQuery := by
  unfold AnsweredByOne
  decide +kernel

end Resolver
end TortaCore
