import TortaCore.Resolver.Datapath

/-!
# DNS64 and the rebind check

The synthesis of AAAA answers stands before the rebind check and returns past it.  Here is
which replies to the A query let a synthesized answer carry a private address under a
NAT64 prefix.
-/

namespace TortaCore
namespace Resolver

open Text Dns Wire Net List Option

variable {hash : Key → ℕ}

/-- The addresses of the A records of a reply. -/
def subReplyV4s (aResponse : Bytes) : List (Ipv4Addr × ℕ) :=
  ipv4sOf aResponse ((answerRecords aResponse).getD [])

/-- The `i`-th call is an AAAA query for a public name that waits for its reply, the rebind
switch is on, a prefix is armed, and the replies to it and to its A query are valid. -/
structure Dns64Call (d : Datapath hash) (i : ℕ) (query : Bytes) (q : DnsQuestion)
    (response aResponse : Bytes) : Prop where
  request : ∃ enforced, d.requests[i]? = some ⟨query, q, enforced, .waiting⟩
  question : ∃ qend, parseQuestionFull query = some (q, qend)
  aaaa : q.qtype = typeAaaa
  publicName : isPrivateOrLocalName q.qname = false
  enforce : d.rebindEnforce = true
  armed : d.prefixes ≠ []
  reply : validateResponse query response = .ok ()
  subReply : validateResponse (buildQuery 0 q.qname typeA) aResponse = .ok ()

/-- With these replies the call returns a message that has the address under a prefix. -/
def Smuggles (d : Datapath hash) (i : ℕ) (response aResponse : Bytes) (v : Ipv4Addr) : Prop :=
  ∃ r answer w recs, (d.receive i (some response) (some aResponse)).2 = some (r, answer) ∧
    answer.wire = some w ∧ LaysOut w recs ∧ ∃ p ∈ d.prefixes, .v6 (p.embed v) ∈ addressesOf recs

/-- The addresses that fit the count of a synthesized reply. -/
def visibleEmbeddings (v4s : List (Ipv4Addr × ℕ)) (prefixes : List Dns64Prefix) :
    List Ipv6Addr :=
  (embeddings v4s prefixes).take (v4s.length * prefixes.length % 65536)

namespace Dns64Call

variable {d : Datapath hash} {i : ℕ} {query : Bytes} {q : DnsQuestion}
  {response aResponse : Bytes} (h : Dns64Call d i query q response aResponse)

include h

/-- What a call with both replies returns is the synthesized reply, or nothing yet. -/
theorem receive_eq {w : Bytes} :
    (∃ r answer, (d.receive i (some response) (some aResponse)).2 = some (r, answer) ∧
      answer.wire = some w) ↔
    needsSynthesis q.qtype response = true ∧
      buildSynthAaaa query aResponse d.prefixes = some w := by
  obtain ⟨enforced, hget⟩ := h.request
  have hsynth : tryDns64Synth d.prefixes query q response (some aResponse) =
      if needsSynthesis q.qtype response then buildSynthAaaa query aResponse d.prefixes
      else none := by
    have harmed : d.prefixes.isEmpty = false := by simpa using h.armed
    cases hneeds : needsSynthesis q.qtype response <;>
      simp [tryDns64Synth, harmed, hneeds, h.subReply]
  simp only [Datapath.receive, Datapath.judge, hget, h.reply, hsynth]
  cases hneeds : needsSynthesis q.qtype response with
  | false =>
    -- the reply itself is judged: it is refused, or goes on to the cache
    by_cases hreject : rebindReject d.rebindEnforce q response = true
    · simp [hreject]
    · simp [hreject]
  | true =>
    cases hbuild : buildSynthAaaa query aResponse d.prefixes with
    | none =>
      by_cases hreject : rebindReject d.rebindEnforce q response = true
      · simp [hreject]
      · simp [hreject]
    | some synth => simp

theorem answerRecords_eq : ∃ answers, answerRecords aResponse = some answers := by
  obtain ⟨-, -, hsome⟩ := validateResponse_eq_ok_iff.mp h.subReply
  obtain ⟨secs, hsecs⟩ := isSome_iff_exists.mp hsome
  exact ⟨secs.answers, by rw [answerRecords, hsecs, map_some]⟩

/-- The addresses that the call returns. -/
theorem smuggles_iff {v : Ipv4Addr × ℕ} (hv : v ∈ subReplyV4s aResponse) :
    Smuggles d i response aResponse v.1 ↔ needsSynthesis q.qtype response = true ∧
      ∃ p ∈ d.prefixes, p.embed v.1 ∈ visibleEmbeddings (subReplyV4s aResponse) d.prefixes := by
  obtain ⟨answers, hanswers⟩ := h.answerRecords_eq
  have hv4s : subReplyV4s aResponse = ipv4sOf aResponse answers := by
    rw [subReplyV4s, hanswers, getD_some]
  have haddresses : ∀ {w recs}, buildSynthAaaa query aResponse d.prefixes = some w →
      LaysOut w recs →
      addressesOf recs = (visibleEmbeddings (subReplyV4s aResponse) d.prefixes).map .v6 := by
    intro w recs hbuild hlays
    obtain ⟨answers', recs', hanswers', hlays', heq⟩ := addressesOf_buildSynthAaaa hbuild
    cases hanswers.symm.trans hanswers'
    obtain rfl := hlays.unique hlays'
    rw [heq, visibleEmbeddings, hv4s]
  constructor
  · rintro ⟨r, answer, w, recs, hreceive, hwire, hlays, p, hp, hmem⟩
    obtain ⟨hneeds, hbuild⟩ := h.receive_eq.mp ⟨r, answer, hreceive, hwire⟩
    rw [haddresses hbuild hlays] at hmem
    obtain ⟨ip, hip, heq⟩ := mem_map.mp hmem
    cases heq
    exact ⟨hneeds, p, hp, hip⟩
  · rintro ⟨hneeds, p, hp, hmem⟩
    obtain ⟨qend, hparse⟩ := h.question
    -- a prefix is armed and there is an address, so the reply is built
    obtain ⟨w, hbuild⟩ : ∃ w, buildSynthAaaa query aResponse d.prefixes = some w := by
      have harmed : d.prefixes.isEmpty = false := by simpa using h.armed
      have hsome : (ipv4sOf aResponse answers).isEmpty = false := by
        rw [hv4s] at hv
        simpa using ne_nil_of_mem hv
      simp [buildSynthAaaa, harmed, hanswers, hsome, buildAddressResponse, positiveResponseCanvas,
        responseCanvas, hparse]
    obtain ⟨r, answer, hreceive, hwire⟩ := h.receive_eq.mpr ⟨hneeds, hbuild⟩
    obtain ⟨answers', recs, -, hlays, -⟩ := addressesOf_buildSynthAaaa hbuild
    refine ⟨r, answer, w, recs, hreceive, hwire, hlays, p, hp, ?_⟩
    rw [haddresses hbuild hlays]
    exact mem_map_of_mem hmem

end Dns64Call

/-- **When DNS64 smuggles no private address**: exactly when nothing is synthesized, or no
private A record of the reply has an embedding among the addresses that fit the count. -/
theorem not_smuggles_iff {d : Datapath hash} {i : ℕ} {query : Bytes} {q : DnsQuestion}
    {response aResponse : Bytes} (h : Dns64Call d i query q response aResponse) :
    (∀ v ∈ subReplyV4s aResponse, isRebind [.v4 v.1] = true →
      ¬ Smuggles d i response aResponse v.1) ↔
    (needsSynthesis q.qtype response = true →
      ∀ v ∈ subReplyV4s aResponse, isRebind [.v4 v.1] = true → ∀ p ∈ d.prefixes,
        p.embed v.1 ∉ visibleEmbeddings (subReplyV4s aResponse) d.prefixes) := by
  constructor
  · intro hsafe hneeds v hv hrebind p hp hmem
    exact hsafe v hv hrebind ((h.smuggles_iff hv).mpr ⟨hneeds, p, hp, hmem⟩)
  · intro hcond v hv hrebind hsmuggles
    obtain ⟨hneeds, p, hp, hmem⟩ := (h.smuggles_iff hv).mp hsmuggles
    exact hcond hneeds v hv hrebind p hp hmem

/-! ### Two replies -/

/-- A query for the IPv6 address of `a.b`. -/
def aaaaQuery : Bytes := [0, 7, 1, 0, 0, 1, 0, 0, 0, 0, 0, 0, 1, 97, 1, 98, 0, 0, 28, 0, 1]

/-- The reply to it that has no address. -/
def aaaaNodata : Bytes := [0, 7, 129, 128, 0, 1, 0, 0, 0, 0, 0, 0, 1, 97, 1, 98, 0, 0, 28, 0, 1]

/-- The reply to the A query. -/
def aReplyOf (v : Ipv4Addr) : Bytes :=
  [0, 0, 129, 128, 0, 1, 0, 1, 0, 0, 0, 0, 1, 97, 1, 98, 0, 0, 1, 0, 1,
    192, 12, 0, 1, 0, 1, 0, 0, 0, 30, 0, 4] ++ v.octets

/-- The call waits for its reply, with the well-known prefix armed and the switch on. -/
def dns64Scene : Datapath fun k => k.qname.length :=
  { Datapath.init _ with
    rebindEnforce := true
    prefixes := setPrefixes "64:ff9b:0:0:0:0:0:0/96".toList
    requests := [⟨aaaaQuery, ⟨7, ['a', '.', 'b'], typeAaaa, 1⟩, true, .waiting⟩] }

theorem dns64Call_scene {v : Ipv4Addr}
    (h : validateResponse (buildQuery 0 ['a', '.', 'b'] typeA) (aReplyOf v) = .ok ()) :
    Dns64Call dns64Scene 0 aaaaQuery ⟨7, ['a', '.', 'b'], typeAaaa, 1⟩ aaaaNodata
      (aReplyOf v) where
  request := ⟨true, rfl⟩
  question := ⟨21, by decide +kernel⟩
  aaaa := rfl
  publicName := by decide +kernel
  enforce := rfl
  armed := by
    have hone : dns64Scene.prefixes.length = 1 := by decide +kernel
    exact ne_nil_of_length_pos (by omega)
  reply := by decide +kernel
  subReply := h

/-- With a public A record an answer is synthesized, and nothing private is returned. -/
theorem not_smuggles_public :
    Dns64Call dns64Scene 0 aaaaQuery ⟨7, ['a', '.', 'b'], typeAaaa, 1⟩ aaaaNodata
      (aReplyOf ⟨8, 8, 8, 8⟩) ∧
    needsSynthesis typeAaaa aaaaNodata = true ∧
    ∀ v ∈ subReplyV4s (aReplyOf ⟨8, 8, 8, 8⟩), isRebind [.v4 v.1] = true →
      ¬ Smuggles dns64Scene 0 aaaaNodata (aReplyOf ⟨8, 8, 8, 8⟩) v.1 := by
  have hcall := dns64Call_scene (v := ⟨8, 8, 8, 8⟩) (by decide +kernel)
  refine ⟨hcall, by decide +kernel, (not_smuggles_iff hcall).mpr fun _ v hv hrebind => ?_⟩
  have hv4s : subReplyV4s (aReplyOf ⟨8, 8, 8, 8⟩) = [(⟨8, 8, 8, 8⟩, 30)] := by decide +kernel
  obtain rfl := mem_singleton.mp hv
  exact absurd hrebind (by decide)

/-- With the A record 192.168.1.1 the call returns `64:ff9b::192.168.1.1`. -/
theorem smuggles_private :
    Dns64Call dns64Scene 0 aaaaQuery ⟨7, ['a', '.', 'b'], typeAaaa, 1⟩ aaaaNodata
      (aReplyOf ⟨192, 168, 1, 1⟩) ∧
    (⟨192, 168, 1, 1⟩, 30) ∈ subReplyV4s (aReplyOf ⟨192, 168, 1, 1⟩) ∧
    isRebind [.v4 ⟨192, 168, 1, 1⟩] = true ∧
    Smuggles dns64Scene 0 aaaaNodata (aReplyOf ⟨192, 168, 1, 1⟩) ⟨192, 168, 1, 1⟩ ∧
    (dns64Scene.receive 0 (some aaaaNodata) (some (aReplyOf ⟨192, 168, 1, 1⟩))).2.map
        (fun r => r.2.wire.map extractAnswerIps) =
      some (some [.v6 ⟨[0, 0x64, 0xFF, 0x9B, 0, 0, 0, 0, 0, 0, 0, 0, 192, 168, 1, 1], rfl⟩]) := by
  have hcall := dns64Call_scene (v := ⟨192, 168, 1, 1⟩) (by decide +kernel)
  have hv : (⟨192, 168, 1, 1⟩, 30) ∈ subReplyV4s (aReplyOf ⟨192, 168, 1, 1⟩) := by
    decide +kernel
  refine ⟨hcall, hv, by decide, (hcall.smuggles_iff hv).mpr ⟨by decide +kernel, ?_⟩,
    by decide +kernel⟩
  obtain ⟨p, hp⟩ := exists_mem_of_ne_nil _ hcall.armed
  have hall : ∀ p ∈ dns64Scene.prefixes, p.embed ⟨192, 168, 1, 1⟩ ∈
      visibleEmbeddings (subReplyV4s (aReplyOf ⟨192, 168, 1, 1⟩)) dns64Scene.prefixes := by
    decide +kernel
  exact ⟨p, hp, hall p hp⟩

end Resolver
end TortaCore
