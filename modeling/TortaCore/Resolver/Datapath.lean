import TortaCore.Resolver.Dns64Reply
import TortaCore.Resolver.Local
import TortaCore.Resolver.Snapshot

/-!
# The resolve datapath

A call of `resolve` passes the local gates, looks into the cache, asks an upstream, judges
the reply and puts it into the cache.  The lock on the cache is not held across the round
trip, nor between the judgement and the insertion, and the switches are plain atomics: so
calls overlap with each other and with the control plane.  `resolve_inner` is modelled as
the three parts between which others may run, and the whole as a machine of events.

## Main definitions

* `Datapath.call`, `Datapath.receive`, `Datapath.insert`: the three parts of a call.
* `Event`, `Datapath.step`: the machine.
-/

namespace TortaCore
namespace Resolver

open Text Dns Store Wire Net Machine

/-! ### Answers before the cache -/

inductive BlockAction where
  | nxDomain
  | zeroSink
  | customIp (ip : IpAddr)

inductive DenyGate where
  | blocklist
  | warden
  | underground
  | homograph
  | dohBypass
  deriving DecidableEq

inductive ResolveOutcome where
  | cacheHit
  | serveStale
  | solved
  | solvedNegative
  | localAnswer
  | blocked (gate : DenyGate)
  | guarded
  | rebindReject
  | rejected
  | miss
  deriving DecidableEq

/-- What a call returns, and how it is classified. -/
structure Answer where
  outcome : ResolveOutcome
  wire : Option Bytes
  deriving DecidableEq

def literalRouteTtl : ℕ := 0

/-- The address is of the family the question asks for. -/
def familyMatch (qtype : ℕ) : IpAddr → Bool
  | .v4 _ => qtype == typeA
  | .v6 _ => qtype == typeAaaa

def synthesizeBlockReply (query : Bytes) (q : DnsQuestion) : BlockAction → Option Bytes
  | .nxDomain => buildNxdomainResponse query
  | .zeroSink =>
    if q.qtype = typeA then buildSinkholeResponse query (.v4 ⟨0, 0, 0, 0⟩)
    else if q.qtype = typeAaaa then
      buildSinkholeResponse query (.v6 ⟨List.replicate 16 0, List.length_replicate⟩)
    else buildNxdomainResponse query
  | .customIp ip =>
    if familyMatch q.qtype ip then buildAddressResponse query [ip] literalRouteTtl
    else buildNxdomainResponse query

/-- What the other parts of the program say about a question at the moment of a call. -/
structure Verdicts where
  queryAction : Option BlockAction
  dohDenied : Bool
  wardenDenied : Bool
  undergroundDrained : Bool
  homographRejected : Bool
  pinned : Option LocalRecord
  cloaked : Bool
  bogusPriv : Bool
  neverForward : Bool
  v6PresumedDead : Bool

/-- Nothing is said about the question. -/
def Verdicts.pass : Verdicts where
  queryAction := none
  dohDenied := false
  wardenDenied := false
  undergroundDrained := false
  homographRejected := false
  pinned := none
  cloaked := false
  bogusPriv := false
  neverForward := false
  v6PresumedDead := false

/-- The denial of a gate that has been closed. -/
def denied (query : Bytes) (q : DnsQuestion) (gate : DenyGate) (closed : Bool) : Option Answer :=
  if closed then some ⟨.blocked gate, synthesizeBlockReply query q .nxDomain⟩ else none

/-- Steps 1 to 1.5d of `resolve_inner`: the first gate that has an answer gives it. -/
def gates (v : Verdicts) (query : Bytes) (q : DnsQuestion) : Option Answer :=
  (v.queryAction.map fun action => ⟨.blocked .blocklist, synthesizeBlockReply query q action⟩).or <|
  (denied query q .dohBypass v.dohDenied).or <|
  (denied query q .warden v.wardenDenied).or <|
  (denied query q .underground v.undergroundDrained).or <|
  (denied query q .homograph v.homographRejected).or <|
  ((localAnswerIfPinned (fun _ => v.pinned) query q.qname q.qtype).map
    fun resp => ⟨.localAnswer, some resp⟩).or <|
  ((if v.cloaked then synthLoopbackAnswer query q.qtype else none).map
    fun resp => ⟨.localAnswer, some resp⟩).or <|
  (if v.bogusPriv then some ⟨.guarded, buildNxdomainResponse query⟩ else none).or <|
  ((if v.neverForward then buildNxdomainResponse query else none).map
    fun resp => ⟨.guarded, some resp⟩).or <|
  (if q.qtype = typeAaaa ∧ v.v6PresumedDead = true then synthNodata query else none).map
    fun resp => ⟨.solvedNegative, some resp⟩

/-! ### The wire of a cache hit -/

/-- One turn of the loop of `question_byte_len`. -/
def questionStep (wire : Bytes) (pos : ℕ) : Turn ℕ (Option ℕ) :=
  match wire[pos]? with
  | none => .halt none
  | some len =>
    if len = 0 then .halt (some (pos + 1))
    else if len &&& 0xC0 ≠ 0 then .halt none
    else if pos + 1 + len.toNat > wire.length then .halt none
    else .next (pos + 1 + len.toNat)

/-- `question_byte_len`: how many bytes the question takes, when its name has no pointer. -/
def questionByteLen (wire : Bytes) : Option ℕ :=
  if wire.length < 12 then none
  else
    match (loop (questionStep wire) (wire.length + 1) 12).join with
    | none => none
    | some pos => if pos + 4 > wire.length then none else some (pos + 4 - 12)

theorem questionStep_eq_next {wire : Bytes} {pos next : ℕ}
    (h : questionStep wire pos = .next next) : ∃ len, wire[pos]? = some len ∧ len ≠ 0 ∧
      len &&& 0xC0 = 0 ∧ next = pos + 1 + len.toNat ∧ next ≤ wire.length := by
  unfold questionStep at h
  grind

/-- The walk moves on by a byte at least, so the length of the message is budget enough. -/
theorem join_loop_questionStep_iff {wire : Bytes} {pos : ℕ} {r : Option ℕ} :
    (loop (questionStep wire) (wire.length + 1) pos).join = r ↔
      Evaluates (questionStep wire) pos r := by
  refine join_loop_eq_iff (fun p => wire.length - p) (fun p p' h => ?_) (by omega)
  obtain ⟨len, -, -, -, rfl, hle⟩ := questionStep_eq_next h
  show wire.length - (p + 1 + len.toNat) < wire.length - p
  omega

/-- `cached[0] = query_wire[0]` and the next byte. -/
def rewriteId (query cached : Bytes) : Bytes :=
  if 2 ≤ cached.length then query.take 2 ++ cached.drop 2 else cached

/-- `cached[12..12 + len].copy_from_slice(&query_wire[12..12 + len])`. -/
def overwriteQuestion (query cached : Bytes) (len : ℕ) : Bytes :=
  cached.take 12 ++ (bytesAt query 12 len ++ cached.drop (12 + len))

/-- A cached message under the ID and, when both questions have one length, the question
bytes of the query. -/
def serveHit (query cached : Bytes) : Bytes :=
  let cached := rewriteId query cached
  match questionByteLen query, questionByteLen cached with
  | some qlen, some clen =>
    if qlen = clen ∧ 12 + qlen ≤ query.length ∧ 12 + qlen ≤ cached.length then
      overwriteQuestion query cached qlen
    else cached
  | _, _ => cached

/-! ### Judging a reply -/

structure FilterRrState where
  dropTypes : List ℕ
  anyDefang : Bool

def FilterRrState.isEmpty (f : FilterRrState) : Bool := f.dropTypes.isEmpty && !f.anyDefang

def qtypeAny : ℕ := 255

/-- A filter that cannot walk the reply leaves it as it is. -/
def applyFilterRr (f : FilterRrState) (q : DnsQuestion) (response : Bytes) : Bytes :=
  if f.isEmpty then response
  else
    match filterRr response f.dropTypes f.anyDefang (q.qtype == qtypeAny) with
    | some filtered => if filtered.length ≥ 8 then filtered else response
    | none => response

def applyProxyDnssec (proxyDnssec : Bool) (response : Bytes) : Bytes :=
  if proxyDnssec then response else Cache.stripAdBit response

/-- `rebind_reject`: a non-public address for a public name, and the switch is on. -/
def rebindReject (enforce : Bool) (q : DnsQuestion) (response : Bytes) : Bool :=
  if isPrivateOrLocalName q.qname then false
  else if !isRebind (extractAnswerIps response) then false
  else enforce

def buildQuery (id : ℕ) (qname : Str) (qtype : ℕ) : Bytes :=
  beBytes 2 id ++ (beBytes 2 0x0100 ++ (beBytes 2 1 ++ ([0, 0, 0, 0, 0, 0] ++
    (encodeName qname ++ (beBytes 2 qtype ++ beBytes 2 1)))))

/-- `try_dns64_synth`, with the reply to its own A query. -/
def tryDns64Synth (prefixes : List Dns64Prefix) (query : Bytes) (q : DnsQuestion)
    (aaaaResponse : Bytes) (aReply : Option Bytes) : Option Bytes :=
  if prefixes.isEmpty then none
  else if !needsSynthesis q.qtype aaaaResponse then none
  else
    match aReply with
    | none => none
    | some a =>
      match validateResponse (buildQuery 0 q.qname typeA) a with
      | .error _ => none
      | .ok () => buildSynthAaaa query a prefixes

def isCacheablePositive (response : Bytes) : Bool :=
  response.length ≥ 12 && maskAt response 3 0x0F == 0 && u16At response 6 > 0

def isCacheableNegative (response : Bytes) : Bool :=
  response.length ≥ 12 && (maskAt response 3 0x0F == 3 ||
    (maskAt response 3 0x0F == 0 && u16At response 6 == 0))

def isNxdomainWire (response : Bytes) : Bool :=
  response.length ≥ 12 && maskAt response 3 0x0F == 3

def defaultNegTtlSecs : ℕ := 30

/-- The closure that `rehydrate_cache` hands to the restore. -/
def rebindAdmits (enforce : Bool) (wire : Bytes) : Bool :=
  if !enforce then true
  else if !isRebind (extractAnswerIps wire) then true
  else
    match parseQuestionFull wire with
    | some (q, _) => isPrivateOrLocalName q.qname
    | none => false

/-! ### The shared state -/

inductive RouteTarget where
  | literal (ip : IpAddr)
  | upstream (id : Str)

/-- What `configure` builds; the upstreams themselves are the environment. -/
structure Inner (hash : Key → ℕ) where
  cache : Cache hash
  router : Str → Option RouteTarget

/-- How far a call has come that needs an upstream. -/
inductive Phase where
  /-- It waits for the reply. -/
  | waiting
  /-- The reply has been judged, under this setting of the rebind switch. -/
  | judged (response : Bytes) (enforced : Bool)

/-- A call under way.  `enforced` says that the rebind switch has been on since it began. -/
structure Request where
  query : Bytes
  question : DnsQuestion
  enforced : Bool
  phase : Phase

/-- The process-wide switches, the resolver, and the calls under way.  `arming` counts the
calls of `set_rebind_enforce` that have set the switch and not yet cleared the cache. -/
structure Datapath (hash : Key → ℕ) where
  rebindEnforce : Bool
  proxyDnssec : Bool
  cacheRr : Bool
  filterRr : FilterRrState
  prefixes : List Dns64Prefix
  inner : Option (Inner hash)
  arming : ℕ
  requests : List Request

/-- The program before it is configured. -/
def Datapath.init (hash : Key → ℕ) : Datapath hash where
  rebindEnforce := false
  proxyDnssec := false
  cacheRr := true
  filterRr := ⟨[], false⟩
  prefixes := []
  inner := none
  arming := 0
  requests := []

namespace Datapath

variable {hash : Key → ℕ}

def mapCache (d : Datapath hash) (f : Cache hash → Cache hash) : Datapath hash :=
  { d with inner := d.inner.map fun inner => { inner with cache := f inner.cache } }

/-! ### The parts of a call -/

/-- The answer of a literal route. -/
def literalAnswer (route : Option RouteTarget) (query : Bytes) (q : DnsQuestion) :
    Option Answer :=
  match route with
  | some (.literal ip) =>
    if familyMatch q.qtype ip then
      (buildAddressResponse query [ip] literalRouteTtl).map fun resp => ⟨.localAnswer, some resp⟩
    else none
  | _ => none

/-- Steps 1.6 to 1.6b: the cache, then a literal route. -/
def lookup (d : Datapath hash) (query : Bytes) (q : DnsQuestion) (now : ℤ) (liveEpoch : ℕ) :
    Datapath hash × Option Answer :=
  match d.inner with
  | none => (d, some ⟨.miss, none⟩)
  | some inner =>
    let hit := inner.cache.getHitAt q now liveEpoch
    let d := { d with inner := some { inner with cache := hit.2 } }
    match hit.1 with
    | some h =>
      let outcome := if h.freshness = .stale then .serveStale else .cacheHit
      (d, some ⟨outcome, some (serveHit query h.wire)⟩)
    | none => (d, literalAnswer (inner.router q.qname) query q)

/-- Steps 3 and 4 up to the cache: what is made of the reply and, for DNS64, of the reply to
the A query. -/
def judge (d : Datapath hash) (query : Bytes) (q : DnsQuestion) (reply aReply : Option Bytes) :
    Answer ⊕ Bytes :=
  match reply with
  | none => .inl ⟨.miss, none⟩
  | some response =>
    match validateResponse query response with
    | .error _ => .inl ⟨.rejected, none⟩
    | .ok () =>
      match tryDns64Synth d.prefixes query q response aReply with
      | some synth => .inl ⟨.solved, some synth⟩
      | none =>
        if rebindReject d.rebindEnforce q response then .inl ⟨.rebindReject, none⟩
        else .inr (applyFilterRr d.filterRr q response)

/-- What a judged reply does to the cache. -/
def cacheReply (cacheRr : Bool) (q : DnsQuestion) (response : Bytes) (now : ℤ) (epoch : ℕ)
    (c : Cache hash) : Cache hash :=
  if isCacheablePositive response then c.put cacheRr q response now epoch
  else if isCacheableNegative response then
    c.putNegativeFromResponse q response defaultNegTtlSecs now epoch
  else c

/-- The answer that a judged reply gives. -/
def solved (proxyDnssec : Bool) (response : Bytes) : Answer :=
  let response := applyProxyDnssec proxyDnssec response
  ⟨if isNxdomainWire response then .solvedNegative else .solved, some response⟩

end Datapath

/-! ### The machine -/

/-- The settings of the cache that can be changed while it is in use. -/
inductive CacheSetting where
  | serveStale (secs : ℕ)
  | ttlFloor (secs : ℕ)
  | ttlCeiling (secs : ℕ)
  | cap (n : ℕ)
  | honorZeroTtl (on : Bool)
  | cacheableTypes (types : List ℕ)

def CacheSetting.apply {hash : Key → ℕ} (c : Cache hash) : CacheSetting → Cache hash
  | .serveStale secs => c.setStaleModeSecs secs
  | .ttlFloor secs => c.setTtlFloor secs
  | .ttlCeiling secs => c.setTtlCeiling secs
  | .cap n => c.setCap (max n 1)
  | .honorZeroTtl on => c.setHonorZeroTtl on
  | .cacheableTypes types =>
    if types.isEmpty then c.setCacheableAll else c.setCacheableTypes types

/-- What can happen next.  Clocks, epochs, verdicts, replies and stored payloads come from
outside. -/
inductive Event where
  /-- A query arrives, passes the gates and looks into the cache. -/
  | call (verdicts : Verdicts) (query : Bytes) (now : ℤ) (liveEpoch : ℕ)
  /-- The reply to the `i`-th call arrives, or does not in time. -/
  | receive (i : ℕ) (reply aReply : Option Bytes)
  /-- The reply to the `i`-th call is put into the cache and returned. -/
  | insert (i : ℕ) (now : ℤ) (epoch : ℕ)
  /-- The first half of `set_rebind_enforce`. -/
  | swapRebindEnforce (on : Bool)
  /-- The second half, after the switch went from off to on. -/
  | clearAfterArming
  | setDns64Prefixes (csv : Str)
  | setFilterRr (dropTypes : List ℕ) (anyDefang : Bool)
  | setProxyDnssec (on : Bool)
  | setCacheRr (on : Bool)
  | setCache (setting : CacheSetting)
  /-- A new resolver, with an empty cache of these settings. -/
  | configure (cap ttlFloor ttlCeiling serveStale : ℕ) (types : List ℕ) (honorZeroTtl : Bool)
      (router : Str → Option RouteTarget)
  | shutdown
  /-- `rehydrate_cache`; a panic leaves the frames before it in the cache. -/
  | rehydrate (payload : Bytes) (now : ℤ) (nowUnix : ℕ)

namespace Datapath

variable {hash : Key → ℕ}

/-- A call up to its round trip. -/
def call (d : Datapath hash) (v : Verdicts) (query : Bytes) (now : ℤ) (liveEpoch : ℕ) :
    Datapath hash × Option (Request × Answer) :=
  match parseQuestionFull query with
  | none => (d, none)
  | some (q, _) =>
    let r : Request := ⟨query, q, d.rebindEnforce, .waiting⟩
    match gates v query q with
    | some answer => (d, some (r, answer))
    | none =>
      match d.lookup query q now liveEpoch with
      | (d, some answer) => (d, some (r, answer))
      | (d, none) => ({ d with requests := d.requests ++ [r] }, none)

/-- The `i`-th call gets its reply. -/
def receive (d : Datapath hash) (i : ℕ) (reply aReply : Option Bytes) :
    Datapath hash × Option (Request × Answer) :=
  match d.requests[i]? with
  | some ⟨query, q, enforced, .waiting⟩ =>
    match d.judge query q reply aReply with
    | .inl answer =>
      ({ d with requests := d.requests.eraseIdx i },
        some (⟨query, q, enforced, .waiting⟩, answer))
    | .inr response =>
      let r : Request := ⟨query, q, enforced, .judged response d.rebindEnforce⟩
      ({ d with requests := d.requests.set i r }, none)
  | _ => (d, none)

/-- The `i`-th call puts its reply into the cache and returns it. -/
def insert (d : Datapath hash) (i : ℕ) (now : ℤ) (epoch : ℕ) :
    Datapath hash × Option (Request × Answer) :=
  match d.requests[i]? with
  | some ⟨query, q, enforced, .judged response on⟩ =>
    ({ d.mapCache (cacheReply d.cacheRr q response now epoch) with
        requests := d.requests.eraseIdx i },
      some (⟨query, q, enforced, .judged response on⟩, solved d.proxyDnssec response))
  | _ => (d, none)

/-- The switch is set; turned off, it is no longer on for the calls under way. -/
def swapRebindEnforce (d : Datapath hash) (on : Bool) : Datapath hash :=
  { d with
    rebindEnforce := on
    arming := if on && !d.rebindEnforce then d.arming + 1 else d.arming
    requests := d.requests.map fun r => { r with enforced := r.enforced && on } }

def clearAfterArming (d : Datapath hash) : Datapath hash :=
  if d.arming = 0 then d else { d.mapCache Cache.clear with arming := d.arming - 1 }

/-- The cache that `configure` seeds from the settings on record. -/
def seededCache (hash : Key → ℕ) (cap ttlFloor ttlCeiling serveStale : ℕ) (types : List ℕ)
    (honorZeroTtl : Bool) : Cache hash :=
  let cache := Cache.withPolicy hash cap ttlFloor ttlCeiling 0 serveStale
  (if types.isEmpty then cache else cache.setCacheableTypes types).setHonorZeroTtl honorZeroTtl

/-- One event, and the answer that a call returns with it. -/
def step (d : Datapath hash) : Event → Datapath hash × Option (Request × Answer)
  | .call v query now liveEpoch => d.call v query now liveEpoch
  | .receive i reply aReply => d.receive i reply aReply
  | .insert i now epoch => d.insert i now epoch
  | .swapRebindEnforce on => (d.swapRebindEnforce on, none)
  | .clearAfterArming => (d.clearAfterArming, none)
  | .setDns64Prefixes csv => ({ d with prefixes := setPrefixes csv }, none)
  | .setFilterRr dropTypes anyDefang => ({ d with filterRr := ⟨dropTypes, anyDefang⟩ }, none)
  | .setProxyDnssec on => ({ d with proxyDnssec := on }, none)
  | .setCacheRr on => ({ d with cacheRr := on }, none)
  | .setCache setting => (d.mapCache (CacheSetting.apply · setting), none)
  | .configure cap ttlFloor ttlCeiling serveStale types honorZeroTtl router =>
    let cache := seededCache hash cap ttlFloor ttlCeiling serveStale types honorZeroTtl
    ({ d with inner := some ⟨cache, router⟩ }, none)
  | .shutdown => ({ d with inner := none }, none)
  | .rehydrate payload now nowUnix =>
    (d.mapCache (Cache.restoreUpTo now nowUnix (rebindAdmits d.rebindEnforce)
      (records payload)), none)

/-- The state after a list of events, and the answers given on the way. -/
def run (d : Datapath hash) : List Event → Datapath hash × List (Request × Answer)
  | [] => (d, [])
  | e :: es =>
    let (d, answer) := d.step e
    let (d, answers) := d.run es
    (d, answer.toList ++ answers)

end Datapath

end Resolver
end TortaCore
