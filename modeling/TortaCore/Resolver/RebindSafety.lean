import TortaCore.Resolver.Datapath

/-!
# Rebind protection

With the rebind switch on, an answer for a public name should hold no private address,
however calls, replies and flips of the switch interleave.  Every way an answer can take
has its guard: replies are judged, the cache is cleared when the switch is turned on, and
frames read from disk pass a gate.  The guards leave four gaps.  A DNS64 reply is returned
before it is judged; a reply that was judged with the switch off can reach the cache after
the clear; between the swap of the switch and the clear the old cache is still served; and
the gate on frames admits a message it cannot walk, or judges it by the name inside.

## Main definitions

* `Datapath.Safe`, `Datapath.SafeRun`: the steps that do not fall into a gap, and the runs
  of such steps.
* `Datapath.Inv`: what holds along these runs.
-/

namespace TortaCore
namespace Resolver

open Text Dns Store Wire Net Machine List Option

/-! ### Rewrites keep messages clean -/

variable {w : Bytes} {query cached : Bytes}

theorem clean_stripAdBit (h : Clean w) : Clean (Cache.stripAdBit w) := by
  unfold Cache.stripAdBit
  split
  · have hdrop : ∀ q, 3 < q → (w.modify 3 (· &&& ~~~adBitMask)).drop q = w.drop q := by
      intro q hq
      apply ext_getElem?
      intro i
      have hne : ¬ 3 = q + i := by omega
      simp [hne]
    exact h.of_body (hdrop 12 (by omega)) (u16At_of_drop_eq (hdrop 6 (by omega)) (Nat.le_refl _))
  · exact h

theorem clean_applyProxyDnssec {on : Bool} (h : Clean w) :
    Clean (applyProxyDnssec on w) := by
  unfold applyProxyDnssec
  split
  · exact h
  · exact clean_stripAdBit h

theorem clean_applyFilterRr {f : FilterRrState} {q : DnsQuestion} (h : Clean w) :
    Clean (applyFilterRr f q w) := by
  fun_cases applyFilterRr with
  | case2 _ filtered hfilter => exact h.filterRr hfilter
  | _ => exact h

theorem le_of_mask_zero {len : UInt8} (h : len &&& 0xC0 = 0) : len.toNat ≤ maxLabelLen := by
  have hall : ∀ n < 256, UInt8.ofNat n &&& 0xC0 = 0 → n ≤ maxLabelLen := by
    decide +kernel
  exact hall len.toNat (UInt8.toNat_lt len) (by rwa [UInt8.ofNat_toNat])

theorem nameEnds_of_questionStep {pos e : ℕ}
    (h : Evaluates (questionStep w) pos (some e)) : NameEnds w pos e := by
  generalize hr : some e = r at h
  induction h with
  | halt hs =>
    subst hr
    unfold questionStep at hs
    grind [NameEnds.root]
  | next hs _ ih =>
    obtain ⟨len, hlen, hz, hplain, rfl, -⟩ := questionStep_eq_next hs
    exact .label hlen hz (le_of_mask_zero hplain) (ih hr)

theorem nameEnds_of_questionByteLen {len : ℕ} (h : questionByteLen w = some len) :
    ∃ e, NameEnds w 12 e ∧ 12 + len = e + 4 := by
  revert h
  fun_cases questionByteLen with
  | case4 _ pos hloop =>
    rintro ⟨⟩
    have hends := nameEnds_of_questionStep (join_loop_questionStep_iff.mp hloop)
    have hlt := hends.lt
    exact ⟨pos, hends, by omega⟩
  | _ => exact fun h => by cases h

theorem clean_rewriteId (hquery : 2 ≤ query.length) (h : Clean cached) :
    Clean (rewriteId query cached) := by
  unfold rewriteId
  split
  · have htwo : (query.take 2).length = 2 := length_take_of_le hquery
    have hdrop : ∀ q, 2 ≤ q → (query.take 2 ++ cached.drop 2).drop q = cached.drop q := by
      intro q hq
      rw [← Nat.add_sub_cancel' hq, ← drop_drop, drop_left' htwo, drop_drop]
    exact h.of_body (hdrop 12 (by omega)) (u16At_of_drop_eq (hdrop 6 (by omega)) (Nat.le_refl _))
  · exact h

/-- The question bytes of the query leave the layout as it was. -/
theorem clean_overwriteQuestion {len : ℕ} (h : Clean cached)
    (hquery : questionByteLen query = some len) (hcached : questionByteLen cached = some len)
    (hqlen : 12 + len ≤ query.length) (hclen : 12 + len ≤ cached.length) :
    Clean (overwriteQuestion query cached len) := by
  obtain ⟨e, hname, he⟩ := nameEnds_of_questionByteLen hcached
  obtain ⟨e', hname', he'⟩ := nameEnds_of_questionByteLen hquery
  obtain rfl : e = e' := by omega
  have htwelve : (cached.take 12).length = 12 := length_take_of_le (by omega)
  have hbytes : (bytesAt query 12 len).length = len := length_bytesAt hqlen
  refine h.of_question hname (hname'.congr fun i hi hi' => ?_) ?_ ?_
  · rw [overwriteQuestion, getElem?_append_right (by omega), htwelve,
      getElem?_append_left (by omega), getElem?_bytesAt, if_pos (by omega), Nat.add_sub_cancel' hi]
  · rw [overwriteQuestion, ← append_assoc, ← he,
      drop_left' (by rw [length_append, htwelve, hbytes])]
  · rw [u16At, u16At, overwriteQuestion, bytesAt, bytesAt, drop_append_of_le_length (by omega),
      take_append_of_le_length (by rw [length_drop]; omega), drop_take, take_take]
    rfl

theorem clean_serveHit (hquery : 2 ≤ query.length) (h : Clean cached) :
    Clean (serveHit query cached) := by
  have hid := clean_rewriteId hquery h
  unfold serveHit
  dsimp only
  split
  · next qlen clen hq hc =>
    split
    · next hcond =>
      obtain ⟨rfl, hqlen, hclen⟩ := hcond
      exact clean_overwriteQuestion hid hq hc hqlen hclen
    · exact hid
  · exact hid

/-! ### Answers before the cache -/

/-- The answers that the user asked for: a block, a pin, a cloak or a literal route. -/
def Answer.ByPolicy (answer : Answer) : Prop :=
  (∃ gate, answer.outcome = .blocked gate) ∨ answer.outcome = .localAnswer

/-- Given by policy, or clean. -/
def Answer.Harmless (answer : Answer) : Prop :=
  answer.ByPolicy ∨ ∀ w, answer.wire = some w → Clean w

theorem forall_or {α : Type} {P : α → Prop} {a b : Option α} (ha : ∀ x, a = some x → P x)
    (hb : ∀ x, b = some x → P x) : ∀ x, a.or b = some x → P x := by
  intro x hx
  rcases or_eq_some_iff.mp hx with h | ⟨-, h⟩
  · exact ha x h
  · exact hb x h

theorem clean_canvas {rcode : UInt8} {query w : Bytes} (h : responseCanvas rcode query = some w) :
    Clean w := by
  obtain ⟨-, -, -, hcount, -⟩ := responseCanvas_spec h
  exact clean_of_count hcount

theorem harmless_denied {query : Bytes} {q : DnsQuestion} {gate : DenyGate} {closed : Bool} :
    ∀ answer, denied query q gate closed = some answer → answer.Harmless := by
  intro answer h
  unfold denied at h
  split at h
  · cases h
    exact .inl (.inl ⟨gate, rfl⟩)
  · cases h

/-- **What is answered before the cache is answered by policy, or has no answers.** -/
theorem harmless_gates (v : Verdicts) (query : Bytes) (q : DnsQuestion) :
    ∀ answer, gates v query q = some answer → answer.Harmless := by
  refine forall_or ?_ <| forall_or harmless_denied <| forall_or harmless_denied <|
    forall_or harmless_denied <| forall_or harmless_denied <| forall_or ?_ <| forall_or ?_ <|
    forall_or ?_ <| forall_or ?_ ?_
  · intro answer h
    obtain ⟨action, -, rfl⟩ := map_eq_some_iff.mp h
    exact .inl (.inl ⟨.blocklist, rfl⟩)
  · intro answer h
    obtain ⟨resp, -, rfl⟩ := map_eq_some_iff.mp h
    exact .inl (.inr rfl)
  · intro answer h
    obtain ⟨resp, -, rfl⟩ := map_eq_some_iff.mp h
    exact .inl (.inr rfl)
  · intro answer h
    split at h
    · cases h
      exact .inr fun w hw => clean_canvas hw
    · cases h
  · intro answer h
    obtain ⟨resp, hresp, rfl⟩ := map_eq_some_iff.mp h
    split at hresp
    · refine .inr fun w hw => ?_
      cases hw
      exact clean_canvas hresp
    · cases hresp
  · intro answer h
    obtain ⟨resp, hresp, rfl⟩ := map_eq_some_iff.mp h
    split at hresp
    · refine .inr fun w hw => ?_
      cases hw
      exact clean_of_count (ancount_synthNodata hresp)
    · cases hresp

/-! ### Clean caches -/

section Cache

variable {hash : Key → ℕ}

/-- The cached answers for public names are clean. -/
def CleanCache (c : Cache hash) : Prop :=
  ∀ s ∈ c.entries, isPrivateOrLocalName s.key.qname = false → Clean s.entry.wire

theorem CleanCache.of_subset {c c' : Cache hash} (h : CleanCache c)
    (hsub : ∀ s ∈ c'.entries, s ∈ c.entries) : CleanCache c' :=
  fun s hs => h s (hsub s hs)

variable {c : Cache hash}

theorem CleanCache.setCacheableTypes (h : CleanCache c) (types : List ℕ) :
    CleanCache (c.setCacheableTypes types) := by
  fun_cases Cache.setCacheableTypes with
  | _ => exact h

theorem CleanCache.apply (h : CleanCache c) (setting : CacheSetting) :
    CleanCache (CacheSetting.apply c setting) := by
  cases setting with
  | serveStale secs => exact h
  | ttlFloor secs => exact h
  | ttlCeiling secs => exact h
  | honorZeroTtl on => exact h
  | cap n =>
    refine h.of_subset fun s hs => ?_
    obtain ⟨row, hrow, rfl⟩ := mem_map.mp hs
    exact mem_map_of_mem ((Lru.sublist_order_evictTo _ _ _).subset hrow)
  | cacheableTypes types =>
    unfold CacheSetting.apply
    dsimp only
    split
    · exact h
    · exact h.setCacheableTypes types

theorem cleanCache_clear (c : Cache hash) : CleanCache c.clear := by
  intro s hs
  cases hs

theorem cleanCache_seededCache (cap ttlFloor ttlCeiling serveStale : ℕ) (types : List ℕ)
    (honorZeroTtl : Bool) :
    CleanCache (Datapath.seededCache hash cap ttlFloor ttlCeiling serveStale types
      honorZeroTtl) := by
  have hempty : CleanCache (Cache.withPolicy hash cap ttlFloor ttlCeiling 0 serveStale) := by
    intro s hs
    cases hs
  unfold Datapath.seededCache
  split
  · exact hempty
  · exact hempty.setCacheableTypes types

theorem CleanCache.insert (h : CleanCache c) {q : DnsQuestion} {response : Bytes}
    (hclean : isPrivateOrLocalName q.qname = false → Clean response) (ttl : ℕ) (kind : Kind)
    (epoch : ℕ) (now : ℤ) : CleanCache (c.insert q response ttl kind epoch now) := by
  intro s hs hname
  rcases Cache.mem_entries_insertEntry hs with hold | rfl
  · exact h s hold hname
  · exact clean_stripAdBit (hclean hname)

theorem CleanCache.cacheReply (h : CleanCache c) {q : DnsQuestion}
    {response : Bytes} (hclean : isPrivateOrLocalName q.qname = false → Clean response)
    (cacheRr : Bool) (now : ℤ) (epoch : ℕ) :
    CleanCache (Datapath.cacheReply cacheRr q response now epoch c) := by
  fun_cases Datapath.cacheReply with
  | case1 =>
    fun_cases Cache.put with
    | case3 => exact h.insert hclean _ _ _ _
    | _ => exact h
  | case2 => exact h.insert hclean _ _ _ _
  | case3 => exact h

/-- The frames of public names can be walked, and are about public names. -/
def FramesWalkable (payload : Bytes) : Prop :=
  ∀ frame ∈ records payload, isPrivateOrLocalName frame.qname = false →
    (∃ rs, answerRecords frame.wire = some rs) ∧
      ∀ q qend, parseQuestionFull frame.wire = some (q, qend) →
        isPrivateOrLocalName q.qname = false

/-- What the gate admits of such frames is clean. -/
theorem CleanCache.restoreUpTo (h : CleanCache c) {payload : Bytes}
    (hframes : FramesWalkable payload) (now : ℤ) (nowUnix : ℕ) :
    CleanCache (Cache.restoreUpTo now nowUnix (rebindAdmits true) (records payload) c) := by
  intro s hs hname
  rcases Cache.mem_entries_restoreUpTo hs with hold | ⟨frame, hframe, hkey, hadmits, hentry⟩
  · exact h s hold hname
  have hwire := (rehydrated_eq_some hentry).1
  rw [hkey] at hname
  obtain ⟨⟨rs, hrs⟩, hquestion⟩ := hframes frame hframe hname
  rw [hwire]
  cases hrebind : isRebind (extractAnswerIps frame.wire) with
  | false => exact clean_of_answerRecords hrs hrebind
  | true =>
    -- the gate lets a private address pass only under a private name
    unfold rebindAdmits at hadmits
    simp only [hrebind, Bool.not_true, Bool.false_eq_true, if_false] at hadmits
    split at hadmits
    · next q qend hq =>
      rw [hquestion q qend hq] at hadmits
      cases hadmits
    · cases hadmits

end Cache

/-! ### The invariant -/

namespace Datapath

variable {hash : Key → ℕ}

def CacheClean (d : Datapath hash) : Prop :=
  ∀ inner, d.inner = some inner → CleanCache inner.cache

/-- The step does not fall into one of the gaps. -/
def Safe (d : Datapath hash) : Event → Prop
  /- the cache is not read between the swap of the switch and the clear -/
  | .call _ _ _ _ => d.rebindEnforce = true → 0 < d.arming → d.CacheClean
  /- what DNS64 makes of the A records is public -/
  | .receive i reply aReply =>
    ∀ r, d.requests[i]? = some r → r.enforced = true →
      isPrivateOrLocalName r.question.qname = false → ∀ response a, reply = some response →
      aReply = some a → needsSynthesis r.question.qtype response = true →
      EmbedsPublic a d.prefixes
  /- a reply judged with the switch off does not reach the cache once it is on -/
  | .insert i _ _ =>
    ∀ r response, d.requests[i]? = some r → r.phase = .judged response false →
      d.rebindEnforce = true → d.arming = 0 → isPrivateOrLocalName r.question.qname = false →
      Clean response
  /- the gate of the restore can see what it judges -/
  | .rehydrate payload _ _ => d.rebindEnforce = true → d.arming = 0 → FramesWalkable payload
  | _ => True

/-- Every step of the run is safe. -/
def SafeRun (d : Datapath hash) : List Event → Prop
  | [] => True
  | e :: es => d.Safe e ∧ SafeRun (d.step e).1 es

end Datapath

/-- What is known of a call under way when the switch stands at `on`. -/
structure Request.Ok (on : Bool) (r : Request) : Prop where
  enforced : r.enforced = true → on = true
  judged : ∀ response b, r.phase = .judged response b →
    (r.enforced = true → b = true) ∧
      (b = true → isPrivateOrLocalName r.question.qname = false → Clean response)

namespace Datapath

variable {hash : Key → ℕ}

structure Inv (d : Datapath hash) : Prop where
  cache : d.rebindEnforce = true → d.arming = 0 → d.CacheClean
  requests : ∀ r ∈ d.requests, r.Ok d.rebindEnforce

variable {d : Datapath hash} {answer : Answer} {now : ℤ} {q : DnsQuestion}
  {reply aReply : Option Bytes} {r : Request}

theorem CacheClean.mapCache (h : d.CacheClean) {f : Cache hash → Cache hash}
    (hf : ∀ c, CleanCache c → CleanCache (f c)) : (d.mapCache f).CacheClean := by
  intro inner hinner
  obtain ⟨inner₀, hinner₀, rfl⟩ := map_eq_some_iff.mp hinner
  exact hf _ (h inner₀ hinner₀)

/-- A step that keeps the switches and the calls, and the cache clean, keeps the
invariant. -/
theorem Inv.mapCache (h : d.Inv) {f : Cache hash → Cache hash}
    (hf : d.rebindEnforce = true → d.arming = 0 → ∀ c, CleanCache c → CleanCache (f c)) :
    (d.mapCache f).Inv :=
  ⟨fun hon harm => (h.cache hon harm).mapCache (hf hon harm), h.requests⟩

/-! ### The parts of a call -/

theorem lookup_fst (d : Datapath hash) (query : Bytes) (q : DnsQuestion) (now : ℤ) (liveEpoch : ℕ) :
    (d.lookup query q now liveEpoch).1 = d.mapCache fun c => (c.getHitAt q now liveEpoch).2 := by
  obtain ⟨enforce, dnssec, cacheRr, filter, prefixes, inner, arming, requests⟩ := d
  cases inner with
  | none => rfl
  | some inner =>
    unfold lookup
    dsimp only
    split
    · rfl
    · rfl

/-- A hit in a clean cache, a literal route, or nothing. -/
theorem harmless_lookup (hclean : d.CacheClean)
    (hquery : 2 ≤ query.length) (hname : isPrivateOrLocalName q.qname = false)
    {liveEpoch : ℕ}
    (h : (d.lookup query q now liveEpoch).2 = some answer) : answer.Harmless := by
  unfold lookup at h
  split at h
  · cases h
    exact .inr fun w hw => (nomatch hw)
  next inner hinner =>
  dsimp only at h
  split at h
  · next hit hhit =>
    cases h
    refine .inr fun w hw => ?_
    cases hw
    obtain ⟨s, hs, hkey, hwire, -⟩ := Cache.getHitAt_eq_some hhit
    have hslot := hclean inner hinner s hs (by rw [hkey]; exact hname)
    rw [hwire] at hslot
    exact clean_serveHit hquery hslot
  · unfold literalAnswer at h
    split at h
    · split at h
      · obtain ⟨resp, -, rfl⟩ := map_eq_some_iff.mp h
        exact .inl (.inr rfl)
      · cases h
    · cases h

/-- A reply that passes with the switch on is clean. -/
theorem clean_of_judge (hon : d.rebindEnforce = true) (hname : isPrivateOrLocalName q.qname = false)
    {response : Bytes} (h : d.judge query q reply aReply = .inr response) : Clean response := by
  revert h
  fun_cases judge with
  | case5 wire hvalid _ hpass =>
    rintro ⟨⟩
    -- a validated reply can be walked, so the detector has seen its answers
    obtain ⟨-, -, hsome⟩ := validateResponse_eq_ok_iff.mp hvalid
    obtain ⟨secs, hsecs⟩ := isSome_iff_exists.mp hsome
    have hrecords : answerRecords wire = some secs.answers := by rw [answerRecords, hsecs]; rfl
    refine clean_applyFilterRr (clean_of_answerRecords hrecords ?_)
    cases hrebind : isRebind (extractAnswerIps wire) with
    | false => rfl
    | true => simp [rebindReject, hname, hrebind, hon] at hpass
  | _ => exact fun h => by cases h

/-- What is returned in place of a reply is nothing, or a DNS64 reply. -/
theorem clean_of_judge_inl (hsynth : ∀ response a, reply = some response → aReply = some a →
      needsSynthesis q.qtype response = true → EmbedsPublic a d.prefixes)
    (h : d.judge query q reply aReply = .inl answer) {w : Bytes} (hw : answer.wire = some w) :
    Clean w := by
  revert h
  fun_cases judge with
  | case3 response _ synth hsome =>
    rintro ⟨⟩
    cases hw
    revert hsome
    fun_cases tryDns64Synth with
    | case5 _ hneeds a =>
      exact clean_buildSynthAaaa (hsynth response a rfl rfl (by simpa using hneeds))
    | _ => exact fun h => by cases h
  | case5 => exact fun h => by cases h
  | _ => rintro ⟨⟩; cases hw

/-! ### One step -/

theorem inv_init : (Datapath.init hash).Inv :=
  ⟨fun hon => absurd hon Bool.false_ne_true, fun _ hr => (nomatch hr)⟩

theorem Inv.call (h : d.Inv) (v : Verdicts) (query : Bytes) (now : ℤ)
    (liveEpoch : ℕ) : (d.call v query now liveEpoch).1.Inv := by
  unfold Datapath.call
  split
  · exact h
  next q qend hparse =>
  split
  · exact h
  -- the lookup touches the cache only
  have hlookup : (d.lookup query q now liveEpoch).1.Inv := by
    rw [lookup_fst]
    exact h.mapCache fun _ _ c hc => hc.of_subset fun s hs => Cache.mem_entries_getHitAt hs
  have henforce : (d.lookup query q now liveEpoch).1.rebindEnforce = d.rebindEnforce := by
    rw [lookup_fst]
    rfl
  split
  · next d' answer heq =>
    rw [heq] at hlookup
    exact hlookup
  · next d' heq =>
    rw [heq] at hlookup henforce
    refine ⟨hlookup.cache, fun r hr => ?_⟩
    rcases mem_append.mp hr with hold | hnew
    · exact hlookup.requests r hold
    · obtain rfl := mem_singleton.mp hnew
      exact ⟨fun hon => henforce.trans hon, fun response b hphase => (nomatch hphase)⟩

theorem Inv.receive (h : d.Inv) (i : ℕ) (reply aReply : Option Bytes) :
    (d.receive i reply aReply).1.Inv := by
  fun_cases Datapath.receive with
  | case1 => exact ⟨h.cache, fun r hr => h.requests r (mem_of_mem_eraseIdx hr)⟩
  | case2 query q enforced hget response hjudge =>
    have hok := h.requests _ (mem_of_getElem? hget)
    refine ⟨h.cache, fun r hr => ?_⟩
    rcases mem_or_eq_of_mem_set hr with hold | rfl
    · exact h.requests r hold
    · refine ⟨hok.enforced, fun response' b hphase => ?_⟩
      cases hphase
      exact ⟨hok.enforced, fun hon hname => clean_of_judge hon hname hjudge⟩
  | case3 => exact h

theorem Inv.insert (h : d.Inv) {i : ℕ} {epoch : ℕ}
    (hsafe : d.Safe (.insert i now epoch)) : (d.insert i now epoch).1.Inv := by
  unfold Datapath.insert
  split
  · next query q enforced response on hget =>
    have hok := h.requests _ (mem_of_getElem? hget)
    have hcache : (d.mapCache (cacheReply d.cacheRr q response now epoch)).Inv := by
      refine h.mapCache fun hon harm c hc => hc.cacheReply (fun hname => ?_) _ _ _
      cases on with
      | true => exact (hok.judged response true rfl).2 rfl hname
      | false => exact hsafe _ response hget rfl hon harm hname
    exact ⟨hcache.cache, fun r hr => h.requests r (mem_of_mem_eraseIdx hr)⟩
  · exact h

theorem Inv.swapRebindEnforce (h : d.Inv) (on : Bool) :
    (d.swapRebindEnforce on).Inv := by
  refine ⟨fun hon harm => ?_, fun r hr => ?_⟩
  · -- nothing is left to clear only when the switch was on already
    obtain rfl : on = true := hon
    unfold Datapath.swapRebindEnforce at harm
    cases hwas : d.rebindEnforce with
    | false => simp [hwas] at harm
    | true =>
      simp only [hwas, Bool.not_true, Bool.and_false, Bool.false_eq_true, if_false] at harm
      exact h.cache hwas harm
  · obtain ⟨r₀, hr₀, rfl⟩ := mem_map.mp hr
    have hok := h.requests r₀ hr₀
    refine ⟨fun hen => ?_, fun response b hphase => ⟨fun hen => ?_, ?_⟩⟩
    · exact (Bool.and_eq_true_iff.mp hen).2
    · exact (hok.judged response b hphase).1 (Bool.and_eq_true_iff.mp hen).1
    · exact (hok.judged response b hphase).2

theorem Inv.clearAfterArming (h : d.Inv) : d.clearAfterArming.Inv := by
  unfold Datapath.clearAfterArming
  split
  · exact h
  · refine ⟨fun _ _ inner hinner => ?_, h.requests⟩
    obtain ⟨inner₀, -, rfl⟩ := map_eq_some_iff.mp hinner
    exact cleanCache_clear _

/-- **A safe step keeps the invariant.** -/
theorem Inv.step (h : d.Inv) {e : Event} (hsafe : d.Safe e) :
    (d.step e).1.Inv := by
  cases e with
  | call v query now liveEpoch => exact h.call v query now liveEpoch
  | receive i reply aReply => exact h.receive i reply aReply
  | insert i now epoch => exact h.insert hsafe
  | swapRebindEnforce on => exact h.swapRebindEnforce on
  | clearAfterArming => exact h.clearAfterArming
  | setDns64Prefixes csv => exact ⟨h.cache, h.requests⟩
  | setFilterRr dropTypes anyDefang => exact ⟨h.cache, h.requests⟩
  | setProxyDnssec on => exact ⟨h.cache, h.requests⟩
  | setCacheRr on => exact ⟨h.cache, h.requests⟩
  | setCache setting => exact h.mapCache fun _ _ c hc => hc.apply setting
  | configure cap ttlFloor ttlCeiling serveStale types honorZeroTtl router =>
    refine ⟨fun _ _ inner hinner => ?_, h.requests⟩
    cases hinner
    exact cleanCache_seededCache cap ttlFloor ttlCeiling serveStale types honorZeroTtl
  | shutdown => exact ⟨fun _ _ _ hinner => (nomatch hinner), h.requests⟩
  | rehydrate payload now nowUnix =>
    refine h.mapCache fun hon harm c hc => ?_
    rw [hon]
    exact hc.restoreUpTo (hsafe hon harm) now nowUnix

/-! ### Answers -/

section Answers

variable (hen : r.enforced = true) (hname : isPrivateOrLocalName r.question.qname = false)

include hen hname

theorem Inv.answer_of_call (h : d.Inv) {v : Verdicts} {liveEpoch : ℕ}
    (hsafe : d.Safe (.call v query now liveEpoch))
    (hanswer : (d.call v query now liveEpoch).2 = some (r, answer)) : answer.Harmless := by
  unfold Datapath.call at hanswer
  split at hanswer
  · cases hanswer
  next q qend hparse =>
  have hlen := (parseQuestionFull_eq_some_iff.mp hparse).1
  split at hanswer
  · next answer' hgates =>
    cases hanswer
    exact harmless_gates v query q _ hgates
  split at hanswer
  · next d' answer' hlookup =>
    cases hanswer
    -- the switch is on, so the cache is clean or about to be
    have hclean : d.CacheClean := by
      rcases Nat.eq_zero_or_pos d.arming with hzero | hpos
      · exact h.cache hen hzero
      · exact hsafe hen hpos
    exact harmless_lookup hclean (by omega) hname (congrArg Prod.snd hlookup)
  · cases hanswer

theorem Inv.answer_of_receive {i : ℕ} (hsafe : d.Safe (.receive i reply aReply))
    (hanswer : (d.receive i reply aReply).2 = some (r, answer)) : answer.Harmless := by
  revert hanswer
  fun_cases Datapath.receive with
  | case1 query q enforced hget answer' hjudge =>
    rintro ⟨⟩
    exact .inr fun w hw => clean_of_judge_inl (hsafe _ hget hen hname) hjudge hw
  | _ => exact fun h => by cases h

theorem Inv.answer_of_insert (h : d.Inv) {i : ℕ} {epoch : ℕ}
    (hanswer : (d.insert i now epoch).2 = some (r, answer)) : answer.Harmless := by
  unfold Datapath.insert at hanswer
  split at hanswer
  · next query q enforced response on hget =>
    cases hanswer
    obtain ⟨hon, hclean⟩ := (h.requests _ (mem_of_getElem? hget)).judged response on rfl
    refine .inr fun w hw => ?_
    cases hw
    exact clean_applyProxyDnssec (hclean (hon hen) hname)
  · cases hanswer

/-- **A safe step gives only harmless answers to public names.** -/
theorem Inv.answer_of_step (h : d.Inv) {e : Event} (hsafe : d.Safe e)
    (hanswer : (d.step e).2 = some (r, answer)) : answer.Harmless := by
  cases e with
  | call v query now liveEpoch => exact h.answer_of_call hen hname hsafe hanswer
  | receive i reply aReply => exact Inv.answer_of_receive hen hname hsafe hanswer
  | insert i now epoch => exact h.answer_of_insert hen hname hanswer
  -- no other event answers
  | _ => cases hanswer

end Answers

/-- So does a safe run, from any state that satisfies the invariant. -/
theorem Inv.answers_of_run : ∀ {es : List Event} {d : Datapath hash}, d.Inv → d.SafeRun es →
    ∀ p ∈ (d.run es).2, p.1.enforced = true →
    isPrivateOrLocalName p.1.question.qname = false → p.2.Harmless := by
  intro es
  induction es with
  | nil => intro d _ _ p hp; cases hp
  | cons e es ih =>
    intro d h hsafe p hp hen hname
    rcases mem_append.mp hp with hfirst | hrest
    · exact h.answer_of_step hen hname hsafe.1 (mem_toList.mp hfirst)
    · exact ih (h.step hsafe.1) hsafe.2 p hrest hen hname

/-- **With the rebind switch on, no answer for a public name holds a private address**, in
every run whose steps are all safe, unless it is given by policy. -/
theorem answers_not_rebind (hash : Key → ℕ) (es : List Event)
    (hsafe : (Datapath.init hash).SafeRun es) :
    ∀ p ∈ ((Datapath.init hash).run es).2, p.1.enforced = true →
      isPrivateOrLocalName p.1.question.qname = false → ¬ p.2.ByPolicy →
      ∀ w, p.2.wire = some w → isRebind (extractAnswerIps w) = false := by
  intro p hp hen hname hpolicy w hw
  rcases inv_init.answers_of_run hsafe p hp hen hname with hby | hclean
  · exact absurd hby hpolicy
  · exact (hclean w hw).isRebind_eq_false

/-- A call with the switch on, whose reply is public, and is judged, cached and returned. -/
theorem answers_not_rebind_public :
    let es : List Event :=
      [.configure 16 0 0 0 [] false (fun _ => none), .swapRebindEnforce true, .clearAfterArming,
        .call .pass [0, 7, 1, 0, 0, 1, 0, 0, 0, 0, 0, 0, 1, 97, 1, 98, 0, 0, 1, 0, 1] 100 0,
        .receive 0 (some [0, 7, 129, 128, 0, 1, 0, 1, 0, 0, 0, 0, 1, 97, 1, 98, 0, 0, 1, 0, 1,
          192, 12, 0, 1, 0, 1, 0, 0, 0, 30, 0, 4, 8, 8, 8, 8]) none,
        .insert 0 101 0]
    (Datapath.init fun k => k.qname.length).SafeRun es ∧
      ∃ p ∈ ((Datapath.init fun k => k.qname.length).run es).2, p.1.enforced = true ∧
        isPrivateOrLocalName p.1.question.qname = false ∧ p.2.outcome = .solved ∧
        ∀ w, p.2.wire = some w → isRebind (extractAnswerIps w) = false := by
  intro es
  have hsafe : (Datapath.init fun k => k.qname.length).SafeRun es := by
    refine ⟨trivial, trivial, trivial, fun _ harm => absurd harm (by decide +kernel),
      fun _ _ _ _ _ _ _ ha => (nomatch ha), fun r response hget hphase => ?_, trivial⟩
    -- the reply was judged with the switch on
    have hon : ((((Datapath.init fun k => k.qname.length).run (es.take 5)).1.requests[0]?).all
        fun r => match r.phase with
          | .waiting => true
          | .judged _ b => b) = true := by decide +kernel
    have hget' : ((Datapath.init fun k => k.qname.length).run (es.take 5)).1.requests[0]? =
        some r := hget
    rw [hget', all_some, hphase] at hon
    cases hon
  have hrun : (((Datapath.init fun k => k.qname.length).run es).2.map fun p =>
      (p.1.enforced, isPrivateOrLocalName p.1.question.qname, p.2.outcome)) =
        [(true, false, .solved)] := by decide +kernel
  obtain ⟨p, hp, hpair⟩ := mem_map.mp (hrun ▸ mem_singleton_self _)
  obtain ⟨hen, hrest⟩ := Prod.mk.inj hpair
  obtain ⟨hname, hout⟩ := Prod.mk.inj hrest
  refine ⟨hsafe, p, hp, hen, hname, hout, answers_not_rebind _ es hsafe p hp hen hname ?_⟩
  rintro (⟨gate, hgate⟩ | hlocal)
  · rw [hout] at hgate
    cases hgate
  · rw [hout] at hlocal
    cases hlocal

/-- Three runs that end in a private address for `a.b` with the switch on.  In the first a
DNS64 prefix turns the A record 192.168.1.1 into `::ffff:192.168.1.1`; in the second a reply
that was judged before the switch was turned on is cached after the clear, and served to the
next call; in the third the next call comes before the clear. -/
theorem answers_rebind :
    let outcomes (es : List Event) :=
      ((Datapath.init fun k => k.qname.length).run es).2.map fun p =>
        (p.1.enforced, isPrivateOrLocalName p.1.question.qname, p.2.outcome,
          p.2.wire.map fun w => isRebind (extractAnswerIps w))
    outcomes
      [.configure 16 0 0 0 [] false (fun _ => none),
        .setDns64Prefixes ['0', ':', '0', ':', '0', ':', '0', ':', '0', ':', 'f', 'f', 'f', 'f',
          ':', '0', ':', '0', '/', '9', '6'],
        .swapRebindEnforce true, .clearAfterArming,
        .call .pass [0, 7, 1, 0, 0, 1, 0, 0, 0, 0, 0, 0, 1, 97, 1, 98, 0, 0, 28, 0, 1] 100 0,
        .receive 0
          (some [0, 7, 129, 128, 0, 1, 0, 0, 0, 0, 0, 0, 1, 97, 1, 98, 0, 0, 28, 0, 1])
          (some [0, 0, 129, 128, 0, 1, 0, 1, 0, 0, 0, 0, 1, 97, 1, 98, 0, 0, 1, 0, 1,
            192, 12, 0, 1, 0, 1, 0, 0, 0, 30, 0, 4, 192, 168, 1, 1])] =
      [(true, false, .solved, some true)] ∧
    outcomes
      [.configure 16 0 0 0 [] false (fun _ => none),
        .call .pass [0, 7, 1, 0, 0, 1, 0, 0, 0, 0, 0, 0, 1, 97, 1, 98, 0, 0, 1, 0, 1] 100 0,
        .receive 0 (some [0, 7, 129, 128, 0, 1, 0, 1, 0, 0, 0, 0, 1, 97, 1, 98, 0, 0, 1, 0, 1,
          192, 12, 0, 1, 0, 1, 0, 0, 0, 30, 0, 4, 192, 168, 1, 1]) none,
        .swapRebindEnforce true, .clearAfterArming, .insert 0 101 0,
        .call .pass [0, 8, 1, 0, 0, 1, 0, 0, 0, 0, 0, 0, 1, 97, 1, 98, 0, 0, 1, 0, 1] 102 0] =
      [(false, false, .solved, some true), (true, false, .cacheHit, some true)] ∧
    outcomes
      [.configure 16 0 0 0 [] false (fun _ => none),
        .call .pass [0, 7, 1, 0, 0, 1, 0, 0, 0, 0, 0, 0, 1, 97, 1, 98, 0, 0, 1, 0, 1] 100 0,
        .receive 0 (some [0, 7, 129, 128, 0, 1, 0, 1, 0, 0, 0, 0, 1, 97, 1, 98, 0, 0, 1, 0, 1,
          192, 12, 0, 1, 0, 1, 0, 0, 0, 30, 0, 4, 192, 168, 1, 1]) none,
        .insert 0 101 0, .swapRebindEnforce true,
        .call .pass [0, 8, 1, 0, 0, 1, 0, 0, 0, 0, 0, 0, 1, 97, 1, 98, 0, 0, 1, 0, 1] 102 0] =
      [(false, false, .solved, some true), (true, false, .cacheHit, some true)] := by
  decide +kernel

end Datapath

end Resolver
end TortaCore
