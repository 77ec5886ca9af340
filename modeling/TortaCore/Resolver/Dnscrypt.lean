import TortaCore.Dns.Message
import Mathlib.Data.List.MinMax
import Mathlib.Data.Prod.Lex

/-!
# The choice of the certificate

A DNSCrypt provider publishes certificates, each with the version of its cipher; the client
takes the best one that is signed and in its time (`resolver/dnscrypt.rs`).  The version stands
outside the signature, and it decides where the signed fields are read: whoever carries the
answer may change it, leave certificates out, repeat them and put them in another order.

Two guards stand against that.  The signed bytes of a post-quantum certificate hold a profile,
which the parser wants if the version is the post-quantum one and only then; and the oldest
version is not used at all.  Nothing ties a version the client does not know to the signed
bytes, so a certificate published with one of those is taken for a classic one if its header is
changed.

## Main definitions

* `parseCert`, `verifyCert`, `pickBest`, `selectBestCert`: the code.
-/

namespace TortaCore
namespace Resolver
namespace Dnscrypt

open Text Wire Dns List Option

/-! ### The code -/

def certMagic : Bytes := utf8 "DNSC".toList

def esXchacha : ℕ := 2

def esXsalsa : ℕ := 1

def esXwingPq : ℕ := 3

def pqXwingPkLen : ℕ := 1216

def pqCertLen : ℕ := 1320

def pqProfileExt : Bytes :=
  [0x50, 0x51, 0x44, 0x01, 0x00, 0x03, 0x01, 0x01, 0x04, 0xC0, 0x04, 0x60]

def pqContextLabel : Bytes := utf8 "DNSCrypt-PQ-v1".toList

/-- The signature scheme. -/
structure Ed25519 (κ : Type*) where
  fromBytes : Bytes → Option κ
  verifyStrict : κ → Bytes → Bytes → Bool

structure PqCertMaterial where
  pk : Bytes
  certContext : Bytes
  deriving DecidableEq

structure ParsedCert where
  /-- Not signed. -/
  esVersion : ℕ
  resolverPk : Bytes
  clientMagic : Bytes
  serial : ℕ
  tsStart : ℕ
  tsEnd : ℕ
  signature : Bytes
  signed : Bytes
  pq : Option PqCertMaterial
  deriving DecidableEq

def buildPqCertContext (cert : Bytes) : Bytes :=
  pqContextLabel ++ bytesAt cert 4 2 ++ bytesAt cert 6 2 ++ bytesAt cert 72 1216 ++
    bytesAt cert 1288 8 ++ bytesAt cert 1296 4 ++ bytesAt cert 1300 4 ++ bytesAt cert 1304 4 ++
    bytesAt cert 1308 12

def hasPqProfile (bytes : Bytes) : Bool :=
  pqCertLen ≤ bytes.length && bytesAt bytes 1308 12 == pqProfileExt

def parseCert (bytes : Bytes) : Option ParsedCert :=
  if bytes.length < 124 then none
  else if bytesAt bytes 0 4 ≠ certMagic then none
  else if u16At bytes 4 = esXwingPq then
    if !hasPqProfile bytes then none
    else
      some {
        esVersion := u16At bytes 4
        resolverPk := List.replicate 32 0
        clientMagic := bytesAt bytes 1288 8
        serial := u32At bytes 1296
        tsStart := u32At bytes 1300
        tsEnd := u32At bytes 1304
        signature := bytesAt bytes 8 64
        signed := bytes.drop 72
        pq := some ⟨bytesAt bytes 72 pqXwingPkLen, buildPqCertContext bytes⟩ }
  -- a post-quantum certificate with another version in its header
  else if hasPqProfile bytes then none
  else
    some {
      esVersion := u16At bytes 4
      resolverPk := bytesAt bytes 72 32
      clientMagic := bytesAt bytes 104 8
      serial := u32At bytes 112
      tsStart := u32At bytes 116
      tsEnd := u32At bytes 120
      signature := bytesAt bytes 8 64
      signed := bytes.drop 72
      pq := none }

/-- The fields of a certificate that was verified; the cached one has the same. -/
structure VerifiedCert where
  esVersion : ℕ
  resolverPk : Bytes
  clientMagic : Bytes
  serial : ℕ
  tsEnd : ℕ
  pq : Option PqCertMaterial
  deriving DecidableEq

def ParsedCert.verified (c : ParsedCert) : VerifiedCert :=
  ⟨c.esVersion, c.resolverPk, c.clientMagic, c.serial, c.tsEnd, c.pq⟩

/-- What the certificates are compared by. -/
def VerifiedCert.rank (v : VerifiedCert) : ℕ ×ₗ ℕ ×ₗ ℕ :=
  toLex (v.esVersion, toLex (v.serial, v.tsEnd))

def certInWindow (now tsStart tsEnd : ℕ) : Bool := tsStart ≤ now && now < tsEnd

/-- One turn of the first pass. -/
def verifyCert (verify : Bytes → Bytes → Bool) (now : ℕ) (pqEnabled : Bool) (raw : Bytes) :
    Option VerifiedCert :=
  match parseCert raw with
  | none => none
  | some cert =>
    if cert.esVersion ≠ esXchacha ∧ cert.esVersion ≠ esXsalsa ∧
        ¬(cert.esVersion = esXwingPq ∧ pqEnabled = true) then none
    else if !verify cert.signed cert.signature then none
    else if !certInWindow now cert.tsStart cert.tsEnd then none
    else some cert.verified

def maxEsForKey (verified : List VerifiedCert) (rpk : Bytes) : ℕ :=
  ((verified.filter fun v => v.resolverPk = rpk).map VerifiedCert.esVersion).max?.getD 0

/-- One turn of the second pass. -/
def consider (verified : List VerifiedCert) (best : Option VerifiedCert) (cand : VerifiedCert) :
    Option VerifiedCert :=
  if cand.esVersion < maxEsForKey verified cand.resolverPk then best
  else
    match best with
    | none => some cand
    | some b => if b.rank < cand.rank then some cand else some b

def pickBest (verified : List VerifiedCert) : Option VerifiedCert :=
  verified.foldl (consider verified) none

def selectBestCert {κ : Type*} (ed : Ed25519 κ) (certs : List Bytes) (providerPk : Bytes)
    (now : ℕ) (pqEnabled : Bool) : Option VerifiedCert :=
  match ed.fromBytes providerPk with
  | none => none
  | some vk =>
    match pickBest (certs.filterMap (verifyCert (ed.verifyStrict vk) now pqEnabled)) with
    | none => none
    | some best => if best.esVersion = esXsalsa then none else some best

/-! ### One certificate -/

/-- A certificate that the client may use: it is read, its version is spoken, and it is signed
and in its time. -/
structure Verified (verify : Bytes → Bytes → Bool) (now : ℕ) (pqEnabled : Bool) (raw : Bytes)
    (c : ParsedCert) : Prop where
  parsed : parseCert raw = some c
  spoken : c.esVersion = esXchacha ∨ c.esVersion = esXsalsa ∨
    c.esVersion = esXwingPq ∧ pqEnabled = true
  signed : verify c.signed c.signature = true
  window : c.tsStart ≤ now ∧ now < c.tsEnd

theorem verifyCert_eq_some_iff {verify : Bytes → Bytes → Bool} {now : ℕ} {pqEnabled : Bool}
    {raw : Bytes} {v : VerifiedCert} :
    verifyCert verify now pqEnabled raw = some v ↔
      ∃ c, Verified verify now pqEnabled raw c ∧ c.verified = v := by
  constructor
  · fun_cases verifyCert with
    | case5 c hparse hspoken hsigned hwindow =>
      intro h
      refine ⟨c, ⟨hparse, ?_, by simpa using hsigned, by simpa [certInWindow] using hwindow⟩,
        by simpa using h⟩
      tauto
    | _ => exact fun h => by cases h
  · rintro ⟨c, ⟨hparse, hspoken, hsigned, hwindow⟩, rfl⟩
    have hcan : ¬(c.esVersion ≠ esXchacha ∧ c.esVersion ≠ esXsalsa ∧
        ¬(c.esVersion = esXwingPq ∧ pqEnabled = true)) := by tauto
    simp only [verifyCert, hparse, if_neg hcan]
    simp [hsigned, certInWindow, hwindow]

/-- What the provider signed, of the fields the client reads. -/
def ParsedCert.signedFields (c : ParsedCert) : Bytes × Bytes × ℕ × ℕ × ℕ × Option Bytes :=
  (c.resolverPk, c.clientMagic, c.serial, c.tsStart, c.tsEnd, c.pq.map PqCertMaterial.pk)

theorem parseCert_eq_some {bytes : Bytes} {c : ParsedCert} (h : parseCert bytes = some c) :
    124 ≤ bytes.length ∧ c.signed = bytes.drop 72 ∧
      (c.esVersion = esXwingPq ∧ hasPqProfile bytes = true ∧
          c.signedFields = (List.replicate 32 0, bytesAt bytes 1288 8, u32At bytes 1296,
            u32At bytes 1300, u32At bytes 1304, some (bytesAt bytes 72 pqXwingPkLen)) ∨
        c.esVersion ≠ esXwingPq ∧ hasPqProfile bytes = false ∧
          c.signedFields = (bytesAt bytes 72 32, bytesAt bytes 104 8, u32At bytes 112,
            u32At bytes 116, u32At bytes 120, none)) := by
  revert h
  fun_cases parseCert with
  | case4 hlen _ hes hprofile =>
    rintro ⟨⟩
    exact ⟨Nat.le_of_not_lt hlen, rfl, .inl ⟨hes, by simpa using hprofile, rfl⟩⟩
  | case6 hlen _ hes hprofile =>
    rintro ⟨⟩
    exact ⟨Nat.le_of_not_lt hlen, rfl, .inr ⟨hes, by simpa using hprofile, rfl⟩⟩
  | _ => exact fun h => by cases h

theorem u32At_of_drop_eq {buf buf' : Bytes} {q p : ℕ} (h : buf.drop q = buf'.drop q)
    (hp : q ≤ p) : u32At buf p = u32At buf' p := by
  rw [u32At, u32At, bytesAt_of_drop_eq h hp]

/-- **No reading of one as the other.**  Certificates with the same signed bytes are in the same
layout, and the signed fields are the same. -/
theorem parseCert_congr {raw p : Bytes} {c cp : ParsedCert} (hc : parseCert raw = some c)
    (hcp : parseCert p = some cp) (h : cp.signed = c.signed) :
    (cp.esVersion = esXwingPq ↔ c.esVersion = esXwingPq) ∧ cp.signedFields = c.signedFields := by
  obtain ⟨hlen, hsigned, hlayout⟩ := parseCert_eq_some hc
  obtain ⟨hlen', hsigned', hlayout'⟩ := parseCert_eq_some hcp
  have hdrop : p.drop 72 = raw.drop 72 := hsigned' ▸ hsigned ▸ h
  have hlength : p.length = raw.length := by
    have := congrArg length hdrop
    rw [length_drop, length_drop] at this
    omega
  have hprofile : hasPqProfile p = hasPqProfile raw := by
    rw [hasPqProfile, hasPqProfile, hlength, bytesAt_of_drop_eq hdrop (by decide)]
  have hbytes : ∀ k n, 72 ≤ k → bytesAt p k n = bytesAt raw k n := fun k n hk =>
    bytesAt_of_drop_eq hdrop hk n
  have hwords : ∀ k, 72 ≤ k → u32At p k = u32At raw k := fun k hk => u32At_of_drop_eq hdrop hk
  rcases hlayout' with ⟨hes', hpq', hfields'⟩ | ⟨hes', hpq', hfields'⟩
  · rcases hlayout with ⟨hes, -, hfields⟩ | ⟨-, hpq, -⟩
    · refine ⟨iff_of_true hes' hes, ?_⟩
      rw [hfields', hfields, hbytes 1288 8 (by decide), hwords 1296 (by decide),
        hwords 1300 (by decide), hwords 1304 (by decide), hbytes 72 _ (by decide)]
    · rw [hprofile, hpq] at hpq'
      cases hpq'
  · rcases hlayout with ⟨-, hpq, -⟩ | ⟨hes, -, hfields⟩
    · rw [hprofile, hpq] at hpq'
      cases hpq'
    · refine ⟨iff_of_false hes' hes, ?_⟩
      rw [hfields', hfields, hbytes 72 32 (by decide), hbytes 104 8 (by decide),
        hwords 112 (by decide), hwords 116 (by decide), hwords 120 (by decide)]

/-! ### The best of the verified -/

variable {verified : List VerifiedCert} {v best : VerifiedCert}

/-- The certificates that the second pass does not skip. -/
def eligible (verified : List VerifiedCert) : List VerifiedCert :=
  verified.filter fun v => maxEsForKey verified v.resolverPk ≤ v.esVersion

theorem pickBest_eq_argmax : pickBest verified = (eligible verified).argmax VerifiedCert.rank := by
  -- the accumulators agree, whichever certificates the guard looks at
  have hloop : ∀ (l : List VerifiedCert) (best : Option VerifiedCert),
      l.foldl (consider verified) best =
        (l.filter fun v => decide (maxEsForKey verified v.resolverPk ≤ v.esVersion)).foldl
          (argAux fun b c => c.rank < b.rank) best := by
    intro l
    induction l with
    | nil => intro best; rfl
    | cons v l ih =>
      intro best
      rw [foldl_cons, ih]
      by_cases hskip : v.esVersion < maxEsForKey verified v.resolverPk
      · rw [filter_cons_of_neg (by simpa using hskip), consider.eq_def, if_pos hskip]
      · rw [filter_cons_of_pos (by simpa using hskip), consider.eq_def, if_neg hskip, foldl_cons]
        cases best <;> rfl
  exact hloop verified none

theorem exists_maxEsForKey (hv : v ∈ verified) :
    ∃ w ∈ verified, w.resolverPk = v.resolverPk ∧
      w.esVersion = maxEsForKey verified v.resolverPk := by
  rw [maxEsForKey]
  generalize hlist : (verified.filter fun w => w.resolverPk = v.resolverPk) = same
  have hmem : v ∈ same := hlist ▸ mem_filter.mpr ⟨hv, decide_eq_true rfl⟩
  have hne : same.map VerifiedCert.esVersion ≠ [] := by
    rw [Ne, map_eq_nil_iff]
    exact ne_nil_of_mem hmem
  obtain ⟨m, hm⟩ := ne_none_iff_exists'.mp (mt max?_eq_none_iff.mp hne)
  obtain ⟨w, hw, rfl⟩ := mem_map.mp (max?_mem hm)
  obtain ⟨hw, hkey⟩ := mem_filter.mp (hlist ▸ hw)
  exact ⟨w, hw, of_decide_eq_true hkey, by rw [hm, getD_some]⟩

/-- A skipped certificate is outranked by one that is not skipped. -/
theorem exists_eligible (hv : v ∈ verified) : ∃ w ∈ eligible verified, v.rank ≤ w.rank := by
  by_cases hskip : maxEsForKey verified v.resolverPk ≤ v.esVersion
  · exact ⟨v, mem_filter.mpr ⟨hv, decide_eq_true hskip⟩, le_rfl⟩
  obtain ⟨w, hw, hkey, hes⟩ := exists_maxEsForKey hv
  refine ⟨w, mem_filter.mpr ⟨hw, ?_⟩, ?_⟩
  · rw [hkey, hes]
    exact decide_eq_true le_rfl
  · rw [VerifiedCert.rank, VerifiedCert.rank, Prod.Lex.toLex_le_toLex]
    exact .inl (by omega)

theorem mem_of_pickBest (h : pickBest verified = some best) : best ∈ verified := by
  rw [pickBest_eq_argmax] at h
  exact mem_of_mem_filter (argmax_mem h)

theorem rank_le_of_pickBest (h : pickBest verified = some best) (hv : v ∈ verified) :
    v.rank ≤ best.rank := by
  rw [pickBest_eq_argmax] at h
  obtain ⟨w, hw, hle⟩ := exists_eligible hv
  exact hle.trans (le_of_mem_argmax hw h)

theorem pickBest_eq_none_iff : pickBest verified = none ↔ verified = [] := by
  rw [pickBest_eq_argmax, argmax_eq_none]
  constructor
  · intro h
    refine eq_nil_iff_forall_not_mem.mpr fun v hv => ?_
    obtain ⟨w, hw, -⟩ := exists_eligible hv
    rw [h] at hw
    cases hw
  · rintro rfl
    rfl

theorem map_rank_pickBest {verified' : List VerifiedCert} (h : verified.Perm verified') :
    (pickBest verified').map VerifiedCert.rank = (pickBest verified).map VerifiedCert.rank := by
  cases hbest : pickBest verified with
  | none =>
    obtain rfl := pickBest_eq_none_iff.mp hbest
    rw [nil_perm.mp h]
    rfl
  | some best =>
    cases hbest' : pickBest verified' with
    | none =>
      obtain rfl := pickBest_eq_none_iff.mp hbest'
      rw [perm_nil.mp h] at hbest
      cases hbest
    | some best' =>
      have hle := rank_le_of_pickBest hbest (h.mem_iff.mpr (mem_of_pickBest hbest'))
      have hge := rank_le_of_pickBest hbest' (h.mem_iff.mp (mem_of_pickBest hbest))
      rw [map_some, map_some, le_antisymm hle hge]

/-! ### The selection -/

section Select

variable {κ : Type*} {ed : Ed25519 κ} {certs : List Bytes} {providerPk : Bytes} {now : ℕ}
  {pqEnabled : Bool}

theorem selectBestCert_eq_some (h : selectBestCert ed certs providerPk now pqEnabled = some best) :
    best.esVersion ≠ esXsalsa ∧ ∃ vk, ed.fromBytes providerPk = some vk ∧
      pickBest (certs.filterMap (verifyCert (ed.verifyStrict vk) now pqEnabled)) = some best := by
  revert h
  fun_cases selectBestCert with
  | case4 vk hvk b hb hes =>
    rintro ⟨⟩
    exact ⟨hes, vk, hvk, hb⟩
  | _ => exact fun h => by cases h

theorem map_rank_selectBestCert {certs' : List Bytes} (h : certs.Perm certs') :
    (selectBestCert ed certs' providerPk now pqEnabled).map VerifiedCert.rank =
      (selectBestCert ed certs providerPk now pqEnabled).map VerifiedCert.rank := by
  unfold selectBestCert
  cases hvk : ed.fromBytes providerPk with
  | none => rfl
  | some vk =>
    have hranks := map_rank_pickBest (h.filterMap (verifyCert (ed.verifyStrict vk) now pqEnabled))
    dsimp only
    revert hranks
    generalize pickBest (certs.filterMap _) = best
    generalize pickBest (certs'.filterMap _) = best'
    intro hranks
    cases best with
    | none =>
      rw [map_none, map_eq_none_iff] at hranks
      rw [hranks]
    | some b =>
      obtain ⟨b', rfl, hrank⟩ := map_eq_some_iff.mp hranks
      have hes : b'.esVersion = b.esVersion := congrArg (fun r => (ofLex r).1) hrank
      dsimp only
      rw [hes]
      split
      · rfl
      · rw [map_some, map_some, hrank]

end Select

/-- **The selection never downgrades.**  Let the provider publish certificates that are read in
their own version, of the versions the client knows, and let nobody else be able to sign.  For
every answer, time and setting of the gate, what is selected is a published certificate, signed
and in its time, not of the oldest version and of no lower one than it was published with; it
is the best of all that could be used; and the order of the answer matters only among equals. -/
theorem selected_is_published_and_best {κ : Type*} (ed : Ed25519 κ) (providerPk : Bytes)
    (published : Set Bytes)
    (hpublished : ∀ p ∈ published, ∃ c, parseCert p = some c ∧ c.esVersion ≤ esXwingPq)
    (certs : List Bytes)
    (hunforgeable : ∀ vk, ed.fromBytes providerPk = some vk → ∀ raw ∈ certs, ∀ c,
      parseCert raw = some c → ed.verifyStrict vk c.signed c.signature = true →
        ∃ p ∈ published, p.drop 72 = c.signed)
    (now : ℕ) (pqEnabled : Bool) :
    (∀ best, selectBestCert ed certs providerPk now pqEnabled = some best →
      ∃ vk, ed.fromBytes providerPk = some vk ∧
        (∃ raw ∈ certs, ∃ c, Verified (ed.verifyStrict vk) now pqEnabled raw c ∧
          c.verified = best ∧
          ∃ p ∈ published, ∃ cp, parseCert p = some cp ∧ cp.signed = c.signed ∧
            cp.signedFields = c.signedFields ∧ cp.esVersion ≤ best.esVersion) ∧
        best.esVersion ≠ esXsalsa ∧
        ∀ raw ∈ certs, ∀ c, Verified (ed.verifyStrict vk) now pqEnabled raw c →
          c.verified.rank ≤ best.rank) ∧
    ∀ certs' : List Bytes, certs.Perm certs' →
      (selectBestCert ed certs' providerPk now pqEnabled).map VerifiedCert.rank =
        (selectBestCert ed certs providerPk now pqEnabled).map VerifiedCert.rank := by
  refine ⟨fun best hbest => ?_, fun certs' h => map_rank_selectBestCert h⟩
  obtain ⟨hes, vk, hvk, hpick⟩ := selectBestCert_eq_some hbest
  refine ⟨vk, hvk, ?_, hes, fun raw hraw c hc => ?_⟩
  · obtain ⟨raw, hraw, hverify⟩ := mem_filterMap.mp (mem_of_pickBest hpick)
    obtain ⟨c, hc, rfl⟩ := verifyCert_eq_some_iff.mp hverify
    obtain ⟨p, hp, hdrop⟩ := hunforgeable vk hvk raw hraw c hc.parsed hc.signed
    obtain ⟨cp, hcp, hknown⟩ := hpublished p hp
    have hsigned : cp.signed = c.signed := (parseCert_eq_some hcp).2.1.trans hdrop
    obtain ⟨hlayout, hfields⟩ := parseCert_congr hc.parsed hcp hsigned
    refine ⟨raw, hraw, c, hc, rfl, p, hp, cp, hcp, hsigned, hfields, ?_⟩
    -- what is selected is of version two or three, and three is three in both
    change cp.esVersion ≤ c.esVersion
    change c.esVersion ≠ esXsalsa at hes
    have hspoken := hc.spoken
    simp only [esXchacha, esXsalsa, esXwingPq] at hspoken hes hlayout hknown
    omega
  · exact rank_le_of_pickBest hpick
      (mem_filterMap.mpr ⟨raw, hraw, verifyCert_eq_some_iff.mpr ⟨c, hc, rfl⟩⟩)

/-- A classic certificate of the examples, valid for a hundred seconds. -/
def plainCert (esVersion serial : ℕ) : Bytes :=
  certMagic ++ beBytes 2 esVersion ++ beBytes 2 0 ++ List.replicate 64 0 ++
    List.replicate 32 7 ++ List.replicate 8 9 ++ beBytes 4 serial ++ beBytes 4 0 ++ beBytes 4 100

/-- The signer of the examples, who signs what is in one of the certificates. -/
def plainSigner (published : List Bytes) : Ed25519 Unit where
  fromBytes _ := some ()
  verifyStrict _ signed _ := published.any fun p => p.drop 72 == signed

/-- A copy with the oldest version in its header does not get its certificate rejected. -/
theorem lowered_copy_is_outranked :
    let ed := plainSigner [plainCert 2 1]
    let best : VerifiedCert := ⟨2, List.replicate 32 7, List.replicate 8 9, 1, 100, none⟩
    selectBestCert ed [plainCert 1 1, plainCert 2 1] [] 50 true = some best ∧
      (∃ vk, ed.fromBytes [] = some vk ∧
        ∃ raw ∈ [plainCert 1 1, plainCert 2 1], ∃ c,
          Verified (ed.verifyStrict vk) 50 true raw c ∧ c.verified = best) ∧
      best.esVersion ≠ esXsalsa := by
  intro ed best
  have hselect : selectBestCert ed [plainCert 1 1, plainCert 2 1] [] 50 true = some best := by
    decide +kernel
  have hread : ((parseCert (plainCert 2 1)).map ParsedCert.esVersion) = some 2 := by
    decide +kernel
  obtain ⟨vk, hvk, ⟨raw, hraw, c, hc, hbest, -⟩, hes, -⟩ :=
    (selected_is_published_and_best ed [] { plainCert 2 1 }
      (by
        rintro p rfl
        obtain ⟨c, hc, hes⟩ := map_eq_some_iff.mp hread
        exact ⟨c, hc, hes ▸ by decide⟩)
      [plainCert 1 1, plainCert 2 1]
      (fun vk _ raw _ c _ hsigned =>
        ⟨plainCert 2 1, rfl, by simpa [ed, plainSigner] using hsigned⟩)
      50 true).1 best hselect
  exact ⟨hselect, ⟨vk, hvk, raw, hraw, c, hc, hbest⟩, hes⟩

/-- A certificate that was published with a version the client does not know is selected with
a lower one if its header is changed. -/
theorem unknown_version_is_lowered :
    (parseCert (plainCert 4 1)).map ParsedCert.esVersion = some 4 ∧
      (plainCert 2 1).drop 8 = (plainCert 4 1).drop 8 ∧
      (selectBestCert (plainSigner [plainCert 4 1]) [plainCert 2 1] [] 50 true).map
        VerifiedCert.esVersion = some 2 := by
  decide +kernel

end Dnscrypt
end Resolver
end TortaCore
