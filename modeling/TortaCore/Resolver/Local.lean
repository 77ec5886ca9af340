import TortaCore.Dns.Synthesis

/-!
# Local records

Answers for names the user has pinned, for the hosts the cloak redirects to the tunnel's
own sentinel address, and the empty answer for IPv6 queries when IPv6 is unusable.
`local.rs` finds the end of the question with a walker of its own.

## Main definitions

* `synthAddress`, `synthNodata`: the replies.
* `localAnswerIfPinned`, `synthLoopbackAnswer`: who is answered.
-/

namespace TortaCore
namespace Resolver

open Text Dns Wire Net Machine

def maxQuestionName : ℕ := 255

/-- One turn of the loop of `question_end`, at a position and with the bytes walked. -/
def questionEndStep (query : Bytes) (s : ℕ × ℕ) : Turn (ℕ × ℕ) (Option ℕ) :=
  match query[s.1]? with
  | none => .halt none
  | some len =>
    if len &&& 0xC0 = 0xC0 then .halt none
    else if len = 0 then .halt (some (s.1 + 1))
    else if s.2 + (len.toNat + 1) > maxQuestionName then .halt none
    else if s.1 + 1 + len.toNat > query.length then .halt none
    else .next (s.1 + 1 + len.toNat, s.2 + (len.toNat + 1))

/-- Where the question ends; every turn moves on by a byte at least. -/
def questionEnd (query : Bytes) : Option ℕ :=
  if query.length < 12 then none
  else
    match (loop (questionEndStep query) (query.length + 1) (12, 0)).join with
    | none => none
    | some pos => if pos + 4 > query.length then none else some (pos + 4)

theorem lt_of_questionEndStep {query : Bytes} {s t : ℕ × ℕ}
    (h : questionEndStep query s = .next t) : s.1 < t.1 ∧ t.1 ≤ query.length := by
  revert h
  fun_cases questionEndStep with
  | case6 len _ _ _ _ hend =>
    rintro ⟨⟩
    exact ⟨by omega, Nat.le_of_not_lt hend⟩
  | _ => exact fun h => by cases h

/-- The budget of the walk never decides where the question ends. -/
theorem questionEnd_eq_some_iff {query : Bytes} {qend : ℕ} :
    questionEnd query = some qend ↔ 12 ≤ query.length ∧
      ∃ pos, Evaluates (questionEndStep query) (12, 0) (some pos) ∧ pos + 4 ≤ query.length ∧
        qend = pos + 4 := by
  have hwalk : ∀ r, (loop (questionEndStep query) (query.length + 1) (12, 0)).join = r ↔
      Evaluates (questionEndStep query) (12, 0) r := fun r =>
    join_loop_eq_iff (fun s : ℕ × ℕ => query.length - s.1)
      (fun s t h => by have := lt_of_questionEndStep h; omega) (by dsimp only; omega)
  unfold questionEnd
  split
  · next hlen => exact ⟨nofun, fun h => absurd h.1 (by omega)⟩
  next hlen =>
  split
  · next hnone =>
    refine ⟨nofun, ?_⟩
    rintro ⟨-, pos, hpos, -⟩
    rw [← hwalk, hnone] at hpos
    cases hpos
  · next pos hsome =>
    -- the position the walk reports is the only one the relation has
    have huniq : ∀ p, Evaluates (questionEndStep query) (12, 0) (some p) ↔ p = pos := by
      intro p
      rw [← hwalk, hsome, Option.some_inj, eq_comm]
    simp only [huniq]
    split
    · exact ⟨nofun, by rintro ⟨-, p, rfl, hle, -⟩; omega⟩
    next hend =>
    constructor
    · rintro ⟨⟩
      exact ⟨by omega, pos, rfl, by omega, rfl⟩
    · rintro ⟨-, p, rfl, -, rfl⟩
      rfl

def synthNodata (query : Bytes) : Option Bytes :=
  match parseQuestionFull query, questionEnd query with
  | some _, some qend => if qend < 12 then none else some (echoQuestion 0 query qend)
  | _, _ => none

def synthAddress (query : Bytes) (ips : List IpAddr) (ttl : ℕ) : Option Bytes :=
  if ips.isEmpty then none
  else
    match parseQuestionFull query, questionEnd query with
    | some _, some qend =>
      if ips.length ≥ 2 ^ 16 then none
      else some (setAncount (echoQuestion 0 query qend) ips.length ++
        ips.flatMap fun ip => (addressRecord ip ttl).bytes)
    | _, _ => none

structure LocalRecord where
  a : List Ipv4Addr
  aaaa : List Ipv6Addr
  ttl : ℕ

/-- The pinned addresses of the family that is asked for. -/
def localAnswerIfPinned (lookupPinned : Str → Option LocalRecord) (query : Bytes) (qname : Str)
    (qtype : ℕ) : Option Bytes :=
  match lookupPinned qname with
  | none => none
  | some record =>
    if qtype = typeA ∧ record.a ≠ [] then synthAddress query (record.a.map .v4) record.ttl
    else if qtype = typeAaaa ∧ record.aaaa ≠ [] then
      synthAddress query (record.aaaa.map .v6) record.ttl
    else none

def cloakSentinelV4 : Ipv4Addr := ⟨10, 1, 10, 3⟩

def cloakSentinelV6 : Ipv6Addr :=
  ⟨[0xFD, 0, 0, 1, 0xFD, 0, 0, 1, 0xFD, 0, 0, 1, 0xFD, 0, 0, 3], rfl⟩

def synthLoopbackAnswer (query : Bytes) (qtype : ℕ) : Option Bytes :=
  if qtype = typeA then synthAddress query [.v4 cloakSentinelV4] 0
  else if qtype = typeAaaa then synthAddress query [.v6 cloakSentinelV6] 0
  else none

theorem ancount_synthNodata {query resp : Bytes} (h : synthNodata query = some resp) :
    u16At resp 6 = 0 := by
  unfold synthNodata at h
  split at h
  · next q qend hparse _ =>
    obtain ⟨hlen, -⟩ := parseQuestionFull_eq_some_iff.mp hparse
    split at h
    · cases h
    · cases h
      exact u16At_echoQuestion (by omega)
  · cases h

end Resolver
end TortaCore
