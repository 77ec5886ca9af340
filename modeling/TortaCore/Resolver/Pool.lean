import Mathlib.Data.List.Rotate
import Mathlib.Data.Nat.ModEq
import TortaCore.Text.Utf8

/-!
# The transport pool

The sequential ladders of `resolver/pool.rs`: the plain one, the round robin and the routed one.  A
ladder tries transports in some order and returns the first answer; it notes each try, and on
success the index of the transport that answered.

What an exchange gives within its deadline is a field of the transport: an error and a timeout look
the same to a ladder.  The notes are kept as a list of tries; the source folds them into moving
averages by id, which no ladder here reads.

## Main definitions

* `Pool.exchange`, `Pool.exchangeRoundRobin`, `Pool.exchangeVia`: the three ladders.
-/

namespace TortaCore
namespace Resolver

open Text List

structure Transport where
  id : Str
  /-- The answer to a query within the deadline, if any. -/
  exchange : Bytes → Option Bytes

/-- One call of `record`, with the index of the transport it is about. -/
structure Try where
  idx : ℕ
  id : Str
  answered : Bool
  deriving DecidableEq

structure Pool where
  transports : List Transport
  /-- `none` for `usize::MAX`. -/
  lastWinner : Option ℕ
  rrCursor : ℕ
  tries : List Try

namespace Pool

def new (transports : List Transport) : Pool := ⟨transports, none, 0, []⟩

def record (pool : Pool) (idx : ℕ) (id : Str) (answered : Bool) : Pool :=
  { pool with tries := pool.tries ++ [⟨idx, id, answered⟩] }

/-- `transports.iter().enumerate()`. -/
def enumerate (pool : Pool) : List (ℕ × Transport) := pool.transports.zipIdx.map Prod.swap

/-- The bookkeeping of an answer. -/
def won (pool : Pool) (idx : ℕ) (id : Str) : Pool :=
  { pool.record idx id true with lastWinner := some idx }

/-- Try the rungs in order. -/
def climb (query : Bytes) : List (ℕ × Transport) → Pool → Option Bytes × Pool
  | [], pool => (none, pool)
  | (idx, transport) :: rest, pool =>
    match transport.exchange query with
    | some response => (some response, pool.won idx transport.id)
    | none => climb query rest (pool.record idx transport.id false)

def exchange (pool : Pool) (query : Bytes) : Option Bytes × Pool :=
  climb query pool.enumerate pool

/-- The rungs of a walk around the ring. -/
def ring (pool : Pool) (start : ℕ) : List (ℕ × Transport) :=
  (List.range pool.transports.length).filterMap fun step =>
    let idx := (start + step) % pool.transports.length
    pool.transports[idx]?.map (idx, ·)

def exchangeRoundRobin (pool : Pool) (query : Bytes) : Option Bytes × Pool :=
  if pool.transports.isEmpty then (none, pool)
  else
    let start := pool.rrCursor % pool.transports.length
    climb query (pool.ring start) { pool with rrCursor := (pool.rrCursor + 1) % 2 ^ 64 }

/-- The fall-through of `exchange_via`: every transport with another id. -/
def climbOthers (query : Bytes) (upstreamId : Str) :
    List (ℕ × Transport) → Pool → Option Bytes × Pool
  | [], pool => (none, pool)
  | (idx, transport) :: rest, pool =>
    if transport.id = upstreamId then climbOthers query upstreamId rest pool
    else
      match transport.exchange query with
      | some response => (some response, pool.won idx transport.id)
      | none => climbOthers query upstreamId rest (pool.record idx transport.id false)

def exchangeVia (pool : Pool) (query : Bytes) (upstreamId : Str) : Option Bytes × Pool :=
  match pool.enumerate.find? fun r => r.2.id == upstreamId with
  | some (pidx, preferred) =>
    match preferred.exchange query with
    | some response => (some response, pool.won pidx preferred.id)
    | none => climbOthers query upstreamId pool.enumerate (pool.record pidx preferred.id false)
  | none => climbOthers query upstreamId pool.enumerate pool

end Pool

/-! ### Climbing -/

/-- The rung answers the query. -/
def answers (query : Bytes) (r : ℕ × Transport) : Bool := (r.2.exchange query).isSome

/-- What is owed to the caller of a ladder over the transports of `pool`: an answer whenever some
transport answers, no transport tried twice, and an answer that is the noted winner's. -/
structure Contract (pool : Pool) (query : Bytes) (out : Option Bytes × Pool) : Prop where
  answered : out.1.isSome ↔ ∃ t ∈ pool.transports, (t.exchange query).isSome
  once : ∃ tried : List Try, out.2.tries = pool.tries ++ tried ∧ (tried.map Try.idx).Nodup
  winner : ∀ bytes, out.1 = some bytes → ∃ idx t, out.2.lastWinner = some idx ∧
    pool.transports[idx]? = some t ∧ t.exchange query = some bytes

namespace Pool

theorem climb_fst (query : Bytes) (rungs : List (ℕ × Transport)) (pool : Pool) :
    (climb query rungs pool).1 = rungs.findSome? fun r => r.2.exchange query := by
  induction rungs generalizing pool with
  | nil => rfl
  | cons r rungs ih =>
    rw [climb, findSome?_cons]
    cases hr : r.2.exchange query with
    | some response => rfl
    | none => exact ih _

theorem climb_tries (query : Bytes) : ∀ (rungs : List (ℕ × Transport)) (pool : Pool),
    ∃ tried : List Try, (climb query rungs pool).2.tries = pool.tries ++ tried ∧
      tried.map Try.idx <+: rungs.map Prod.fst := by
  intro rungs
  induction rungs with
  | nil => exact fun pool => ⟨[], (append_nil _).symm, nil_prefix⟩
  | cons r rungs ih =>
    intro pool
    rw [climb]
    cases hr : r.2.exchange query with
    | some response =>
      exact ⟨[⟨r.1, r.2.id, true⟩], rfl, cons_prefix_cons.mpr ⟨rfl, nil_prefix⟩⟩
    | none =>
      obtain ⟨tried, htries, hpre⟩ := ih (pool.record r.1 r.2.id false)
      refine ⟨⟨r.1, r.2.id, false⟩ :: tried, ?_, cons_prefix_cons.mpr ⟨rfl, hpre⟩⟩
      rw [htries, record, append_assoc, singleton_append]

theorem climb_winner (query : Bytes) {bytes : Bytes} (rungs : List (ℕ × Transport)) (pool : Pool)
    (h : (climb query rungs pool).1 = some bytes) :
    ∃ r ∈ rungs, (climb query rungs pool).2.lastWinner = some r.1 ∧
        r.2.exchange query = some bytes := by
  induction rungs generalizing pool with
  | nil => cases h
  | cons r rungs ih =>
    rw [climb] at h ⊢
    cases hr : r.2.exchange query with
    | some response =>
      rw [hr] at h
      cases h
      exact ⟨r, mem_cons_self, rfl, hr⟩
    | none =>
      rw [hr] at h
      obtain ⟨r', hr', hwin, hbytes⟩ := ih _ h
      exact ⟨r', mem_cons_of_mem _ hr', hwin, hbytes⟩

variable {pool : Pool} {r : ℕ × Transport}

theorem mem_enumerate :
    r ∈ pool.enumerate ↔ pool.transports[r.1]? = some r.2 := by
  rw [enumerate, mem_map]
  constructor
  · rintro ⟨x, hx, rfl⟩
    exact mem_zipIdx_iff_getElem?.mp hx
  · intro h
    exact ⟨r.swap, mem_zipIdx_iff_getElem?.mpr h, Prod.swap_swap r⟩

theorem nodup_fst_enumerate (pool : Pool) : (pool.enumerate.map Prod.fst).Nodup := by
  have hfst : pool.enumerate.map Prod.fst = range pool.transports.length := by
    rw [enumerate, map_map, range_eq_range']
    exact zipIdx_map_snd 0 pool.transports
  rw [hfst]
  exact nodup_range

theorem exists_answering_iff (pool : Pool) (query : Bytes) :
    (∃ r ∈ pool.enumerate, answers query r = true) ↔
      ∃ t ∈ pool.transports, (t.exchange query).isSome := by
  constructor
  · rintro ⟨r, hr, hans⟩
    exact ⟨r.2, mem_of_getElem? (mem_enumerate.mp hr), hans⟩
  · rintro ⟨t, ht, hans⟩
    obtain ⟨idx, hidx⟩ := mem_iff_getElem?.mp ht
    exact ⟨(idx, t), mem_enumerate.mpr hidx, hans⟩

theorem isSome_climb_iff (query : Bytes) (rungs : List (ℕ × Transport)) (pool : Pool) :
    (climb query rungs pool).1.isSome ↔ ∃ r ∈ rungs, answers query r = true := by
  rw [climb_fst, findSome?_isSome_iff]
  rfl

/-- A ladder over distinct rungs of the pool notes each transport once and names its winner; it
keeps the contract exactly when it has an answering rung whenever the pool has one. -/
theorem contract_climb_iff {pool start : Pool} {query : Bytes} {rungs : List (ℕ × Transport)}
    (htries : start.tries = pool.tries) (hmem : ∀ r ∈ rungs, r ∈ pool.enumerate)
    (hnodup : (rungs.map Prod.fst).Nodup) :
    Contract pool query (climb query rungs start) ↔
      ((∃ r ∈ pool.enumerate, answers query r = true) → ∃ r ∈ rungs, answers query r = true) := by
  constructor
  · intro h hpool
    rw [← isSome_climb_iff query rungs start, h.answered]
    exact (exists_answering_iff pool query).mp hpool
  · intro hall
    refine ⟨?_, ?_, ?_⟩
    · rw [isSome_climb_iff, ← exists_answering_iff]
      exact ⟨fun ⟨r, hr, hans⟩ => ⟨r, hmem r hr, hans⟩, hall⟩
    · obtain ⟨tried, happ, hpre⟩ := climb_tries query rungs start
      exact ⟨tried, htries ▸ happ, hnodup.sublist hpre.sublist⟩
    · intro bytes hbytes
      obtain ⟨r, hr, hwin, hex⟩ := climb_winner query rungs start hbytes
      exact ⟨r.1, r.2, hwin, mem_enumerate.mp (hmem r hr), hex⟩

/-! ### The plain ladders -/

theorem getElem?_enumerate (pool : Pool) (i : ℕ) :
    pool.enumerate[i]? = pool.transports[i]?.map (Prod.mk i) := by
  simp [enumerate, Function.comp_def]

theorem length_enumerate (pool : Pool) : pool.enumerate.length = pool.transports.length := by
  simp [enumerate]

/-- A walk around the ring is the list of the transports, rotated. -/
theorem ring_eq_rotate (pool : Pool) (start : ℕ) :
    pool.ring start = pool.enumerate.rotate start := by
  have hall : ∀ l : List (ℕ × Transport), (range l.length).filterMap (l[·]?) = l := by
    intro l
    induction l with
    | nil => rfl
    | cons x l ih => simp [range_succ_eq_map, filterMap_map, ih]
  have hlen := pool.length_enumerate
  rw [← hall (pool.enumerate.rotate start), length_rotate, hlen, ring]
  refine filterMap_congr fun i hi => ?_
  rw [getElem?_rotate (hlen ▸ mem_range.mp hi), getElem?_enumerate, hlen, Nat.add_comm]

theorem exchangeRoundRobin_eq (hpool : pool.transports ≠ []) (query : Bytes) :
    pool.exchangeRoundRobin query =
      climb query (pool.enumerate.rotate (pool.rrCursor % pool.transports.length))
        { pool with rrCursor := (pool.rrCursor + 1) % 2 ^ 64 } := by
  rw [exchangeRoundRobin, if_neg (by simpa using hpool), ← ring_eq_rotate]

theorem contract_exchangeRoundRobin (pool : Pool) (query : Bytes) :
    Contract pool query (pool.exchangeRoundRobin query) := by
  by_cases hpool : pool.transports = []
  · rw [exchangeRoundRobin, if_pos (by simpa using hpool)]
    refine ⟨?_, ⟨[], (append_nil _).symm, nodup_nil⟩, fun bytes h => by cases h⟩
    rw [hpool]
    simp
  · rw [exchangeRoundRobin_eq hpool]
    refine (contract_climb_iff (by rfl) (fun _ => mem_rotate.mp) ?_).mpr ?_
    · rw [map_rotate, nodup_rotate]
      exact nodup_fst_enumerate pool
    · rintro ⟨r, hr, hans⟩
      exact ⟨r, mem_rotate.mpr hr, hans⟩

/-! ### The routed ladder -/

/-- The rungs of the routed ladder: the first transport with the id, then those with another. -/
def routed (pool : Pool) (upstreamId : Str) : List (ℕ × Transport) :=
  (pool.enumerate.find? fun r => r.2.id == upstreamId).toList ++
    pool.enumerate.filter fun r => !(r.2.id == upstreamId)

theorem climbOthers_eq (query : Bytes) (upstreamId : Str) (rungs : List (ℕ × Transport))
    (pool : Pool) :
    climbOthers query upstreamId rungs pool =
      climb query (rungs.filter fun r => !(r.2.id == upstreamId)) pool := by
  induction rungs generalizing pool with
  | nil => rfl
  | cons r rungs ih =>
    rw [climbOthers, filter_cons]
    by_cases hid : r.2.id = upstreamId
    · rw [if_pos hid, if_neg (by simp [hid]), ih]
    · rw [if_neg hid, if_pos (by simp [hid]), climb]
      cases hr : r.2.exchange query with
      | some response => rfl
      | none => exact ih _

theorem exchangeVia_eq (pool : Pool) (query : Bytes) (upstreamId : Str) :
    pool.exchangeVia query upstreamId = climb query (pool.routed upstreamId) pool := by
  rw [exchangeVia, routed]
  cases hfind : pool.enumerate.find? fun r => r.2.id == upstreamId with
  | none => exact climbOthers_eq query upstreamId _ pool
  | some r =>
    rw [Option.toList_some, singleton_append, climb]
    dsimp only
    cases hr : r.2.exchange query with
    | some response => rfl
    | none => exact climbOthers_eq query upstreamId _ _

theorem mem_routed {upstreamId : Str} (h : r ∈ pool.routed upstreamId) : r ∈ pool.enumerate := by
  rcases mem_append.mp h with h | h
  · exact mem_of_find?_eq_some (Option.mem_toList.mp h)
  · exact (mem_filter.mp h).1

theorem nodup_fst_routed (pool : Pool) (upstreamId : Str) :
    ((pool.routed upstreamId).map Prod.fst).Nodup := by
  have hothers : ((pool.enumerate.filter fun r => !(r.2.id == upstreamId)).map Prod.fst).Nodup :=
    (nodup_fst_enumerate pool).sublist (filter_sublist.map _)
  rw [routed]
  cases hfind : pool.enumerate.find? fun r => r.2.id == upstreamId with
  | none => exact hothers
  | some r =>
    rw [Option.toList_some, singleton_append, map_cons, nodup_cons]
    refine ⟨fun hmem => ?_, hothers⟩
    -- an index names one transport, and the fall-through has none with the id
    obtain ⟨r', hr', hidx⟩ := mem_map.mp hmem
    obtain ⟨hr', hid'⟩ := mem_filter.mp hr'
    have hid := find?_some hfind
    have hsame : r'.2 = r.2 := by
      have h1 := mem_enumerate.mp hr'
      rw [hidx, mem_enumerate.mp (mem_of_find?_eq_some hfind)] at h1
      exact (Option.some.inj h1).symm
    rw [hsame, hid] at hid'
    cases hid'

theorem mem_routed_of_nodup (hids : (pool.transports.map Transport.id).Nodup)
    (upstreamId : Str) (hr : r ∈ pool.enumerate) :
    r ∈ pool.routed upstreamId := by
  by_cases hid : r.2.id = upstreamId
  · obtain ⟨r', hfind⟩ : ∃ r', pool.enumerate.find? (fun r => r.2.id == upstreamId) = some r' := by
      rw [← Option.isSome_iff_exists, find?_isSome]
      exact ⟨r, hr, by simpa using hid⟩
    have hid' : r'.2.id = upstreamId := by simpa using find?_some hfind
    have hnodup : (pool.enumerate.map fun r => r.2.id).Nodup := by
      rw [← zipIdx_map_fst 0 pool.transports, map_map] at hids
      rw [enumerate, map_map]
      exact hids
    rw [inj_on_of_nodup_map hnodup hr (mem_of_find?_eq_some hfind) (hid.trans hid'.symm), routed,
      hfind]
    exact mem_append_left _ (Option.mem_toList.mpr rfl)
  · exact mem_append_right _ (mem_filter.mpr ⟨hr, by simpa using hid⟩)

/-- **The ladders keep the contract**: the plain one, the round robin, and with distinct ids the
routed one. -/
theorem ladders_keep_contract (pool : Pool) (query : Bytes) :
    Contract pool query (pool.exchange query) ∧
      Contract pool query (pool.exchangeRoundRobin query) ∧
      ((pool.transports.map Transport.id).Nodup →
        ∀ upstreamId, Contract pool query (pool.exchangeVia query upstreamId)) := by
  refine ⟨(contract_climb_iff rfl (fun _ hr => hr) (nodup_fst_enumerate pool)).mpr id,
    contract_exchangeRoundRobin pool query, fun hids upstreamId => ?_⟩
  rw [exchangeVia_eq, contract_climb_iff rfl (fun _ => mem_routed) (nodup_fst_routed pool _)]
  rintro ⟨r, hr, hans⟩
  exact ⟨r, mem_routed_of_nodup hids upstreamId hr, hans⟩

theorem find?_enumerate (pool : Pool) (upstreamId : Str) :
    (pool.enumerate.find? fun r => r.2.id == upstreamId).map Prod.snd =
      pool.transports.find? fun t => t.id == upstreamId := by
  have hsnd : pool.enumerate.map Prod.snd = pool.transports := by
    rw [enumerate, map_map]
    exact zipIdx_map_fst 0 pool.transports
  conv_rhs => rw [← hsnd, find?_map]
  rfl

/-- The routed ladder keeps its contract exactly when it cannot strand a query: should a transport
with the id answer, then the first one with the id does, or one with another id. -/
theorem exchangeVia_contract_iff (pool : Pool) (query : Bytes) (upstreamId : Str) :
    Contract pool query (pool.exchangeVia query upstreamId) ↔
      ∀ t ∈ pool.transports, t.id = upstreamId → (t.exchange query).isSome →
        ((pool.transports.find? fun p => p.id == upstreamId).any fun p =>
            (p.exchange query).isSome) ∨
          ∃ o ∈ pool.transports, o.id ≠ upstreamId ∧ (o.exchange query).isSome := by
  have hrungs : (∃ r ∈ pool.routed upstreamId, answers query r = true) ↔
      ((pool.transports.find? fun p => p.id == upstreamId).any fun p =>
          (p.exchange query).isSome) ∨
        ∃ o ∈ pool.transports, o.id ≠ upstreamId ∧ (o.exchange query).isSome := by
    rw [← find?_enumerate, routed]
    constructor
    · rintro ⟨r, hr, hans⟩
      rcases mem_append.mp hr with hr | hr
      · rw [Option.mem_toList.mp hr]
        exact .inl hans
      · obtain ⟨hmem, hid⟩ := mem_filter.mp hr
        exact .inr ⟨r.2, mem_of_getElem? (mem_enumerate.mp hmem), by simpa using hid, hans⟩
    · rintro (hfirst | ⟨o, ho, hid, hans⟩)
      · cases hfind : pool.enumerate.find? fun r => r.2.id == upstreamId with
        | none => simp [hfind] at hfirst
        | some r =>
          rw [hfind] at hfirst
          exact ⟨r, mem_append_left _ (Option.mem_toList.mpr rfl), hfirst⟩
      · obtain ⟨idx, hidx⟩ := mem_iff_getElem?.mp ho
        exact ⟨(idx, o), mem_append_right _ (mem_filter.mpr
          ⟨mem_enumerate.mpr hidx, by simpa using hid⟩), hans⟩
  rw [exchangeVia_eq, contract_climb_iff rfl (fun _ => mem_routed) (nodup_fst_routed pool _),
    exists_answering_iff, hrungs]
  constructor
  · exact fun h t ht _ hans => h ⟨t, ht, hans⟩
  · rintro h ⟨t, ht, hans⟩
    by_cases hid : t.id = upstreamId
    · exact h t ht hid hans
    · exact .inr ⟨t, ht, hid, hans⟩

/-- Two upstreams without an id of their own are both called `doh`; when the first one is down, a
name that is routed to `doh` gets no answer from the second. -/
theorem second_doh_is_stranded :
    let live : Transport := ⟨"doh".toList, fun _ => some [1]⟩
    let pool := new [⟨"doh".toList, fun _ => none⟩, live]
    live ∈ pool.transports ∧ (live.exchange []).isSome ∧
      (pool.exchangeVia [] "doh".toList).1 = none :=
  ⟨mem_cons_of_mem _ mem_cons_self, rfl, rfl⟩

end Pool
end Resolver
end TortaCore
