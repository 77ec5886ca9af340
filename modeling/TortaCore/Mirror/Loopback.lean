import TortaCore.Mirror.Flight
import TortaCore.Mirror.Route

/-!
# The live loopback

`server::run_shared`.  A request is gated by its verb, routed, and then answered at once, or it
awaits `fetch_absorb` or a call of `serve_addressed`.  The steps of the machine are the parts
between two awaits, in any interleaving, with the operations on the cloaked hosts and other uses
of the store among them.  What the outside sees of a step is a separate function, `events`.

## Main definitions

* `decision`: what the handler does with the verdict of the router.
* `step`, `events`, `apply`: the machine and its log.
-/

namespace TortaCore
namespace Mirror

open Text Store Machine List CloakPlane
open TortaCore.Runtime

/-- The bytes of a served asset. -/
def ServeOutcome.bytes? : ServeOutcome → Option Bytes
  | .served bytes | .leakedThenServed bytes => some bytes
  | _ => none

namespace Loopback

variable {H : Bytes → ContentHash}

/-! ### The code -/

inductive Verb where
  | get
  | head
  | other
  deriving DecidableEq

def isServableMethod : Verb → Bool
  | .get | .head => true
  | .other => false

/-- What `run_shared` is started with.  The fetch context is known by its mode. -/
structure Server where
  config : Config
  fetch : Option CacheMode

/-- Where a request stands. -/
inductive Stage where
  | absorbing (name : Str)
  | addressed (hash : ContentHash) (call : ℕ)
  | answered (outcome : ServeOutcome)
  | methodNotAllowed
  | dropped

structure Job where
  request : Request
  stage : Stage

/-- What the outside sees: fetches of the absorb lane that start and that deliver, promoted hosts
that are answered without bytes, and the hosts of a promotion. -/
inductive Event where
  | absorbStarted (name : Str)
  | absorbDelivered (name : Str)
  | unserved (host : Str)
  | promoted (hosts : List Str)
  deriving DecidableEq

/-- The calls of `serve_addressed` with the store, the cloaked hosts, the bindings, the requests,
and the log. -/
structure State (H : Bytes → ContentHash) where
  flight : Flight.State H
  plane : CloakPlane
  index : AbsorbIndex
  jobs : List Job
  log : List Event

namespace State

def start (cache : Backed H) (plane : CloakPlane) (index : AbsorbIndex) : State H :=
  ⟨.start cache, plane, index, [], []⟩

def store (s : State H) : CacheStore H := s.flight.cache.store

def addJob (s : State H) (r : Request) (stage : Stage) : State H :=
  { s with jobs := s.jobs ++ [⟨r, stage⟩] }

def setStage (s : State H) (j : ℕ) (r : Request) (stage : Stage) : State H :=
  { s with jobs := s.jobs.set j ⟨r, stage⟩ }

/-- The end of the absorb leg: the bytes are admitted under their own address and bound. -/
def absorb (s : State H) (fault : Option IoFault) (name : Str) (reply : Option Bytes) :
    ServeOutcome × State H :=
  match reply with
  | none => (.cacheMiss zeroHash, s)
  | some bytes =>
    let r := s.flight.cache.insertVerified fault (H bytes) bytes
    let flight := Flight.apply s.flight (.cache (.insert fault (H bytes) bytes))
    match r.1.bind fun _ => r.2.store.get (H bytes) with
    | some e =>
      (.leakedThenServed e.bytes,
        { s with flight := flight, index := (s.index.remember name (H bytes)).2 })
    | none => (.cacheMiss (H bytes), { s with flight := flight })

end State

/-- What the handler does before its first await. -/
inductive Decision where
  | answer (outcome : ServeOutcome)
  | absorb (name : Str)
  | address (mode : CacheMode) (hash : ContentHash)

def decision (srv : Server) (s : State H) (r : Request) : Decision :=
  match routeHostAware srv.config ⟨s.plane, s.index⟩ s.store r.hostHeader r.target.path,
    srv.fetch with
  | .absorbMiss name, some _ =>
    match r.absorbUrl with
    | some _ => .absorb name
    | none => .answer (.cacheMiss zeroHash)
  | .cacheMiss hash, some mode =>
    match upstreamUrlFor srv.config.maps (hostWithoutPort r.hostHeader) r.target.path with
    | some _ => .address mode hash
    | none => .answer (.cacheMiss hash)
  | outcome, _ => .answer outcome

/-- What the verdict of a call is answered with. -/
def outcomeOf (hash : ContentHash) : ServeVerdict → ServeOutcome
  | .servedLocal bytes => .served bytes
  | .leakedThenServed bytes => .leakedThenServed bytes
  | _ => .cacheMiss hash

/-- A request arrives; a fetch of the absorb lane returns; a call of `serve_addressed` makes its
next access, has its reply, or is done; a connection is dropped; the cloaked hosts change; the
store is used elsewhere. -/
inductive Act where
  | request (verb : Verb) (r : Request)
  | absorbed (reply : Option Bytes) (fault : Option IoFault) (j : ℕ)
  | call (fault : Option IoFault) (i : ℕ)
  | reply (bytes : Option Bytes) (i : ℕ)
  | finish (j : ℕ)
  | drop (j : ℕ)
  | cloak (op : CloakOp)
  | cache (c : Backed.CacheCall)

def step (srv : Server) (s : State H) : Act → State H
  | .request verb r =>
    if isServableMethod verb then
      match decision srv s r with
      | .answer outcome => s.addJob r (.answered outcome)
      | .absorb name => s.addJob r (.absorbing name)
      | .address mode hash =>
        { s with flight := Flight.apply s.flight (.call mode hash) }.addJob r
          (.addressed hash s.flight.tasks.length)
    else s.addJob r .methodNotAllowed
  | .absorbed reply fault j =>
    match s.jobs[j]? with
    | some ⟨r, .absorbing name⟩ =>
      (s.absorb fault name reply).2.setStage j r (.answered (s.absorb fault name reply).1)
    | _ => s
  | .call fault i => { s with flight := Flight.apply s.flight (.step fault i) }
  | .reply bytes i => { s with flight := Flight.apply s.flight (.reply bytes i) }
  | .finish j =>
    match s.jobs[j]? with
    | some ⟨r, .addressed hash i⟩ =>
      match (s.flight.tasks[i]?).map Flight.Task.phase with
      | some (.done verdict) => s.setStage j r (.answered (outcomeOf hash verdict))
      | _ => s
    | _ => s
  | .drop j =>
    match s.jobs[j]? with
    | some ⟨r, .absorbing _⟩ => s.setStage j r .dropped
    | some ⟨r, .addressed _ i⟩ =>
      -- a call is dropped only where it awaits
      match (s.flight.tasks[i]?).map Flight.Task.phase with
      | some (.waiting _) | some (.fetching _) =>
        { s with flight := Flight.apply s.flight (.cancel i) }.setStage j r .dropped
      | _ => s
    | _ => s
  | .cloak op => { s with plane := s.plane.apply srv.config.maps op }
  | .cache c => { s with flight := Flight.apply s.flight (.cache c) }

/-! ### What the outside sees -/

def isAbsorbLane : Lane → Bool
  | .absorb _ => true
  | _ => false

/-- The host of a request of the absorb lane that the step answers without bytes. -/
def unserved? (srv : Server) (s : State H) : Act → Option Str
  | .request verb r =>
    match decision srv s r with
    | .answer outcome =>
      if isServableMethod verb && isAbsorbLane (r.lane srv.config s.plane) &&
          outcome.bytes?.isNone then
        some (hostWithoutPort r.hostHeader)
      else none
    | _ => none
  | .absorbed reply fault j =>
    match s.jobs[j]? with
    | some ⟨r, .absorbing name⟩ =>
      if (s.absorb fault name reply).1.bytes?.isNone then some (hostWithoutPort r.hostHeader)
      else none
    | _ => none
  | _ => none

/-- The fetches of the absorb lane that the step starts or ends. -/
def absorbEvents (srv : Server) (s : State H) : Act → List Event
  | .request verb r =>
    match decision srv s r with
    | .absorb name => if isServableMethod verb then [.absorbStarted name] else []
    | _ => []
  | .absorbed (some _) _ j =>
    match s.jobs[j]? with
    | some ⟨_, .absorbing name⟩ => [.absorbDelivered name]
    | _ => []
  | _ => []

def cloakEvents (srv : Server) (s : State H) : Act → List Event
  | .cloak (.publishPromotedCloak hosts) =>
    [.promoted (s.plane.publishPromotedCloak srv.config.maps hosts).promoted.hosts]
  | _ => []

def events (srv : Server) (s : State H) (a : Act) : List Event :=
  (unserved? srv s a).toList.map .unserved ++ (absorbEvents srv s a ++ cloakEvents srv s a)

def apply (srv : Server) (s : State H) (a : Act) : State H :=
  { step srv s a with log := events srv s a ++ s.log }

def run (srv : Server) (s : State H) (acts : List Act) : State H := acts.foldl (apply srv) s

/-! ### The absorb lane -/

theorem serveShared_ne_absorbMiss {catalog : Catalog} {cache : CacheStore H} {name name' : Str} :
    serveShared catalog cache name ≠ .absorbMiss name' := by
  fun_cases serveShared with
  | _ => exact fun h => by cases h

variable {name : Str} {r : Request} {s : State H} {srv : Server} {a : Act} {maps : List ResourceMap}
  {fault : Option IoFault} {host : Str}

/-- The router answers a miss of the absorb lane for a name that is not bound, and only then. -/
theorem routeHostAware_eq_absorbMiss_iff {c : Config} {g : Shared} {cache : CacheStore H}
    :
    routeHostAware c g cache r.hostHeader r.target.path = .absorbMiss name ↔
      r.lane c g.plane = .absorb name ∧ bound? g.index cache name = none := by
  rw [routeHostAware, routeHostAwareTraced_eq]
  change ((r.lane c g.plane).outcome c g.index cache).1 = _ ↔ _
  cases r.lane c g.plane with
  | absorb n =>
    dsimp only [Lane.outcome]
    rw [Lane.absorb.injEq]
    cases hb : bound? g.index cache n with
    | some e =>
      simp only [Option.map_some, Option.getD_some, reduceCtorEq, false_iff, not_and]
      rintro rfl
      simp [hb]
    | none =>
      simp only [Option.map_none, Option.getD_none, ServeOutcome.absorbMiss.injEq]
      exact ⟨fun h => ⟨h, h ▸ hb⟩, And.left⟩
  | blocked => simp [Lane.outcome]
  | asset res => simp [Lane.outcome, serveShared_ne_absorbMiss]
  | uncovered => simp [Lane.outcome]
  | path n => simp [Lane.outcome, serveShared_ne_absorbMiss]

/-- A bound name is served from the store. -/
theorem decision_of_bound {e : CacheEntry H} (hlane : r.lane srv.config s.plane = .absorb name)
    (hbound : bound? s.index s.store name = some e) :
    decision srv s r = .answer (.served e.bytes) := by
  have hroute : routeHostAware srv.config ⟨s.plane, s.index⟩ s.store r.hostHeader r.target.path =
      .served e.bytes := by
    rw [routeHostAware, routeHostAwareTraced_eq]
    change ((r.lane srv.config s.plane).outcome srv.config s.index s.store).1 = _
    rw [hlane, Lane.outcome, hbound]
    rfl
  rw [decision, hroute]

/-- A name that is not bound is fetched, if there is a context and a URL. -/
theorem decision_of_unbound (hlane : r.lane srv.config s.plane = .absorb name)
    (hbound : bound? s.index s.store name = none) :
    decision srv s r =
      if srv.fetch.isSome then
        if r.absorbUrl.isSome then .absorb name else .answer (.cacheMiss zeroHash)
      else .answer (.absorbMiss name) := by
  have hroute : routeHostAware srv.config ⟨s.plane, s.index⟩ s.store r.hostHeader r.target.path =
      .absorbMiss name := routeHostAware_eq_absorbMiss_iff.mpr ⟨hlane, hbound⟩
  rw [decision, hroute]
  cases srv.fetch with
  | none => rfl
  | some mode =>
    cases r.absorbUrl with
    | none => rfl
    | some url => rfl

/-- When the handler starts a fetch of the absorb lane. -/
theorem decision_eq_absorb_iff :
    decision srv s r = .absorb name ↔
      r.lane srv.config s.plane = .absorb name ∧ bound? s.index s.store name = none ∧
        srv.fetch.isSome = true ∧ r.absorbUrl.isSome = true := by
  constructor
  · fun_cases decision with
    | case1 _ _ hfetch hmiss _ hurl =>
      rintro ⟨⟩
      obtain ⟨hlane, hbound⟩ := routeHostAware_eq_absorbMiss_iff.mp hmiss
      exact ⟨hlane, hbound, by rw [hfetch]; rfl, by rw [hurl]; rfl⟩
    | _ => exact fun h => by cases h
  · rintro ⟨hlane, hbound, hfetch, hurl⟩
    rw [decision_of_unbound hlane hbound, if_pos hfetch, if_pos hurl]

theorem decision_eq_address {mode : CacheMode}
    {hash : ContentHash} (h : decision srv s r = .address mode hash) : srv.fetch = some mode := by
  revert h
  fun_cases decision with
  | case3 _ _ hfetch =>
    rintro ⟨⟩
    exact hfetch
  | _ => exact fun h => by cases h

/-! ### What a step can do -/

/-- Request `j` awaits the fetch for the name. -/
def Pending (s : State H) (name : Str) (j : ℕ) : Prop :=
  ∃ r, s.jobs[j]? = some ⟨r, .absorbing name⟩

theorem pending_addJob {stage : Stage} {j : ℕ} (h : Pending (s.addJob r stage) name j) :
    Pending s name j ∨ (j = s.jobs.length ∧ stage = .absorbing name) := by
  obtain ⟨r', h⟩ := h
  rcases Flight.eq_or_of_getElem?_concat h with h | ⟨hj, heq⟩
  · exact .inl ⟨r', h⟩
  · cases heq
    exact .inr ⟨hj, rfl⟩

theorem pending_setStage {stage : Stage} {i j : ℕ}
    (hstage : stage ≠ .absorbing name) (h : Pending (s.setStage i r stage) name j) :
    i ≠ j ∧ Pending s name j := by
  obtain ⟨r', h⟩ := h
  rcases Flight.eq_or_of_getElem?_set h with ⟨-, heq⟩ | ⟨hij, h⟩
  · cases heq
    exact absurd rfl hstage
  · exact ⟨hij, r', h⟩

/-- The flow makes one of its own steps at most, and a new call has the mode of the context. -/
def Flows (fetch : Option CacheMode) (f f' : Flight.State H) : Prop :=
  f' = f ∨ ∃ fa : Flight.Act, f' = Flight.apply f fa ∧ fa.InMode fetch

/-- The end of a fetch uses the store and leaves the cloaked hosts and the requests. -/
theorem State.absorb_leaves (fetch : Option CacheMode) (s : State H) (fault : Option IoFault)
    (name : Str) (reply : Option Bytes) :
    Flows fetch s.flight (s.absorb fault name reply).2.flight ∧
      (s.absorb fault name reply).2.plane = s.plane ∧
      (s.absorb fault name reply).2.jobs = s.jobs := by
  cases reply with
  | none => exact ⟨.inl rfl, rfl, rfl⟩
  | some bytes =>
    have hinsert : Flows fetch s.flight
        (Flight.apply s.flight (.cache (.insert fault (H bytes) bytes))) :=
      .inr ⟨_, rfl, trivial⟩
    simp only [State.absorb]
    split
    · exact ⟨hinsert, rfl, rfl⟩
    · exact ⟨hinsert, rfl, rfl⟩

/-- **All that a step can do**: it starts a fetch of the absorb lane, ends one, or leaves the
bindings and adds no fetch. -/
theorem step_cases (srv : Server) (s : State H) (a : Act) :
    (∃ verb r name, a = .request verb r ∧ isServableMethod verb = true ∧
      decision srv s r = .absorb name ∧ step srv s a = s.addJob r (.absorbing name) ∧
      absorbEvents srv s a = [.absorbStarted name]) ∨
    (∃ reply fault j r name, a = .absorbed reply fault j ∧
      s.jobs[j]? = some ⟨r, .absorbing name⟩ ∧ step srv s a =
        (s.absorb fault name reply).2.setStage j r (.answered (s.absorb fault name reply).1) ∧
      absorbEvents srv s a = if reply.isSome then [.absorbDelivered name] else []) ∨
    ((step srv s a).index = s.index ∧ Flows srv.fetch s.flight (step srv s a).flight ∧
      ((∀ op, a ≠ .cloak op) → (step srv s a).plane = s.plane) ∧
      (∀ name j, Pending (step srv s a) name j → Pending s name j) ∧
      absorbEvents srv s a = []) := by
  have hadd : ∀ {r stage}, (∀ name, stage ≠ .absorbing name) → ∀ {s' : State H} name j,
      s'.jobs = s.jobs → Pending (s'.addJob r stage) name j → Pending s name j := by
    intro r stage hstage s' name j hjobs h
    rcases pending_addJob h with h | ⟨-, heq⟩
    · rwa [Pending, hjobs] at h
    · exact absurd heq (hstage name)
  have hset : ∀ {i r stage}, (∀ name, stage ≠ .absorbing name) → ∀ {s' : State H} name j,
      s'.jobs = s.jobs → Pending (s'.setStage i r stage) name j → Pending s name j := by
    intro i r stage hstage s' name j hjobs h
    have h' := (pending_setStage (hstage name) h).2
    rwa [Pending, hjobs] at h'
  cases a with
  | request verb r =>
    simp only [step, absorbEvents]
    cases hverb : isServableMethod verb with
    | false =>
      refine .inr (.inr ⟨rfl, .inl rfl, fun _ => rfl,
        fun name j h => hadd (by simp) name j rfl h, ?_⟩)
      split <;> rfl
    | true =>
      cases hdec : decision srv s r with
      | answer outcome =>
        exact .inr (.inr ⟨rfl, .inl rfl, fun _ => rfl,
          fun name j h => hadd (by simp) name j rfl h, rfl⟩)
      | absorb name => exact .inl ⟨verb, r, name, rfl, hverb, hdec, rfl, rfl⟩
      | address mode hash =>
        exact .inr (.inr ⟨rfl, .inr ⟨.call mode hash, rfl, decision_eq_address hdec⟩,
          fun _ => rfl, fun name j h => hadd (by simp) name j rfl h, rfl⟩)
  | absorbed reply fault j =>
    cases hjob : s.jobs[j]? with
    | none =>
      refine .inr (.inr ?_)
      cases reply <;> simp [step, absorbEvents, hjob, Flows]
    | some job =>
      obtain ⟨r, stage⟩ := job
      cases stage with
      | absorbing name =>
        refine .inr (.inl ⟨reply, fault, j, r, name, rfl, hjob, ?_, ?_⟩)
        · simp only [step, hjob]
        · cases reply <;> simp [absorbEvents, hjob]
      | _ =>
        refine .inr (.inr ?_)
        cases reply <;> simp [step, absorbEvents, hjob, Flows]
  | call fault i =>
    exact .inr (.inr ⟨rfl, .inr ⟨.step fault i, rfl, trivial⟩, fun _ => rfl, fun _ _ h => h, rfl⟩)
  | reply bytes i =>
    exact .inr (.inr ⟨rfl, .inr ⟨.reply bytes i, rfl, trivial⟩, fun _ => rfl, fun _ _ h => h, rfl⟩)
  | finish j =>
    refine .inr (.inr ?_)
    simp only [step, absorbEvents, and_true]
    split
    · split
      · exact ⟨rfl, .inl rfl, fun _ => rfl, fun name j h => hset (by simp) name j rfl h⟩
      · exact ⟨rfl, .inl rfl, fun _ => rfl, fun _ _ h => h⟩
    · exact ⟨rfl, .inl rfl, fun _ => rfl, fun _ _ h => h⟩
  | drop j =>
    refine .inr (.inr ?_)
    simp only [step, absorbEvents, and_true]
    split
    · exact ⟨rfl, .inl rfl, fun _ => rfl, fun name j h => hset (by simp) name j rfl h⟩
    · next i _ =>
      have hcancel : Flows srv.fetch s.flight (Flight.apply s.flight (.cancel i)) :=
        .inr ⟨.cancel i, rfl, trivial⟩
      split
      · exact ⟨rfl, hcancel, fun _ => rfl, fun name j h => hset (by simp) name j rfl h⟩
      · exact ⟨rfl, hcancel, fun _ => rfl, fun name j h => hset (by simp) name j rfl h⟩
      · exact ⟨rfl, .inl rfl, fun _ => rfl, fun _ _ h => h⟩
    · exact ⟨rfl, .inl rfl, fun _ => rfl, fun _ _ h => h⟩
  | cloak op => exact .inr (.inr ⟨rfl, .inl rfl, fun h => absurd rfl (h op), fun _ _ h => h, rfl⟩)
  | cache c =>
    exact .inr (.inr ⟨rfl, .inr ⟨.cache c, rfl, trivial⟩, fun _ => rfl, fun _ _ h => h, rfl⟩)

theorem flows_apply (srv : Server) (s : State H) (a : Act) :
    Flows srv.fetch s.flight (apply srv s a).flight := by
  rw [apply]
  rcases step_cases srv s a with ⟨_, _, _, -, -, -, hstep, -⟩ |
    ⟨reply, fault, _, _, name, -, -, hstep, -⟩ | ⟨-, hflow, -⟩
  · rw [hstep]
    exact .inl rfl
  · rw [hstep]
    exact (s.absorb_leaves srv.fetch fault name reply).1
  · exact hflow

theorem plane_apply (ha : ∀ op, a ≠ .cloak op) : (apply srv s a).plane = s.plane := by
  rw [apply]
  rcases step_cases srv s a with ⟨_, _, _, -, -, -, hstep, -⟩ |
    ⟨reply, fault, _, _, name, -, -, hstep, -⟩ | ⟨-, -, hplane, -⟩
  · rw [hstep]
    rfl
  · rw [hstep]
    exact (s.absorb_leaves srv.fetch fault name reply).2.1
  · exact hplane ha

theorem store_extends_apply (srv : Server) (s : State H) (a : Act) :
    s.store.Extends (apply srv s a).store := by
  rw [State.store, State.store]
  rcases flows_apply srv s a with heq | ⟨fa, heq, -⟩
  · rw [heq]
    exact .refl _
  · rw [heq]
    exact Flight.store_extends_apply s.flight fa

/-! ### A request for the script of a promoted host -/

/-- The script's host is promoted, nothing is bound, and the store is empty. -/
def scriptStart : State fun _ => zeroHash :=
  .start ⟨.new _, fun _ _ => none⟩ discoveredPlane .empty

/-- As long as the script is not bound, a request for it starts a fetch, in either mode. -/
theorem apply_scriptRequest (hmaps : discoveredHost ∉ maps.map ResourceMap.host) (mode : CacheMode)
    (hplane : s.plane = discoveredPlane) (hindex : s.index = .empty) :
    apply ⟨.plain maps, some mode⟩ s (.request .get (scriptRequest none)) =
      { s.addJob (scriptRequest none) (.absorbing scriptName) with
        log := .absorbStarted scriptName :: s.log } := by
  have hdec : decision ⟨.plain maps, some mode⟩ s (scriptRequest none) = .absorb scriptName := by
    refine decision_eq_absorb_iff.mpr ⟨?_, ?_, rfl, ?_⟩
    · rw [hplane]
      exact lane_scriptRequest hmaps none
    · rw [hindex]
      rfl
    · rfl
  simp [apply, step, events, unserved?, absorbEvents, cloakEvents, hdec, isServableMethod]

/-! ### The strict mode -/

/-- No fetch has started, in either lane. -/
def NoFetch (s : State H) : Prop :=
  (∀ hash, .fetchStarted hash ∉ s.flight.log) ∧ ∀ name, .absorbStarted name ∉ s.log

/-- The step is not a request for an asset of a promoted host that is not bound yet. -/
def StaysLocal (c : Config) (s : State H) : Act → Prop
  | .request verb r => isServableMethod verb = true → ∀ name, r.lane c s.plane = .absorb name →
      bound? s.index s.store name = none → r.absorbUrl = none
  | _ => True

theorem absorbStarted_mem_events :
    .absorbStarted name ∈ events srv s a ↔
      ∃ verb r, a = .request verb r ∧ isServableMethod verb = true ∧
        decision srv s r = .absorb name := by
  have hcloak : .absorbStarted name ∉ cloakEvents srv s a := by
    unfold cloakEvents
    split <;> simp
  rw [events, mem_append, mem_append, mem_map]
  constructor
  · rintro (⟨host, -, heq⟩ | h | h)
    · cases heq
    · rcases step_cases srv s a with ⟨verb, r, n, rfl, hverb, hdec, -, hev⟩ |
        ⟨reply, _, _, _, n, -, -, -, hev⟩ | ⟨-, -, -, -, hev⟩
      · rw [hev] at h
        cases mem_singleton.mp h
        exact ⟨verb, r, rfl, hverb, hdec⟩
      · rw [hev] at h
        cases reply <;> simp at h
      · rw [hev] at h
        cases h
    · exact absurd h hcloak
  · rintro ⟨verb, r, rfl, hverb, hdec⟩
    refine .inr (.inl ?_)
    simp [absorbEvents, hdec, hverb]

/-- **The strict mode and the absorb lane.**  A run of a server in the strict mode starts no fetch
if and only if none of its steps is a request for an asset of a promoted host that is not bound and
has a URL: the mode is asked in the lane of the catalog only. -/
theorem strict_starts_no_fetch_iff (c : Config) (cache : Backed H) (plane : CloakPlane)
    (index : AbsorbIndex) (acts : List Act) :
    Throughout (apply ⟨c, some .blockMissing⟩) NoFetch (.start cache plane index) acts ↔
      Along (apply ⟨c, some .blockMissing⟩) (StaysLocal c) (.start cache plane index) acts := by
  have hflight : ∀ (s : State H) a, Flight.Strict s.flight →
      Flight.Strict (apply ⟨c, some .blockMissing⟩ s a).flight ∧
        (apply ⟨c, some .blockMissing⟩ s a).flight.log = s.flight.log := by
    intro s a hs
    rcases flows_apply ⟨c, some .blockMissing⟩ s a with heq | ⟨fa, heq, hmode⟩
    · rw [heq]
      exact ⟨hs, rfl⟩
    · rw [heq]
      exact Flight.strict_apply hs hmode
  refine throughout_iff_along (I := fun s => Flight.Strict s.flight)
    (fun s a hs => (hflight s a hs).1) ?_ (fun t ht => (by cases ht))
    ⟨fun hash h => (by cases h), fun name h => (by cases h)⟩
  intro s a hs ⟨hlocal, hlog⟩
  constructor
  · rintro ⟨-, hnew⟩
    cases a with
    | request verb r =>
      intro hverb name hlane hbound
      by_contra hurl
      refine hnew name (mem_append_left _ ?_)
      refine absorbStarted_mem_events.mpr ⟨verb, r, rfl, hverb, ?_⟩
      exact decision_eq_absorb_iff.mpr ⟨hlane, hbound, rfl, Option.isSome_iff_ne_none.mpr hurl⟩
    | _ => trivial
  · intro hstay
    refine ⟨fun hash => ?_, fun name hmem => ?_⟩
    · rw [(hflight s a hs).2]
      exact hlocal hash
    · rcases mem_append.mp hmem with hmem | hmem
      · obtain ⟨verb, r, rfl, hverb, hdec⟩ := absorbStarted_mem_events.mp hmem
        obtain ⟨hlane, hbound, -, hurl⟩ := decision_eq_absorb_iff.mp hdec
        rw [hstay hverb name hlane hbound] at hurl
        cases hurl
      · exact hlog name hmem

/-- **The strict mode fetches.**  A request for the script of a promoted host starts a fetch of
its URL while the mode is the strict one. -/
theorem strict_mode_fetches_script :
    (scriptRequest none).absorbUrl = some ("https://".toList ++ scriptName) ∧
    ∀ maps : List ResourceMap, discoveredHost ∉ maps.map ResourceMap.host →
      .absorbStarted scriptName ∈ (apply ⟨.plain maps, some .blockMissing⟩ scriptStart
        (.request .get (scriptRequest none))).log := by
  refine ⟨absorbUrl_scriptRequest none, fun maps hmaps => ?_⟩
  rw [apply_scriptRequest hmaps .blockMissing rfl rfl]
  exact mem_cons_self

/-! ### One fetch for an absorbed asset -/

/-- A fetch starts only when none for the name is pending, and what it brings is admitted by the
store and bound. -/
def FetchesAlone (srv : Server) (s : State H) : Act → Prop
  | .request verb r => isServableMethod verb = true → ∀ name, decision srv s r = .absorb name →
      ∀ j, ¬ Pending s name j
  | .absorbed (some bytes) fault j => ∀ name, Pending s name j →
      bytes.length ≤ maxAssetBytes ∧
      (s.store.contains (H bytes) = true ∨
        (s.store.len < s.store.capacity ∧ (s.store.dir = none ∨ fault = none))) ∧
      (s.index.rows.rows.length < maxBindings ∨ s.index.lookup name ≠ none)
  | _ => True

theorem lookup_remember {index : AbsorbIndex} (hash : ContentHash)
    (h : index.rows.rows.length < maxBindings ∨ index.lookup name ≠ none) (name' : Str) :
    (index.remember name hash).2.lookup name' =
      if name = name' then some hash else index.lookup name' := by
  rw [AbsorbIndex.lookup_eq, AbsorbIndex.lookup_eq]
  rw [AbsorbIndex.lookup_eq] at h
  rw [AbsorbIndex.remember, if_neg]
  · exact Dict.get?_set ..
  · rintro ⟨hfull, hnone⟩
    rcases h with hroom | hbound
    · omega
    · exact hbound hnone

theorem bound?_extends {index : AbsorbIndex} {cache cache' : CacheStore H}
    (hext : cache.Extends cache') (h : (bound? index cache name).isSome = true) :
    (bound? index cache' name).isSome = true := by
  obtain ⟨e, he⟩ := Option.isSome_iff_exists.mp h
  obtain ⟨hash, hlookup, hget⟩ := Option.bind_eq_some_iff.mp he
  rw [bound?, hlookup, Option.bind_some, hext hash e hget]
  rfl

/-- What is admitted and bound is found. -/
theorem absorb_of_admitted {bytes : Bytes} (name : Str) (hsize : bytes.length ≤ maxAssetBytes)
    (hstore : s.store.contains (H bytes) = true ∨
      (s.store.len < s.store.capacity ∧ (s.store.dir = none ∨ fault = none))) :
    ∃ e, (s.absorb fault name (some bytes)).2.store.get (H bytes) = some e ∧
      s.absorb fault name (some bytes) = (.leakedThenServed e.bytes,
        { s with
          flight := Flight.apply s.flight (.cache (.insert fault (H bytes) bytes))
          index := (s.index.remember name (H bytes)).2 }) := by
  have hfst : (s.flight.cache.insertVerified fault (H bytes) bytes).1 = some (H bytes) :=
    Backed.insertVerified_fst hsize hstore
  have hin := Backed.contains_of_insertVerified hfst
  obtain ⟨e, he⟩ := Option.isSome_iff_exists.mp hin
  have hget : (s.flight.cache.insertVerified fault (H bytes) bytes).2.store.get (H bytes) =
      some e := he
  simp only [State.absorb, hfst, Option.bind_some, hget]
  exact ⟨e, he, rfl⟩

theorem count_absorb_apply (srv : Server) (s : State H) (a : Act) {e : Event}
    (he : ∀ host, e ≠ .unserved host) (he' : ∀ hosts, e ≠ .promoted hosts) :
    (apply srv s a).log.count e = (absorbEvents srv s a).count e + s.log.count e := by
  have hunserved : ((unserved? srv s a).toList.map Event.unserved).count e = 0 := by
    rw [count_eq_zero, mem_map]
    rintro ⟨host, -, rfl⟩
    exact he host rfl
  have hcloak : (cloakEvents srv s a).count e = 0 := by
    rw [count_eq_zero]
    intro hmem
    unfold cloakEvents at hmem
    split at hmem
    · exact he' _ (mem_singleton.mp hmem)
    · cases hmem
  rw [apply, events, count_append, count_append, count_append, hunserved, hcloak]
  omega

/-- What the log of the absorb lane keeps while every fetch is alone. -/
structure AbsorbedOnce (s : State H) : Prop where
  bound : ∀ name, .absorbDelivered name ∈ s.log → (bound? s.index s.store name).isSome = true
  pending : ∀ {name : Str} {j : ℕ}, Pending s name j → .absorbDelivered name ∉ s.log
  sole : ∀ {name : Str} {i j : ℕ}, Pending s name i → Pending s name j → i = j
  once : ∀ name, s.log.count (.absorbDelivered name) ≤ 1

theorem absorbedOnce_start (cache : Backed H) (plane : CloakPlane) (index : AbsorbIndex) :
    AbsorbedOnce (.start cache plane index : State H) where
  bound name h := by cases h
  pending h := by simp [Pending, State.start] at h
  sole h := by simp [Pending, State.start] at h
  once name := Nat.zero_le _

section Step

theorem count_delivered_apply (name : Str) :
    (apply srv s a).log.count (.absorbDelivered name) =
      (absorbEvents srv s a).count (.absorbDelivered name) +
        s.log.count (.absorbDelivered name) :=
  count_absorb_apply srv s a (by simp) (by simp)

/-- A step that delivers nothing adds nothing to the log of deliveries. -/
theorem delivered_mem_iff (hzero : ∀ n, .absorbDelivered n ∉ absorbEvents srv s a) (name : Str) :
    .absorbDelivered name ∈ (apply srv s a).log ↔ .absorbDelivered name ∈ s.log := by
  rw [← count_pos_iff, ← count_pos_iff, count_delivered_apply,
    count_eq_zero.mpr (hzero name), Nat.zero_add]

theorem AbsorbedOnce.count_le (h : AbsorbedOnce s)
    (hzero : ∀ n, .absorbDelivered n ∉ absorbEvents srv s a) (name : Str) :
    (apply srv s a).log.count (.absorbDelivered name) ≤ 1 := by
  rw [count_delivered_apply, count_eq_zero.mpr (hzero name), Nat.zero_add]
  exact h.once name

/-- A step that delivers nothing and leaves the bindings.  A fetch that it starts is for a name that
is not bound, and the only one. -/
theorem AbsorbedOnce.undelivered (h : AbsorbedOnce s)
    (hzero : ∀ n, .absorbDelivered n ∉ absorbEvents srv s a)
    (hindex : (apply srv s a).index = s.index)
    (hpend : ∀ n j, Pending (apply srv s a) n j → Pending s n j ∨
      (j = s.jobs.length ∧ bound? s.index s.store n = none ∧ ∀ i, ¬ Pending s n i)) :
    AbsorbedOnce (apply srv s a) := by
  refine ⟨fun n hn => ?_, fun {n j} hp hmem => ?_, fun {n i j} hi hj => ?_, h.count_le hzero⟩
  · rw [hindex]
    have hold := h.bound n ((delivered_mem_iff hzero n).mp hn)
    exact bound?_extends (store_extends_apply srv s a) hold
  · rw [delivered_mem_iff hzero] at hmem
    rcases hpend n j hp with hp | ⟨-, hbound, -⟩
    · exact h.pending hp hmem
    · have hb := h.bound n hmem
      rw [hbound] at hb
      cases hb
  · rcases hpend n i hi with hi | ⟨hi, -, halone⟩
    · rcases hpend n j hj with hj | ⟨-, -, halone⟩
      · exact h.sole hi hj
      · exact absurd hi (halone i)
    · rcases hpend n j hj with hj | ⟨hj, -⟩
      · exact absurd hj (halone j)
      · rw [hi, hj]

/-- A fetch delivers, and what it brings is admitted and bound.  It was the only one for its
name. -/
theorem AbsorbedOnce.deliver (h : AbsorbedOnce s) {name : Str} (hash : ContentHash) {j : ℕ}
    (hjob : Pending s name j) (hev : absorbEvents srv s a = [.absorbDelivered name])
    (hlookup : ∀ n, (apply srv s a).index.lookup n =
      if name = n then some hash else s.index.lookup n)
    (hget : (apply srv s a).store.contains hash = true)
    (hpend : ∀ n i, Pending (apply srv s a) n i → j ≠ i ∧ Pending s n i) :
    AbsorbedOnce (apply srv s a) := by
  have hnot := h.pending hjob
  have hmem_cases : ∀ n, .absorbDelivered n ∈ (apply srv s a).log →
      n = name ∨ .absorbDelivered n ∈ s.log := by
    intro n hn
    by_cases hne : n = name
    · exact .inl hne
    · right
      rw [← count_pos_iff, count_delivered_apply, hev] at hn
      simpa [Ne.symm hne] using hn
  refine ⟨fun n hn => ?_, fun {n i} hp hmem => ?_, fun {n i k} hi hk => ?_, fun n => ?_⟩
  · rw [bound?, hlookup]
    rcases hmem_cases n hn with rfl | hold
    · rw [if_pos rfl, Option.bind_some]
      exact hget
    · have hne : name ≠ n := fun heq => hnot (heq ▸ hold)
      rw [if_neg hne]
      exact bound?_extends (store_extends_apply srv s a) (h.bound n hold)
  · obtain ⟨hne, hp'⟩ := hpend n i hp
    rcases hmem_cases n hmem with rfl | hold
    · exact hne (h.sole hjob hp')
    · exact h.pending hp' hold
  · exact h.sole (hpend n i hi).2 (hpend n k hk).2
  · rw [count_delivered_apply, hev]
    by_cases hne : n = name
    · subst hne
      rw [count_eq_zero.mpr hnot]
      simp
    · simpa [Ne.symm hne] using h.once n

theorem absorbedOnce_apply (h : AbsorbedOnce s) (halone : FetchesAlone srv s a) :
    AbsorbedOnce (apply srv s a) := by
  rcases step_cases srv s a with ⟨verb, r, name, rfl, hverb, hdec, hstep, hev⟩ |
    ⟨reply, fault, j, r, name, rfl, hjob, hstep, hev⟩ | ⟨hindex, -, -, hpend, hev⟩
  · obtain ⟨-, hbound, -⟩ := decision_eq_absorb_iff.mp hdec
    refine h.undelivered (fun n => ?_) ?_ fun n j hp => ?_
    · rw [hev]
      simp
    · rw [apply, hstep]
      rfl
    · have hp' : Pending (s.addJob r (.absorbing name)) n j := by
        rw [← hstep]
        exact hp
      refine (pending_addJob hp').imp_right ?_
      rintro ⟨hj, heq⟩
      cases heq
      exact ⟨hj, hbound, halone hverb name hdec⟩
  · have hpend : ∀ n i, Pending (apply srv s (.absorbed reply fault j)) n i →
        j ≠ i ∧ Pending s n i := by
      intro n i hp
      have hp' : Pending ((s.absorb fault name reply).2.setStage j r
          (.answered (s.absorb fault name reply).1)) n i := by
        rw [← hstep]
        exact hp
      obtain ⟨hne, hp'⟩ := pending_setStage (by simp) hp'
      rw [Pending, (s.absorb_leaves srv.fetch fault name reply).2.2] at hp'
      exact ⟨hne, hp'⟩
    cases reply with
    | none =>
      refine h.undelivered (fun n => ?_) ?_ fun n i hp => .inl (hpend n i hp).2
      · rw [hev]
        simp
      · rw [apply, hstep]
        rfl
    | some bytes =>
      obtain ⟨hsize, hroom, hbind⟩ := halone name ⟨r, hjob⟩
      obtain ⟨e, hget, habsorb⟩ := absorb_of_admitted name hsize hroom
      refine h.deliver (H bytes) ⟨r, hjob⟩ hev (fun n => ?_) ?_ hpend
      · rw [← lookup_remember (H bytes) hbind, apply, hstep, habsorb]
        rfl
      · rw [apply, hstep]
        exact Option.isSome_of_eq_some hget
  · exact h.undelivered (fun n => by rw [hev]; simp) hindex fun n j hp => .inl (hpend n j hp)

end Step

/-- The name was delivered, and so many fetches for it have started. -/
structure Delivered (name : Str) (started : ℕ) (s : State H) : Prop where
  delivered : .absorbDelivered name ∈ s.log
  started_eq : s.log.count (.absorbStarted name) = started

theorem delivered_apply {started : ℕ} (ho : AbsorbedOnce s) (h : Delivered name started s) :
    Delivered name started (apply srv s a) := by
  refine ⟨mem_append_right _ h.delivered, ?_⟩
  rw [count_absorb_apply srv s a (by simp) (by simp), h.started_eq]
  have hbound := ho.bound name h.delivered
  rcases step_cases srv s a with ⟨verb, r, n, -, -, hdec, -, hev⟩ |
    ⟨reply, fault, j, r, n, -, -, -, hev⟩ | ⟨-, -, -, -, hev⟩
  · obtain ⟨-, hnone, -⟩ := decision_eq_absorb_iff.mp hdec
    have hne : n ≠ name := by
      rintro rfl
      rw [hnone] at hbound
      cases hbound
    rw [hev]
    simp [hne]
  · rw [hev]
    split
    · simp
    · simp
  · rw [hev]
    simp

/-- A request for a bound name is served from the store, and the outside sees nothing. -/
theorem apply_request_of_bound {verb : Verb}
    {e : CacheEntry H} (hverb : isServableMethod verb = true)
    (hlane : r.lane srv.config s.plane = .absorb name)
    (hbound : bound? s.index s.store name = some e) :
    apply srv s (.request verb r) = s.addJob r (.answered (.served e.bytes)) := by
  have hdec := decision_of_bound hlane hbound
  simp [apply, step, events, unserved?, absorbEvents, cloakEvents, hdec, hverb,
    ServeOutcome.bytes?, State.addJob]

/-- **One fetch for an absorbed asset.**  In every run in which a fetch of the absorb lane starts
only when none for its name is pending, and what it brings is admitted by the store and bound, a
name is delivered at most once; after it no fetch for the name starts, and every request for it is
served from the store. -/
theorem absorbed_once (srv : Server) (cache : Backed H) (plane : CloakPlane) (index : AbsorbIndex)
    (acts : List Act)
    (halone : Along (apply srv) (FetchesAlone srv) (.start cache plane index : State H) acts)
    (name : Str) :
    let start : State H := .start cache plane index
    let s := run srv start acts
    s.log.count (.absorbDelivered name) ≤ 1 ∧
    ∀ pre post, acts = pre ++ post → .absorbDelivered name ∈ (run srv start pre).log →
      s.log.count (.absorbStarted name) = (run srv start pre).log.count (.absorbStarted name) ∧
      ∀ verb r, isServableMethod verb = true → r.lane srv.config s.plane = .absorb name →
        ∃ e, bound? s.index s.store name = some e ∧
          apply srv s (.request verb r) = s.addJob r (.answered (.served e.bytes)) := by
  intro start s
  have hinv : ∀ {as : List Act}, Along (apply srv) (FetchesAlone srv) start as →
      AbsorbedOnce (run srv start as) := fun h =>
    h.invariant (I := AbsorbedOnce) (fun _ _ hs ha => absorbedOnce_apply hs ha)
      (absorbedOnce_start cache plane index)
  have hs := hinv halone
  refine ⟨hs.once name, ?_⟩
  rintro pre post rfl hmem
  obtain ⟨hpre, hpost⟩ := along_append.mp halone
  obtain ⟨started, hstarted⟩ :
      ∃ n, (run srv start pre).log.count (.absorbStarted name) = n := ⟨_, rfl⟩
  have hlater : AbsorbedOnce s ∧ Delivered name started s := by
    have hrun : s = post.foldl (apply srv) (run srv start pre) := foldl_append ..
    rw [hrun]
    exact hpost.invariant (I := fun s => AbsorbedOnce s ∧ Delivered name started s)
      (fun _ _ h ha => ⟨absorbedOnce_apply h.1 ha, delivered_apply h.1 h.2⟩)
      ⟨hinv hpre, hmem, hstarted⟩
  refine ⟨hlater.2.started_eq.trans hstarted.symm, fun verb r hverb hlane => ?_⟩
  obtain ⟨e, he⟩ := Option.isSome_iff_exists.mp (hs.bound name hlater.2.delivered)
  exact ⟨e, he, apply_request_of_bound hverb hlane he⟩

/-- The script is fetched and bound, and asked for once more. -/
theorem absorbed_once_script :
    let srv : Server := ⟨.plain [], some .leakOnMiss⟩
    let fetched : List Act :=
      [.request .get (scriptRequest none), .absorbed (some [118, 49]) none 0]
    let s := run srv scriptStart (fetched ++ [.request .get (scriptRequest none)])
    .absorbDelivered scriptName ∈ (run srv scriptStart fetched).log ∧
      s.log.count (.absorbDelivered scriptName) ≤ 1 ∧
      s.log.count (.absorbStarted scriptName) =
        (run srv scriptStart fetched).log.count (.absorbStarted scriptName) ∧
      (bound? s.index s.store scriptName).map CacheEntry.bytes = some [118, 49] ∧
      ∃ e, bound? s.index s.store scriptName = some e ∧
        apply srv s (.request .get (scriptRequest none)) =
          s.addJob (scriptRequest none) (.answered (.served e.bytes)) := by
  intro srv fetched s
  have hmaps : discoveredHost ∉ ([] : List ResourceMap).map ResourceMap.host := not_mem_nil
  have hlane := lane_scriptRequest hmaps none
  -- the states in front of the fetch, behind it, and behind the last request
  let s₀ : State fun _ => zeroHash :=
    { scriptStart.addJob (scriptRequest none) (.absorbing scriptName) with
      log := .absorbStarted scriptName :: scriptStart.log }
  let s₁ := apply srv s₀ (.absorbed (some [118, 49]) none 0)
  have hs₀ : apply srv scriptStart (.request .get (scriptRequest none)) = s₀ :=
    apply_scriptRequest hmaps .leakOnMiss rfl rfl
  have hs₁ : run srv scriptStart fetched = s₁ := by
    simp only [run, fetched, foldl_cons, foldl_nil, hs₀, s₁]
  have hs : s = s₁.addJob (scriptRequest none) (.answered (.served [118, 49])) := by
    have hlast : s = apply srv s₁ (.request .get (scriptRequest none)) := by
      rw [← hs₁]
      exact foldl_append ..
    rw [hlast]
    exact apply_request_of_bound (e := .new _ [118, 49]) rfl hlane rfl
  have halone : Along (apply srv) (FetchesAlone srv) scriptStart
      (fetched ++ [.request .get (scriptRequest none)]) := by
    refine ⟨fun _ name _ j hp => ?_, ?_, ?_, trivial⟩
    · simp [Pending, scriptStart, State.start] at hp
    · rw [hs₀]
      exact fun name _ => ⟨by decide, .inr (by decide), .inl (by decide)⟩
    · rw [hs₀]
      intro _ name _ j hp
      obtain ⟨r, hr⟩ := hp
      have hjobs : s₁.jobs = [⟨scriptRequest none, .answered (.leakedThenServed [118, 49])⟩] := rfl
      change s₁.jobs[j]? = _ at hr
      rw [hjobs] at hr
      cases mem_singleton.mp (mem_of_getElem? hr)
  have hdelivered : .absorbDelivered scriptName ∈ (run srv scriptStart fetched).log := by
    rw [hs₁]
    exact mem_append_left _ (mem_singleton_self _)
  obtain ⟨honce, hlater⟩ := absorbed_once srv ⟨.new _, fun _ _ => none⟩ discoveredPlane .empty
    (fetched ++ [.request .get (scriptRequest none)]) halone scriptName
  obtain ⟨hstarted, hserved⟩ := hlater fetched _ rfl hdelivered
  refine ⟨hdelivered, honce, hstarted, ?_, hserved .get _ rfl ?_⟩
  · rw [hs]
    rfl
  · change (scriptRequest none).lane srv.config s.plane = _
    rw [hs]
    exact hlane

theorem jobs_absorbed_other {reply : Option Bytes} {i j : ℕ} (hij : i ≠ j) :
    (apply srv s (.absorbed reply fault i)).jobs[j]? = s.jobs[j]? := by
  simp only [apply, step]
  split
  · rw [State.setStage, getElem?_set, if_neg hij, (s.absorb_leaves srv.fetch ..).2.2]
  · rfl

/-- Two requests for the script, each with its own fetch. -/
def twoRequests (bytes : Bytes) : List Act :=
  [.request .get (scriptRequest none), .request .get (scriptRequest none),
    .absorbed (some bytes) none 0, .absorbed (some bytes) none 1]

/-- **Two fetches for one name.**  Two requests that overlap are both delivered the script. -/
theorem overlapping_requests_fetch_twice :
    (scriptRequest none).absorbUrl = some ("https://".toList ++ scriptName) ∧
    ∀ maps : List ResourceMap, discoveredHost ∉ maps.map ResourceMap.host → ∀ bytes,
      (run ⟨.plain maps, some .leakOnMiss⟩ scriptStart (twoRequests bytes)).log.count
        (.absorbDelivered scriptName) = 2 := by
  refine ⟨absorbUrl_scriptRequest none, fun maps hmaps bytes => ?_⟩
  have hpending : ∀ {s : State fun _ => zeroHash} {fault j r},
      s.jobs[j]? = some ⟨r, .absorbing scriptName⟩ →
      (apply ⟨.plain maps, some .leakOnMiss⟩ s (.absorbed (some bytes) fault j)).log.count
        (.absorbDelivered scriptName) = 1 + s.log.count (.absorbDelivered scriptName) := by
    intro s fault j r hjob
    rw [count_absorb_apply _ _ _ (by simp) (by simp)]
    simp [absorbEvents, hjob]
  simp only [run, twoRequests, foldl_cons, foldl_nil]
  rw [apply_scriptRequest hmaps .leakOnMiss (s := scriptStart) rfl rfl,
    apply_scriptRequest hmaps .leakOnMiss rfl rfl, hpending, hpending]
  · simp [scriptStart, State.start]
  · rfl
  · exact (jobs_absorbed_other (by simp)).trans rfl

/-! ### Hosts that are handed back -/

/-- A promoted host was answered without bytes, and was not promoted since. -/
def Owed (maps : List ResourceMap) : List Event → Str → Prop
  | [], _ => False
  | .unserved h :: log, host =>
    (normalizeHost h = normalizeHost host ∧ normalizeHost host ∉ cdnHosts maps) ∨
      Owed maps log host
  | .promoted hosts :: log, host => normalizeHost host ∉ hosts ∧ Owed maps log host
  | _ :: log, host => Owed maps log host

/-- Every host that is owed it is out of the cloak. -/
def HandedBack (maps : List ResourceMap) (s : State H) : Prop :=
  ∀ host, Owed maps s.log host → s.plane.isCdnHost maps host = false

/-- The step answers no cloaked host of discovery without bytes, and does not forget the refusals
while a promoted host is owed its way out. -/
def KeepsHandedBack (srv : Server) (s : State H) (a : Act) : Prop :=
  (∀ host, unserved? srv s a = some host → normalizeHost host ∉ cdnHosts srv.config.maps →
    s.plane.isCdnHost srv.config.maps host = false) ∧
  (a = .cloak .clearTlsDistrust → ∀ host, Owed srv.config.maps s.log host →
    s.plane.isPromotedHost host = false)

theorem Owed.not_corpus : ∀ {log : List Event},
    Owed maps log host → normalizeHost host ∉ cdnHosts maps := by
  intro log
  induction log with
  | nil => exact False.elim
  | cons e log ih =>
    intro h
    cases e with
    | unserved x => exact h.elim And.right ih
    | promoted hosts => exact ih h.2
    | absorbStarted name => exact ih h
    | absorbDelivered name => exact ih h

theorem owed_absorbEvents {log : List Event} :
    Owed maps (absorbEvents srv s a ++ log) host ↔ Owed maps log host := by
  rcases step_cases srv s a with ⟨_, _, _, _, _, _, _, hev⟩ | ⟨_, _, _, _, _, _, _, _, hev⟩ |
    ⟨-, -, -, -, hev⟩
  · rw [hev]
    exact Iff.rfl
  · rw [hev]
    split
    · exact Iff.rfl
    · exact Iff.rfl
  · rw [hev]
    exact Iff.rfl

/-- What a step that leaves the cloaked hosts makes owed. -/
theorem owed_apply_iff (hcloak : cloakEvents srv s a = []) :
    Owed maps (apply srv s a).log host ↔
      (∃ h, unserved? srv s a = some h ∧ normalizeHost h = normalizeHost host ∧
        normalizeHost host ∉ cdnHosts maps) ∨ Owed maps s.log host := by
  rw [apply, events, hcloak, append_nil, append_assoc]
  cases hun : unserved? srv s a with
  | none => simp [owed_absorbEvents]
  | some h =>
    rw [Option.toList_some, map_singleton, singleton_append, Owed, owed_absorbEvents]
    simp

theorem owed_cloak_iff {op : CloakOp} (hop : ∀ hosts, op ≠ .publishPromotedCloak hosts) :
    Owed maps (apply srv s (.cloak op)).log host ↔ Owed maps s.log host := by
  have hcloak : cloakEvents srv s (.cloak op) = [] := by
    cases op with
    | publishPromotedCloak hosts => exact absurd rfl (hop hosts)
    | _ => rfl
  rw [owed_apply_iff hcloak]
  simp [unserved?]

theorem isCdnHost_congr {p : CloakPlane} {h host : Str}
    (heq : normalizeHost h = normalizeHost host) : p.isCdnHost maps h = p.isCdnHost maps host := by
  simp only [isCdnHost, heq]

/-- When the refusals are forgotten, a host of discovery is cloaked if it is promoted. -/
theorem isCdnHost_clear_iff {p : CloakPlane} (hcorpus : normalizeHost host ∉ cdnHosts maps) :
    (p.apply maps .clearTlsDistrust).isCdnHost maps host = false ↔
      p.isPromotedHost host = false := by
  rw [← Bool.not_eq_true, ← Bool.not_eq_true, isCdnHost_iff, isPromotedHost_iff]
  refine not_congr ⟨?_, ?_⟩
  · rintro ⟨hne, -, hmem⟩
    exact ⟨hne, hmem.resolve_left hcorpus⟩
  · rintro ⟨hne, hmem⟩
    exact ⟨hne, not_mem_nil, .inr hmem⟩

theorem handedBack_cloak_iff (op : CloakOp) (hs : HandedBack srv.config.maps s) :
    HandedBack srv.config.maps (apply srv s (.cloak op)) ↔ KeepsHandedBack srv s (.cloak op) := by
  have hkeeps : KeepsHandedBack srv s (.cloak op) ↔ (op = .clearTlsDistrust →
      ∀ host, Owed srv.config.maps s.log host → s.plane.isPromotedHost host = false) := by
    refine ⟨fun h hop => h.2 (by rw [hop]), fun h => ⟨fun host hun => ?_, fun heq => ?_⟩⟩
    · cases hun
    · cases heq
      exact h rfl
  rw [hkeeps]
  by_cases hpub : ∃ hosts, op = .publishPromotedCloak hosts
  · obtain ⟨hosts, rfl⟩ := hpub
    refine iff_of_true (fun host howed => ?_) (fun h => by cases h)
    have howed' : normalizeHost host ∉
        (s.plane.publishPromotedCloak srv.config.maps hosts).promoted.hosts ∧
        Owed srv.config.maps s.log host := howed
    rw [← Bool.not_eq_true, isCdnHost_iff]
    rintro ⟨-, -, hmem⟩
    exact howed'.1 (hmem.resolve_left howed'.2.not_corpus)
  · have howed : ∀ host, Owed srv.config.maps (apply srv s (.cloak op)).log host ↔
        Owed srv.config.maps s.log host :=
      fun host => owed_cloak_iff fun hosts heq => hpub ⟨hosts, heq⟩
    constructor
    · rintro h rfl host hold
      exact (isCdnHost_clear_iff hold.not_corpus).mp (h host ((howed host).mpr hold))
    · intro h host hnew
      have hold := (howed host).mp hnew
      exact isCdnHost_apply hold.not_corpus
        (fun hosts heq => absurd ⟨hosts, heq⟩ hpub) (fun heq => h heq host hold) (hs host hold)

/-- **Hosts that are handed back.**  In a run every promoted host that was answered without bytes
stays out of the cloak until it is promoted anew, if and only if no step answers a cloaked host of
discovery without bytes and none forgets the refusals while such a host is promoted: the loopback
itself hands back nobody. -/
theorem handed_back_iff (srv : Server) (cache : Backed H) (plane : CloakPlane)
    (index : AbsorbIndex) (acts : List Act) :
    Throughout (apply srv) (HandedBack srv.config.maps) (.start cache plane index : State H) acts ↔
      Along (apply srv) (KeepsHandedBack srv) (.start cache plane index : State H) acts := by
  refine throughout_iff_along (I := fun _ => True) (fun _ _ _ => trivial) ?_ trivial
    (fun host h => h.elim)
  intro s a _ hs
  by_cases hcloak : ∃ op, a = .cloak op
  · obtain ⟨op, rfl⟩ := hcloak
    exact handedBack_cloak_iff op hs
  · have hplane : (apply srv s a).plane = s.plane := plane_apply fun op heq => hcloak ⟨op, heq⟩
    have hev : cloakEvents srv s a = [] := by
      unfold cloakEvents
      split
      · next hosts => exact absurd ⟨_, rfl⟩ hcloak
      · rfl
    constructor
    · intro h
      refine ⟨fun host hun hcorpus => ?_, fun heq => absurd ⟨_, heq⟩ hcloak⟩
      rw [← hplane]
      exact h host ((owed_apply_iff hev).mpr (.inl ⟨host, hun, rfl, hcorpus⟩))
    · rintro ⟨hun, -⟩ host howed
      rw [hplane]
      rcases (owed_apply_iff hev).mp howed with ⟨h, hsome, heq, hcorpus⟩ | hold
      · rw [← isCdnHost_congr heq]
        exact hun h hsome (by rwa [heq])
      · exact hs host hold

/-- **A host that is not handed back.**  The fetch for the script fails, and its host is still
cloaked. -/
theorem failed_fetch_stays_cloaked :
    (scriptRequest none).absorbUrl = some ("https://".toList ++ scriptName) ∧
    ∀ maps : List ResourceMap, discoveredHost ∉ maps.map ResourceMap.host →
      let s := run ⟨.plain maps, some .leakOnMiss⟩ scriptStart
        [.request .get (scriptRequest none), .absorbed none none 0]
      Owed maps s.log discoveredHost ∧ s.plane.isCdnHost maps discoveredHost = true := by
  obtain ⟨hhost, hnorm, -, hne⟩ := discoveredHost_facts
  refine ⟨absorbUrl_scriptRequest none, fun maps hmaps => ?_⟩
  simp only [run, foldl_cons, foldl_nil]
  rw [apply_scriptRequest hmaps .leakOnMiss (s := scriptStart) rfl rfl]
  constructor
  · have hcorpus : normalizeHost discoveredHost ∉ cdnHosts maps := by
      rwa [hnorm, cdnHosts, mem_dedup]
    refine (owed_apply_iff rfl).mpr (.inl ⟨discoveredHost, ?_, rfl, hcorpus⟩)
    simp [unserved?, State.addJob, scriptStart, State.start, State.absorb, ServeOutcome.bytes?,
      scriptRequest, hhost]
  · rw [plane_apply (by simp), isCdnHost_iff, hnorm]
    exact ⟨hne, not_mem_nil, .inr (mem_singleton_self _)⟩

end Loopback
end Mirror
end TortaCore
