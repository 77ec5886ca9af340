import TortaCore.Machine.Loop
import TortaCore.Store.Ways
import TortaCore.Text.Slice
import Mathlib.Algebra.GroupWithZero.Nat
import Mathlib.Algebra.Ring.Int.Defs

/-!
# The probe scheduler

Probes wait in three tins by priority (`beast/scheduler.rs`).  Under the legacy profile a tin is
one queue.  Under the other two, each tin holds the queues of its flows, in buckets by the key of
the flow, and two lists of flow keys: the flows that just got a single probe, and the flows that
have a backlog.  The tins are served by virtual time, and within a tin a flow is served from the
front of a list.

A probe is dropped at three places: an overfull tin of the legacy profile drops when it is
drained, the queue management of the other two may shed the head of a flow that is to be served,
and the third profile sheds from the fattest flow as soon as there are more than 128 probes.

The queue management (`TinAqm`) is a parameter: its state is any type, and it decides by any
function of that state and the clocks.

## Main definitions

* `Tin`, `serveOneFromTin`: one tin, and how a probe is taken from it.
* `Sched`, `enqueue`, `dispatch`, `onTimeoutOrFail`, `onSuccess`: the scheduler.
* `Exit`, `Sched.gone`: how the probes left, which the code does not write down.
-/

namespace TortaCore
namespace Beast

open Text Store Machine

/-! ### Probes, flows and tins -/

inductive TortaProfile where
  | legacy
  | baseline
  | softCake
  deriving DecidableEq

inductive ProbePriority where
  | critical
  | high
  | normal
  deriving DecidableEq

inductive ProbeProtocol where
  | tcp
  | udp
  deriving DecidableEq

structure ProbeRequest where
  domain : Str
  priority : ProbePriority
  endpointIdx : Int32
  protocol : ProbeProtocol
  enqueuedAtMs : ℤ
  deriving DecidableEq

def ProbePriority.all : List ProbePriority := [critical, high, normal]

/-- An array with an entry for each tin. -/
structure PerTin (β : Type*) where
  critical : β
  high : β
  normal : β

namespace PerTin

variable {β : Type*}

def get (a : PerTin β) : ProbePriority → β
  | .critical => a.critical
  | .high => a.high
  | .normal => a.normal

def set (a : PerTin β) (x : β) : ProbePriority → PerTin β
  | .critical => { a with critical := x }
  | .high => { a with high := x }
  | .normal => { a with normal := x }

theorem get_set (a : PerTin β) (x : β) (i j : ProbePriority) :
    (a.set x i).get j = if i = j then x else a.get j := by
  cases i <;> cases j <;> rfl

end PerTin

def tinMaxDepth : ProbePriority → ℕ
  | .critical => 4
  | .high => 8
  | .normal => 16

def aqmGlobalCap : ℤ := 128

def newFlowBurst : ℤ := 8

def strideUnit : ℤ := 1000000

def dangoOutageWindowMs : ℤ := 100

/-- `i64::MIN`, which stands for never. -/
def i64Min : ℤ := -9223372036854775808

def i64Max : ℤ := 9223372036854775807

def saturatingSub (a b : ℤ) : ℤ := max (min (a - b) i64Max) i64Min

def flowKey (p : ProbeRequest) : Int64 :=
  p.domain.foldl (fun h c => 31 * h + Int64.ofNat c.toNat)
    (31 * 1125899906842597 + p.endpointIdx.toInt64)

def isDroppable (p : ProbeRequest) : Bool := p.priority ≠ .critical

structure Tunables where
  profile : TortaProfile
  tinWeights : PerTin ℤ
  quantum : Int32
  setAssocWays : ℕ
  ways_pos : 0 < setAssocWays

def Tunables.stride (c : Tunables) (tin : ProbePriority) : ℤ :=
  strideUnit / max (c.tinWeights.get tin) 1

/-- `rem_euclid` of the key. -/
def Tunables.way (c : Tunables) (key : Int64) : ℕ := (key.toInt % c.setAssocWays).toNat

theorem Tunables.way_lt (c : Tunables) (key : Int64) : c.way key < c.setAssocWays := by
  have hpos : (0 : ℤ) < c.setAssocWays := Int.natCast_pos.mpr c.ways_pos
  have hlt := Int.emod_lt_of_pos key.toInt hpos
  rw [way]
  omega

structure Flow where
  key : Int64
  endpointIdx : Int32
  queue : List ProbeRequest
  deficit : Int32
  inNew : Bool
  inOld : Bool
  deriving DecidableEq

/-- The queue management of a tin: a state, and what is asked of it. -/
structure AqmLaw (α : Type*) where
  fresh : α
  /-- For the sojourn of a head and the present. -/
  shouldShed : α → ℤ → ℤ → Bool × α
  onGoodOrUndroppableAt : α → ℤ → ℤ → α
  onDrainedAt : α → ℤ → α
  onFailAt : α → ℤ → α
  onSuccessAt : α → ℤ → α

/-- One tin: the entries of the parallel arrays that belong to it. -/
structure Tin (α : Type*) (c : Tunables) where
  /-- The queue of the legacy profile. -/
  queue : List ProbeRequest := []
  aqm : α
  flows : Ways Int64 Flow c.way := .empty c.setAssocWays c.way_lt
  newFlows : List Int64 := []
  oldFlows : List Int64 := []
  /-- An `i32` in the code: a dispatch adds one at most, so it is exact as long as the tin is not
  served `2 ^ 31` times without being drained. -/
  newFlowRun : ℤ := 0
  pass : ℤ := 0
  lastFailMs : ℤ := i64Min

variable {α : Type*} {c : Tunables} (law : AqmLaw α)

namespace Tin

variable (t : Tin α c)

def depth : ℕ := (t.flows.buckets.map fun b => (b.rows.map fun r => r.2.queue.length).sum).sum

def hasWork : Bool := !t.newFlows.isEmpty || !t.oldFlows.isEmpty

def removeNew (key : Int64) : Tin α c := { t with newFlows := t.newFlows.erase key }

def removeOld (key : Int64) : Tin α c := { t with oldFlows := t.oldFlows.erase key }

def setFlow (key : Int64) (f : Flow) : Tin α c := { t with flows := t.flows.set key f }

def popHeadOfFlow (key : Int64) : Option ProbeRequest × Tin α c :=
  match t.flows.get? key with
  | none => (none, t)
  | some f =>
    match f.queue with
    | [] => (none, t)
    | p :: rest => (some p, t.setFlow key { f with queue := rest })

def retireFlowIfEmpty (key : Int64) : Tin α c :=
  match t.flows.get? key with
  | none => t
  | some f =>
    if f.queue = [] then
      let t := if f.inNew then t.removeNew key else t
      let t := if f.inOld then t.removeOld key else t
      { t with flows := t.flows.erase key }
    else t

def purgeStaleListEntry (key : Int64) (fromNew : Bool) : Tin α c :=
  if fromNew then t.removeNew key else t.removeOld key

def advanceFlow (key : Int64) (wasSparse : Bool) : Tin α c :=
  let t := if wasSparse then t.removeNew key else t.removeOld key
  match t.flows.get? key with
  | none => t.retireFlowIfEmpty key
  | some f =>
    let f := if wasSparse then { f with inNew := false } else { f with inOld := false }
    if f.queue = [] then (t.setFlow key f).retireFlowIfEmpty key
    else
      { t.setFlow key { f with deficit := 0, inOld := true } with
        oldFlows := t.oldFlows ++ [key] }

end Tin

/-! ### Taking a probe from a tin -/

/-- What became of a tin: the probe it gave, and those it shed before that. -/
structure Served (α : Type*) (c : Tunables) where
  out : Option ProbeRequest
  sparse : Bool
  tin : Tin α c
  shed : List ProbeRequest

/-- The head of a flow leaves to be dispatched. -/
def Tin.serveHead (t : Tin α c) (key : Int64) (f : Flow) (rest : List ProbeRequest)
    (sparse : Bool) : Tin α c :=
  let deficit := if f.deficit ≤ 0 then f.deficit + c.quantum else f.deficit
  let t := t.setFlow key { f with queue := rest, deficit := deficit - 1 }
  let t := { t with newFlowRun := if sparse then t.newFlowRun + 1 else 0 }
  t.advanceFlow key sparse

/-- The new flows come first, unless they came first for too long and old work waits. -/
def Tin.sparse (t : Tin α c) : Bool :=
  let hasNew := !t.newFlows.isEmpty
  let hasOld := !t.oldFlows.isEmpty
  hasNew && !(hasOld && newFlowBurst ≤ t.newFlowRun)

/-- The flow whose turn it is. -/
def Tin.front (t : Tin α c) : Option Int64 :=
  if t.sparse then t.newFlows.head? else t.oldFlows.head?

/-- The loop of `serve_one_from_tin`, bounded by its guard. -/
def serveLoop (now : ℤ) : ℕ → Tin α c → List ProbeRequest → Served α c
  | 0, t, shed => ⟨none, false, t, shed⟩
  | guard + 1, t, shed =>
    match t.front with
    | none => ⟨none, false, t, shed⟩
    | some key =>
      match t.flows.get? key with
      | none =>
        let t := t.purgeStaleListEntry key t.sparse
        if !t.hasWork then ⟨none, false, t, shed⟩ else serveLoop now guard t shed
      | some f =>
        match f.queue with
        | [] =>
          let t := t.retireFlowIfEmpty key
          if !t.hasWork then ⟨none, false, t, shed⟩ else serveLoop now guard t shed
        | p :: rest =>
          let sojourn := max (now - p.enqueuedAtMs) 0
          let decision :=
            if isDroppable p then law.shouldShed t.aqm sojourn now
            else (false, law.onGoodOrUndroppableAt t.aqm sojourn now)
          let t' := { t with aqm := decision.2 }
          if isDroppable p && decision.1 then
            serveLoop now guard ((t'.popHeadOfFlow key).2.retireFlowIfEmpty key) (shed ++ [p])
          else ⟨some p, t.sparse, t'.serveHead key f rest t.sparse, shed⟩

def serveOneFromTin (now : ℤ) (t : Tin α c) : Served α c := serveLoop law now (t.depth + 1) t []

/-! ### The scheduler -/

/-- How a probe left. -/
inductive Exit where
  | dispatched
  /-- Dropped from an overfull tin of the legacy profile. -/
  | overflow
  /-- Shed by the queue management. -/
  | shed
  /-- Shed since there were too many; whether a droppable probe was queued at that moment. -/
  | overload (droppable : Bool)
  deriving DecidableEq

structure Sched (α : Type*) (c : Tunables) where
  tins : PerTin (Tin α c)
  vtime : ℤ := 0
  aqmDepth : ℤ := 0
  aqmDropped : ℤ := 0
  shedDropped : ℤ := 0
  sparseServed : ℤ := 0
  lastNowMs : ℤ := 0
  outageAbsorbed : ℤ := 0
  overloadSheds : ℤ := 0
  /-- The probes that left, in that order; the code does not keep them. -/
  gone : List (ProbeRequest × Exit) := []

namespace Sched

def tin (s : Sched α c) (p : ProbePriority) : Tin α c := s.tins.get p

def setTin (s : Sched α c) (p : ProbePriority) (t : Tin α c) : Sched α c :=
  { s with tins := s.tins.set t p }

/-- With a profile and its tunables. -/
def withTunables (c : Tunables) : Sched α c where
  tins := ⟨{ aqm := law.fresh }, { aqm := law.fresh }, { aqm := law.fresh }⟩

def pipelineDepth (s : Sched α c) : ℤ :=
  if c.profile = .legacy then (ProbePriority.all.map fun p => ((s.tin p).queue.length : ℤ)).sum
  else s.aqmDepth

/-- All probes that wait, in the queues of the tins and of their flows. -/
def queued (s : Sched α c) : List ProbeRequest :=
  ProbePriority.all.flatMap fun p =>
    (s.tin p).queue ++ (s.tin p).flows.rows.flatMap fun r => r.2.queue

end Sched

/-! ### Overload -/

/-- The order in which the rows of a hash map are visited. -/
structure HashOrder where
  visit : Dict Int64 Flow → List (Int64 × Flow)
  perm : ∀ d, (visit d).Perm d.rows

/-- The flow that pays. -/
structure Pick where
  tin : ProbePriority
  key : Int64
  len : ℕ
  headMs : ℤ

/-- One turn of the scan. -/
def fatter (droppableOnly : Bool) (pick : Option Pick) (row : ProbePriority × Int64 × Flow) :
    Option Pick :=
  match row.2.2.queue with
  | [] => pick
  | head :: _ =>
    if droppableOnly && !isDroppable head then pick
    else
      let this : Pick := ⟨row.1, row.2.1, row.2.2.queue.length, head.enqueuedAtMs⟩
      match pick with
      | none => some this
      | some b =>
        if b.len < this.len ∨ this.len = b.len ∧ this.headMs < b.headMs then some this else pick

namespace Sched

/-- Every flow, as the scan comes by it. -/
def scan (s : Sched α c) (order : HashOrder) : List (ProbePriority × Int64 × Flow) :=
  ProbePriority.all.flatMap fun p =>
    (s.tin p).flows.buckets.flatMap fun b => (order.visit b).map fun r => (p, r.1, r.2)

def overloadPick (s : Sched α c) (order : HashOrder) : Option Pick :=
  match (s.scan order).foldl (fatter true) none with
  | some pick => some pick
  | none => (s.scan order).foldl (fatter false) none

/-- The loop of `overload_shed`; every turn takes one from the depth. -/
def overloadLoop (order : HashOrder) : ℕ → Sched α c → Sched α c
  | 0, s => s
  | fuel + 1, s =>
    if s.aqmDepth ≤ aqmGlobalCap then s
    else
      match s.overloadPick order with
      | none => s
      | some pick =>
        match (s.tin pick.tin).popHeadOfFlow pick.key with
        | (none, _) => s
        | (some p, t) =>
          let aqm := law.onFailAt t.aqm s.lastNowMs
          overloadLoop order fuel
            { s.setTin pick.tin { t with aqm := aqm } with
              aqmDepth := s.aqmDepth - 1
              overloadSheds := s.overloadSheds + 1
              gone := s.gone ++ [(p, .overload (s.queued.any isDroppable))] }

def overloadShed (s : Sched α c) (order : HashOrder) : Sched α c :=
  s.overloadLoop law order (s.aqmDepth - aqmGlobalCap).toNat

end Sched

/-! ### Enqueue -/

/-- What an arrival does to its tin: the probe is queued, a flow that was idle goes to the new
flows, and a new flow with a backlog to the old ones. -/
def Tin.arrive (t : Tin α c) (vtime : ℤ) (req : ProbeRequest) : Tin α c :=
  let key := flowKey req
  let f := (t.flows.get? key).getD ⟨key, req.endpointIdx, [], 0, false, false⟩
  let hadBacklog := f.queue ≠ []
  let f' := { f with queue := f.queue ++ [req] }
  let t' := { t with pass := if t.hasWork then t.pass else max t.pass vtime }
  if !f.inNew && !f.inOld then
    { t'.setFlow key { f' with deficit := 0, inNew := true } with
      newFlows := t.newFlows ++ [key] }
  else if hadBacklog ∧ f.inNew then
    { (t'.setFlow key { f' with deficit := 0, inNew := false, inOld := true }).removeNew key with
      oldFlows := t.oldFlows ++ [key] }
  else t'.setFlow key f'

namespace Sched

def enqueueAqm (s : Sched α c) (req : ProbeRequest) (order : HashOrder) : Sched α c :=
  let s := { s.setTin req.priority ((s.tin req.priority).arrive s.vtime req) with
    lastNowMs := max s.lastNowMs req.enqueuedAtMs
    aqmDepth := s.aqmDepth + 1 }
  if c.profile = .softCake ∧ aqmGlobalCap < s.aqmDepth then s.overloadShed law order else s

def enqueue (s : Sched α c) (req : ProbeRequest) (order : HashOrder) : Sched α c :=
  if c.profile = .legacy then
    let t := s.tin req.priority
    s.setTin req.priority { t with queue := t.queue ++ [req] }
  else s.enqueueAqm law req order

/-! ### Dispatch -/

/-- One tin of the legacy profile is drained into what there is room for. -/
def drainTin (limit cap : ℕ) : List ProbeRequest → List ProbeRequest →
    List (ProbeRequest × Exit) → List ProbeRequest × List ProbeRequest × List (ProbeRequest × Exit)
  | [], out, gone => ([], out, gone)
  | p :: rest, out, gone =>
    if cap ≤ out.length then (p :: rest, out, gone)
    else if limit < rest.length then drainTin limit cap rest out (gone ++ [(p, .overflow)])
    else drainTin limit cap rest (out ++ [p]) (gone ++ [(p, .dispatched)])

def dispatchLegacyTin (cap : ℕ) (r : List ProbeRequest × Sched α c) (p : ProbePriority) :
    List ProbeRequest × Sched α c :=
  let t := r.2.tin p
  let d := drainTin (tinMaxDepth p) cap t.queue r.1 []
  (d.2.1,
    { r.2.setTin p { t with queue := d.1 } with
      aqmDropped := r.2.aqmDropped + d.2.2.countP fun e => e.2 = .overflow
      gone := r.2.gone ++ d.2.2 })

def dispatchLegacy (s : Sched α c) (cwnd : ℤ) : List ProbeRequest × Sched α c :=
  ProbePriority.all.foldl (dispatchLegacyTin (max cwnd 0).toNat) ([], s)

/-- The state of the loop of `dispatch_aqm`. -/
structure Round (α : Type*) (c : Tunables) where
  sched : Sched α c
  /-- The tins that gave nothing. -/
  exhausted : PerTin Bool := ⟨false, false, false⟩
  out : List ProbeRequest := []

/-- One turn of the choice of the tin. -/
def earlier (r : Round α c) (chosen : Option ProbePriority) (p : ProbePriority) :
    Option ProbePriority :=
  if r.exhausted.get p || !(r.sched.tin p).hasWork then chosen
  else
    match chosen with
    | none => some p
    | some b => if (r.sched.tin p).pass < (r.sched.tin b).pass then some p else chosen

def Round.choose (r : Round α c) : Option ProbePriority :=
  ProbePriority.all.foldl (earlier r) none

/-- The chosen tin is asked for a probe. -/
def Round.serve (now : ℤ) (r : Round α c) (p : ProbePriority) : Round α c :=
  let s := r.sched
  let v := serveOneFromTin law now (s.tin p)
  let left := v.shed.map fun q => (q, Exit.shed)
  match v.out with
  | none =>
    { r with
      sched := { s.setTin p v.tin with
        vtime := max s.vtime (s.tin p).pass
        aqmDepth := s.aqmDepth - v.shed.length
        shedDropped := s.shedDropped + v.shed.length
        gone := s.gone ++ left }
      exhausted := r.exhausted.set true p }
  | some probe =>
    { r with
      sched := { s.setTin p { v.tin with pass := v.tin.pass + c.stride p } with
        vtime := max s.vtime (s.tin p).pass
        aqmDepth := s.aqmDepth - v.shed.length - 1
        shedDropped := s.shedDropped + v.shed.length
        sparseServed := if v.sparse then s.sparseServed + 1 else s.sparseServed
        gone := s.gone ++ left ++ [(probe, .dispatched)] }
      out := r.out ++ [probe] }

def Round.turn (cap : ℕ) (now : ℤ) (r : Round α c) : Turn (Round α c) (Round α c) :=
  if cap ≤ r.out.length then .halt r
  else
    match r.choose with
    | none => .halt r
    | some p => .next (r.serve law now p)

/-- The loop; every turn gives a probe or finds a tin exhausted. -/
def Round.rounds (cap : ℕ) (now : ℤ) (r : Round α c) : Round α c :=
  (loop (Round.turn law cap now) (cap + 4) r).getD r

/-- A tin that is empty starts afresh. -/
def settleTin (now : ℤ) (t : Tin α c) : Tin α c :=
  if t.depth = 0 then { t with aqm := law.onDrainedAt t.aqm now, newFlowRun := 0 } else t

def settleTins (s : Sched α c) (now : ℤ) : Sched α c :=
  ProbePriority.all.foldl (fun s p => s.setTin p (settleTin law now (s.tin p))) s

def dispatchAqm (s : Sched α c) (cwnd now : ℤ) : List ProbeRequest × Sched α c :=
  let s := { s with lastNowMs := max s.lastNowMs now }
  let cap := (max cwnd 0).toNat
  if cap = 0 then ([], s)
  else
    let r := Round.rounds law cap now { sched := s }
    (r.out, settleTins law r.sched now)

def dispatch (s : Sched α c) (cwnd now : ℤ) : List ProbeRequest × Sched α c :=
  if c.profile = .legacy then s.dispatchLegacy cwnd else s.dispatchAqm law cwnd now

/-! ### The hooks of the queue management -/

def onTimeoutOrFail (s : Sched α c) (p : ProbePriority) : Sched α c :=
  if c.profile = .legacy then s
  else
    let now := s.lastNowMs
    let correlated := c.profile = .softCake ∧ ∃ q ∈ ProbePriority.all, q ≠ p ∧
      saturatingSub now (s.tin q).lastFailMs < dangoOutageWindowMs
    let t := if c.profile = .softCake then { s.tin p with lastFailMs := now } else s.tin p
    if correlated then { s.setTin p t with outageAbsorbed := s.outageAbsorbed + 1 }
    else s.setTin p { t with aqm := law.onFailAt t.aqm now }

def onSuccess (s : Sched α c) (p : ProbePriority) : Sched α c :=
  if c.profile = .legacy then s
  else
    let t := s.tin p
    s.setTin p { t with aqm := law.onSuccessAt t.aqm s.lastNowMs }

end Sched

/-! ### Runs -/

inductive Act where
  | enqueue (req : ProbeRequest) (order : HashOrder)
  | dispatch (cwnd now : ℤ)
  | onTimeoutOrFail (p : ProbePriority)
  | onSuccess (p : ProbePriority)

def Sched.apply (s : Sched α c) : Act → Sched α c
  | .enqueue req order => s.enqueue law req order
  | .dispatch cwnd now => (s.dispatch law cwnd now).2
  | .onTimeoutOrFail p => s.onTimeoutOrFail law p
  | .onSuccess p => s.onSuccess law p

def run (c : Tunables) (acts : List Act) : Sched α c :=
  acts.foldl (Sched.apply law) (.withTunables law c)

/-- The probes that were enqueued. -/
def arrivals (acts : List Act) : List ProbeRequest :=
  acts.filterMap fun
    | .enqueue req _ => some req
    | _ => none

end Beast
end TortaCore
