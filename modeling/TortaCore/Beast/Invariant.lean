import TortaCore.Beast.Tin
import Mathlib.Tactic.Abel

/-!
# What the scheduler keeps

The invariant of the scheduler says where the probes are that have arrived: they wait, in their
tin and their flow, or they left.  Every change is of one kind: at one tin, some probes come and
some leave.  This module has the changes that an arrival makes, with the overload sheds that it
may cause; what a dispatch does is in the next one.
-/

namespace TortaCore
namespace Beast

open Text Store Machine List Tin Ways

variable {α : Type*} {c : Tunables}

/-! ### The tins together -/

theorem PerTin.sum_set {β M : Type*} [AddCommMonoid M] (f : β → M) (a : PerTin β) (x : β)
    (p : ProbePriority) :
    (ProbePriority.all.map fun q => f ((a.set x p).get q)).sum + f (a.get p) =
      (ProbePriority.all.map fun q => f (a.get q)).sum + f x := by
  cases p with
  | critical => simp [ProbePriority.all, set, get, add_comm, add_left_comm]
  | high => simp [ProbePriority.all, set, get, add_comm, add_left_comm]
  | normal => simp [ProbePriority.all, set, get, add_comm, add_left_comm]

/-- What happens to a part happens to the whole. -/
theorem add_eq_add_of_part {M : Type*} [AddCancelCommMonoid M]
    {whole whole' part part' come left : M} (hwhole : whole' + part = whole + part')
    (hpart : part + come = left + part') :
    whole + come = left + whole' := by
  refine add_right_cancel (b := part) ?_
  calc whole + come + part
      = whole + (part + come) := by abel
    _ = whole + part' + left := by rw [hpart]; abel
    _ = left + whole' + part := by rw [← hwhole]; abel

theorem ProbePriority.mem_all (p : ProbePriority) : p ∈ ProbePriority.all := by
  cases p <;> decide

namespace Tin

/-- What waits of one key, in the order it came. -/
def lane (t : Tin α c) (k : Int64) : List ProbeRequest :=
  t.queue.filter (fun p => flowKey p = k) ++ t.queueOf k

/-- All that waits. -/
def held (t : Tin α c) : Multiset ProbeRequest := t.queue + t.waiting

end Tin

namespace Sched

theorem tin_setTin (s : Sched α c) (t : Tin α c) (p q : ProbePriority) :
    (s.setTin p t).tin q = if p = q then t else s.tin q :=
  PerTin.get_set _ _ _ _

/-- All that waits. -/
def waiting (s : Sched α c) : Multiset ProbeRequest :=
  (ProbePriority.all.map fun p => (s.tin p).held).sum

/-- The probes that were dispatched, in that order. -/
def dispatched (s : Sched α c) : List ProbeRequest :=
  (s.gone.filter fun e => e.2 = .dispatched).map Prod.fst

/-- The probes that were shed, in that order. -/
def shed (s : Sched α c) : List ProbeRequest :=
  (s.gone.filter fun e => e.2 ≠ .dispatched).map Prod.fst

theorem coe_queued (s : Sched α c) : (s.queued : Multiset ProbeRequest) = s.waiting := by
  have hrows : ∀ rows : List (Int64 × Flow),
      ((rows.flatMap fun r => r.2.queue : List ProbeRequest) : Multiset ProbeRequest) =
        (rows.map fun r => (r.2.queue : Multiset ProbeRequest)).sum := by
    intro rows
    induction rows with
    | nil => rfl
    | cons r rows ih => rw [flatMap_cons, ← Multiset.coe_add, ih, map_cons, sum_cons]
  have htin : ∀ t : Tin α c,
      ((t.queue ++ t.flows.rows.flatMap fun r => r.2.queue : List ProbeRequest) :
        Multiset ProbeRequest) = t.held := by
    intro t
    rw [← Multiset.coe_add, hrows]
    rfl
  simp only [queued, waiting, ProbePriority.all, flatMap_cons, flatMap_nil, append_nil,
    ← Multiset.coe_add, ← htin, map_cons, map_nil, sum_cons, sum_nil, add_zero]

end Sched

/-! ### The invariant -/

/-- The probe is of this tin and this key. -/
def belongs (p : ProbePriority) (k : Int64) (q : ProbeRequest) : Bool :=
  q.priority = p ∧ flowKey q = k

/-- Where the probes are that have arrived so far. -/
structure Inv (arrived : List ProbeRequest) (s : Sched α c) : Prop where
  sound : ∀ p, (s.tin p).Sound
  fifo : ∀ p k, arrived.filter (belongs p k) =
    (s.gone.map Prod.fst).filter (belongs p k) ++ (s.tin p).lane k
  conserved : (arrived : Multiset ProbeRequest) = (s.gone.map Prod.fst : List _) + s.waiting
  drops : s.aqmDropped + s.shedDropped + s.overloadSheds =
    s.gone.countP fun e => e.2 ≠ .dispatched
  depth : c.profile ≠ .legacy →
    s.aqmDepth = (ProbePriority.all.map fun p => ((s.tin p).depth : ℤ)).sum
  queue : c.profile ≠ .legacy → ∀ p, (s.tin p).queue = []
  flows : c.profile = .legacy → ∀ p k, (s.tin p).flows.get? k = none
  critical : c.profile ≠ .legacy → ∀ e ∈ s.gone, e.1.priority = .critical →
    e.2 = .dispatched ∨ e.2 = .overload false

/-- Some probes come to a tin, and some leave it. -/
structure Flux (t t' : Tin α c) (come left : List ProbeRequest) : Prop where
  sound : t'.Sound
  lane : ∀ k, t.lane k ++ come.filter (fun q => flowKey q = k) =
    left.filter (fun q => flowKey q = k) ++ t'.lane k
  held : t.held + come = left + t'.held

theorem Yields.flux {t t' : Tin α c} {left : List ProbeRequest} (h : Yields t t' left)
    (hqueue : t.queue = []) : Flux t t' [] left where
  sound := h.sound
  lane k := by
    rw [lane, lane, h.queue, hqueue, h.fifo]
    simp
  held := by
    rw [held, held, h.queue, hqueue, h.waiting]
    simp

namespace Inv

variable {arrived come left : List ProbeRequest} {s s' : Sched α c} {p : ProbePriority}
  {t' : Tin α c} {exits : List (ProbeRequest × Exit)}

/-- What waits in a tin has its priority and its key. -/
theorem belongs_of_mem_lane (h : Inv arrived s) {k : Int64} {q : ProbeRequest}
    (hq : q ∈ (s.tin p).lane k) : q.priority = p ∧ flowKey q = k := by
  have hmem : q ∈ arrived.filter (belongs p k) := by
    rw [h.fifo]
    exact mem_append_right _ hq
  simpa [belongs] using (mem_filter.mp hmem).2

theorem priority_of_flux (h : Inv arrived s) (hflux : Flux (s.tin p) t' come left)
    (hcome : ∀ q ∈ come, q.priority = p) {q : ProbeRequest} (hq : q ∈ left) : q.priority = p := by
  have hmem : q ∈ (s.tin p).lane (flowKey q) ++ come.filter fun r => flowKey r = flowKey q := by
    rw [hflux.lane]
    exact mem_append_left _ (mem_filter.mpr ⟨hq, by simp⟩)
  rcases mem_append.mp hmem with hmem | hmem
  · exact (h.belongs_of_mem_lane hmem).1
  · exact hcome q (mem_of_mem_filter hmem)

/-- The probes of one tin, of any tin's key. -/
theorem filter_belongs {l : List ProbeRequest} (h : ∀ q ∈ l, q.priority = p) (r : ProbePriority)
    (k : Int64) :
    l.filter (belongs r k) = if p = r then l.filter (fun q => flowKey q = k) else [] := by
  split
  · next hr =>
    refine filter_congr fun q hq => ?_
    simp [belongs, h q hq, hr]
  · next hr =>
    refine filter_eq_nil_iff.mpr fun q hq => ?_
    simp [belongs, h q hq, hr]

/-- **A flux at one tin keeps the invariant**, if the log, the counters and the depth tell
it. -/
theorem flux (h : Inv arrived s) (htins : s'.tins = s.tins.set t' p)
    (hflux : Flux (s.tin p) t' come left) (hgone : s'.gone = s.gone ++ exits)
    (hexits : exits.map Prod.fst = left) (hcome : ∀ q ∈ come, q.priority = p)
    (hdrops : s'.aqmDropped + s'.shedDropped + s'.overloadSheds =
      s.aqmDropped + s.shedDropped + s.overloadSheds +
        exits.countP fun e => e.2 ≠ .dispatched)
    (hdepth : c.profile ≠ .legacy → s'.aqmDepth + (s.tin p).depth = s.aqmDepth + t'.depth)
    (hqueue : c.profile ≠ .legacy → t'.queue = [])
    (hflows : c.profile = .legacy → ∀ k, t'.flows.get? k = none)
    (hcritical : c.profile ≠ .legacy → ∀ e ∈ exits, e.1.priority = .critical →
      e.2 = .dispatched ∨ e.2 = .overload false) :
    Inv (arrived ++ come) s' := by
  have htin : ∀ q, s'.tin q = if p = q then t' else s.tin q := fun q => by
    rw [Sched.tin, htins, PerTin.get_set]
    rfl
  have hleft : ∀ q ∈ left, q.priority = p := fun q hq => h.priority_of_flux hflux hcome hq
  constructor
  case sound =>
    intro q
    rw [htin]
    split
    · exact hflux.sound
    · exact h.sound q
  case fifo =>
    intro q k
    rw [filter_append, h.fifo, hgone, map_append, filter_append, hexits,
      append_assoc, append_assoc, filter_belongs hcome, filter_belongs hleft, htin]
    split
    · next hq => rw [← hq, hflux.lane]
    · simp
  case conserved =>
    have hsum := PerTin.sum_set held s.tins t' p
    rw [← htins] at hsum
    change s'.waiting + (s.tin p).held = s.waiting + t'.held at hsum
    have hcancel := add_eq_add_of_part hsum hflux.held
    rw [← Multiset.coe_add, h.conserved, add_assoc, hcancel, hgone, map_append, hexits,
      ← Multiset.coe_add, add_assoc]
  case drops =>
    rw [hdrops, h.drops, hgone, countP_append]
    rfl
  case depth =>
    intro hprofile
    have hsum := PerTin.sum_set (fun t : Tin α c => (t.depth : ℤ)) s.tins t' p
    rw [← htins] at hsum
    change (ProbePriority.all.map fun q => ((s'.tin q).depth : ℤ)).sum + ((s.tin p).depth : ℤ) =
      (ProbePriority.all.map fun q => ((s.tin q).depth : ℤ)).sum + (t'.depth : ℤ) at hsum
    have := hdepth hprofile
    have := h.depth hprofile
    omega
  case queue =>
    intro hprofile q
    rw [htin]
    split
    · exact hqueue hprofile
    · exact h.queue hprofile q
  case flows =>
    intro hprofile q
    rw [htin]
    split
    · exact hflows hprofile
    · exact h.flows hprofile q
  case critical =>
    intro hprofile e he
    rw [hgone] at he
    rcases mem_append.mp he with he | he
    · exact h.critical hprofile e he
    · exact hcritical hprofile e he

end Inv

/-! ### Arrivals and overload -/

variable {t t' : Tin α c} {k : Int64} {f f' : Flow} {come left : List ProbeRequest}

theorem Flux.depth_eq (h : Flux t t' come left) (hqueue : t.queue = []) (hqueue' : t'.queue = []) :
    t.depth + come.length = left.length + t'.depth := by
  have hheld := congrArg Multiset.card h.held
  simpa [Tin.held, hqueue, hqueue', Tin.card_waiting] using hheld

theorem Flux.of_put (hqueue : t.queue = []) (hqueue' : t'.queue = [])
    (hget : t.flows.get? k = some f) (hsound : t'.Sound)
    (hflows : ∀ j, t'.flows.get? j = if k = j then some f' else t.flows.get? j)
    (hchange : f.queue ++ come = left ++ f'.queue) (hcome : ∀ q ∈ come, flowKey q = k)
    (hleft : ∀ q ∈ left, flowKey q = k) : Flux t t' come left where
  sound := hsound
  lane j := by
    rw [Tin.lane, Tin.lane, hqueue, hqueue', Yields.filter_homed hcome, Yields.filter_homed hleft,
      Tin.queueOf, Tin.queueOf, hflows]
    by_cases hj : k = j
    · simp [← hj, hget, hchange]
    · simp [hj]
  held := by
    have htotal := total_put (fun f : Flow => (f.queue : Multiset ProbeRequest)) hget hflows
    have hmove : (f.queue : Multiset ProbeRequest) + come = left + f'.queue := by
      rw [Multiset.coe_add, Multiset.coe_add, hchange]
    have hwhole := add_eq_add_of_part htotal hmove
    rw [Tin.held, Tin.held, hqueue, hqueue', Multiset.coe_nil, zero_add, zero_add]
    exact hwhole

theorem Flux.of_start {req : ProbeRequest} (hqueue : t.queue = []) (hqueue' : t'.queue = [])
    (hget : t.flows.get? (flowKey req) = none) (hsound : t'.Sound)
    (hflows : ∀ j, t'.flows.get? j = if flowKey req = j then some f' else t.flows.get? j)
    (hf' : f'.queue = [req]) : Flux t t' [req] [] where
  sound := hsound
  lane j := by
    rw [Tin.lane, Tin.lane, hqueue, hqueue', Tin.queueOf, Tin.queueOf, hflows]
    by_cases hj : flowKey req = j
    · simp [← hj, hget, hf']
    · simp [hj]
  held := by
    have htotal := total_add (fun f : Flow => (f.queue : Multiset ProbeRequest)) hget hflows
    rw [hf'] at htotal
    rw [Tin.held, Tin.held, hqueue, hqueue', Multiset.coe_nil, zero_add, zero_add, zero_add]
    exact htotal.symm

theorem flux_arrive (h : t.Sound) (hqueue : t.queue = []) (vtime : ℤ) (req : ProbeRequest) :
    Flux t (t.arrive vtime req) [req] [] := by
  unfold arrive
  extract_lets key flow hadBacklog flow' tin'
  have hqueue' : tin'.queue = [] := hqueue
  cases hget : t.flows.get? key with
  | none =>
    have hflow : flow = ⟨key, req.endpointIdx, [], 0, false, false⟩ := by
      simp only [flow, hget, Option.getD_none]
    have hflags : (!flow.inNew && !flow.inOld) = true := by rw [hflow]; rfl
    have hflow' : flow'.queue = [req] := by
      change flow.queue ++ [req] = [req]
      rw [hflow]
      rfl
    rw [if_pos hflags]
    refine .of_start hqueue hqueue' hget ?_ (fun j => get?_set) hflow'
    refine Listed.start h (fun j => get?_set) hget rfl ?_ ?_
    · change flow.inOld = false
      rw [hflow]
    · intro q hq
      change q ∈ flow'.queue at hq
      rw [hflow', mem_singleton] at hq
      rw [hq]
  | some f =>
    have hflow : flow = f := by simp only [flow, hget, Option.getD_some]
    have hone := h.one key f hget
    have hhomed : ∀ q ∈ flow'.queue, flowKey q = key := by
      intro q hq
      rcases mem_append.mp hq with hq | hq
      · exact h.homed key f hget q (hflow ▸ hq)
      · rw [mem_singleton.mp hq]
    have hcome : ∀ q ∈ [req], flowKey q = key := fun q hq => by rw [mem_singleton.mp hq]
    have hflags : ¬(!flow.inNew && !flow.inOld) = true := by
      rw [hflow, hone]
      cases f.inNew <;> simp
    have hchange : f.queue ++ [req] = [] ++ flow'.queue := by
      rw [← hflow]
      rfl
    rw [if_neg hflags]
    split
    · next hbulk =>
      -- the flow was new, so it is not among the old ones
      have hnew : f.inNew = true := hflow ▸ hbulk.2
      refine .of_put hqueue hqueue' hget ?_ (fun j => get?_set) hchange hcome (by simp)
      change Listed _ (t.newFlows.erase key) (t.oldFlows ++ [key])
      rw [← erase_of_not_mem (h.notMem_old hget hnew)]
      exact Listed.park h (fun j => get?_set) rfl rfl hhomed
    · refine .of_put hqueue hqueue' hget ?_ (fun j => get?_set) hchange hcome (by simp)
      exact Listed.put h (fun j => get?_set) hget (by rw [← hflow]) (by rw [← hflow]) hhomed

theorem flux_popHeadOfFlow {p : ProbeRequest} {rest : List ProbeRequest} (h : t.Sound)
    (hqueue : t.queue = []) (hget : t.flows.get? k = some f) (hhead : f.queue = p :: rest) :
    ∃ t', t.popHeadOfFlow k = (some p, t') ∧ Flux t t' [] [p] ∧ t'.queue = [] := by
  have hhomed := h.homed k f hget
  rw [hhead] at hhomed
  refine ⟨t.setFlow k { f with queue := rest }, ?_, ?_, hqueue⟩
  · simp only [popHeadOfFlow, hget, hhead]
  · refine .of_put hqueue hqueue hget ?_ (fun j => get?_set) ?_ (by simp) ?_
    · exact Listed.put h (fun j => get?_set) hget rfl rfl
        fun q hq => hhomed q (mem_cons_of_mem p hq)
    · rw [hhead, append_nil]
      rfl
    · intro q hq
      rw [mem_singleton.mp hq]
      exact hhomed p mem_cons_self

theorem mem_scan {s : Sched α c} {order : HashOrder} {p : ProbePriority} :
    (p, k, f) ∈ s.scan order ↔ (s.tin p).flows.get? k = some f := by
  have hbucket : ∀ q, (p, k, f) ∈ ((s.tin q).flows.buckets.flatMap fun b =>
      (order.visit b).map fun r => (q, r.1, r.2)) ↔ q = p ∧ (s.tin q).flows.get? k = some f := by
    intro q
    rw [← mem_rows_iff, rows]
    simp only [mem_flatMap, mem_map, Prod.mk.injEq, Prod.exists]
    constructor
    · rintro ⟨b, hb, k', f', hrow, rfl, rfl, rfl⟩
      exact ⟨rfl, b, hb, (order.perm b).mem_iff.mp hrow⟩
    · rintro ⟨rfl, b, hb, hrow⟩
      exact ⟨b, hb, k, f, (order.perm b).mem_iff.mpr hrow, rfl, rfl, rfl⟩
  rw [Sched.scan, mem_flatMap]
  constructor
  · rintro ⟨q, -, hq⟩
    obtain ⟨rfl, hget⟩ := (hbucket q).mp hq
    exact hget
  · intro hget
    exact ⟨p, p.mem_all, (hbucket p).mpr ⟨rfl, hget⟩⟩

/-- A row that the pass may pick. -/
def Eligible (droppableOnly : Bool) (row : ProbePriority × Int64 × Flow) : Prop :=
  ∃ head rest, row.2.2.queue = head :: rest ∧ (droppableOnly = true → isDroppable head = true)

theorem fatter_of_not_eligible {droppableOnly : Bool} {row : ProbePriority × Int64 × Flow}
    (h : ¬Eligible droppableOnly row) (pick : Option Pick) :
    fatter droppableOnly pick row = pick := by
  unfold fatter
  split
  · rfl
  next head rest hqueue =>
  split
  · rfl
  · next hdrop =>
    refine absurd ⟨head, rest, hqueue, fun hd => ?_⟩ h
    simpa [hd] using hdrop

theorem fatter_of_eligible {droppableOnly : Bool} {row : ProbePriority × Int64 × Flow}
    (h : Eligible droppableOnly row) (pick : Option Pick) :
    ∃ b, fatter droppableOnly pick row = some b ∧
      (pick = some b ∨ b.tin = row.1 ∧ b.key = row.2.1) := by
  obtain ⟨head, rest, hqueue, hdrop⟩ := h
  have hskip : ¬(droppableOnly && !isDroppable head) = true := by
    cases droppableOnly with
    | true => simp [hdrop rfl]
    | false => simp
  unfold fatter
  rw [hqueue]
  dsimp only
  rw [if_neg hskip]
  cases pick with
  | none => exact ⟨_, rfl, .inr ⟨rfl, rfl⟩⟩
  | some b =>
    dsimp only
    split
    · exact ⟨_, rfl, .inr ⟨rfl, rfl⟩⟩
    · exact ⟨b, rfl, .inl rfl⟩

/-- The scan picks an eligible row, if there is one. -/
theorem foldl_fatter {droppableOnly : Bool} (rows : List (ProbePriority × Int64 × Flow))
    (pick : Option Pick) :
    (∀ b, rows.foldl (fatter droppableOnly) pick = some b → pick = some b ∨
      ∃ row ∈ rows, Eligible droppableOnly row ∧ b.tin = row.1 ∧ b.key = row.2.1) ∧
    (rows.foldl (fatter droppableOnly) pick = none →
      pick = none ∧ ∀ row ∈ rows, ¬Eligible droppableOnly row) := by
  induction rows generalizing pick with
  | nil => exact ⟨fun b hb => .inl hb, fun h => ⟨h, by simp⟩⟩
  | cons row rows ih =>
    rw [foldl_cons]
    by_cases hrow : Eligible droppableOnly row
    · obtain ⟨b₀, hb₀, hfrom⟩ := fatter_of_eligible hrow pick
      rw [hb₀]
      constructor
      · intro b hb
        rcases (ih _).1 b hb with hb | ⟨row', hmem, hrow'⟩
        · cases hb
          rcases hfrom with hpick | ⟨htin, hkey⟩
          · exact .inl hpick
          · exact .inr ⟨row, mem_cons_self, hrow, htin, hkey⟩
        · exact .inr ⟨row', mem_cons_of_mem _ hmem, hrow'⟩
      · intro hnone
        cases ((ih _).2 hnone).1
    · rw [fatter_of_not_eligible hrow]
      constructor
      · intro b hb
        rcases (ih _).1 b hb with hb | ⟨row', hmem, hrow'⟩
        · exact .inl hb
        · exact .inr ⟨row', mem_cons_of_mem _ hmem, hrow'⟩
      · intro hnone
        obtain ⟨hpick, hrows⟩ := (ih _).2 hnone
        exact ⟨hpick, forall_mem_cons.mpr ⟨hrow, hrows⟩⟩

variable {arrived : List ProbeRequest} {s : Sched α c} {p : ProbePriority}

/-- The pick is the head of a flow, and a critical one only if nothing droppable is queued. -/
theorem overloadPick_spec (h : Inv arrived s) (hprofile : c.profile ≠ .legacy)
    {order : HashOrder} {pick : Pick} (hpick : s.overloadPick order = some pick) :
    ∃ f head rest, (s.tin pick.tin).flows.get? pick.key = some f ∧ f.queue = head :: rest ∧
      (head.priority = .critical → s.queued.any isDroppable = false) := by
  unfold Sched.overloadPick at hpick
  split at hpick
  · next b hb =>
    -- the first pass takes a droppable head
    cases hpick
    rcases (foldl_fatter _ none).1 pick hb with
      hnone | ⟨row, hrow, ⟨head, rest, hqueue, hdrop⟩, htin, hkey⟩
    · cases hnone
    · refine ⟨row.2.2, head, rest, ?_, hqueue, fun hcritical => ?_⟩
      · rw [htin, hkey]
        exact mem_scan.mp hrow
      · have := hdrop rfl
        simp [isDroppable, hcritical] at this
  · next hfirst =>
    rcases (foldl_fatter _ none).1 pick hpick with
      hnone | ⟨row, hrow, ⟨head, rest, hqueue, -⟩, htin, hkey⟩
    · cases hnone
    · refine ⟨row.2.2, head, rest, ?_, hqueue, fun _ => ?_⟩
      · rw [htin, hkey]
        exact mem_scan.mp hrow
      · -- the second pass is made only if no head is droppable, and a tin holds one priority
        have hheads := ((foldl_fatter _ none).2 hfirst).2
        rw [any_eq_false]
        intro q hq hdrop
        obtain ⟨r, -, hq⟩ := mem_flatMap.mp hq
        rw [h.queue hprofile r, nil_append, mem_flatMap] at hq
        obtain ⟨⟨k, f⟩, hrow', hq⟩ := hq
        have hget := mem_rows_iff.mp hrow'
        have hlane : (s.tin r).lane k = f.queue := by
          rw [lane, h.queue hprofile r, queueOf_eq hget]
          rfl
        cases hf : f.queue with
        | nil =>
          rw [hf] at hq
          cases hq
        | cons head' rest' =>
          refine hheads (r, k, f) (mem_scan.mpr hget) ⟨head', rest', hf, fun _ => ?_⟩
          have hq' := h.belongs_of_mem_lane (q := q) (hlane ▸ hq)
          have hhead' := h.belongs_of_mem_lane (q := head') (hlane ▸ hf ▸ mem_cons_self)
          simp only [isDroppable, hq'.1, hhead'.1] at hdrop ⊢
          exact hdrop

section Steps

variable (law : AqmLaw α)

theorem inv_overloadLoop (hprofile : c.profile ≠ .legacy) (order : HashOrder) (fuel : ℕ)
    {s : Sched α c} (h : Inv arrived s) : Inv arrived (s.overloadLoop law order fuel) := by
  induction fuel generalizing s with
  | zero => exact h
  | succ fuel ih =>
    rw [Sched.overloadLoop]
    split
    · exact h
    split
    · exact h
    next pick hpick =>
    obtain ⟨f, head, rest, hget, hqueue, hcritical⟩ := overloadPick_spec h hprofile hpick
    obtain ⟨t', hpop, hflux, hqueue'⟩ :=
      flux_popHeadOfFlow (h.sound pick.tin) (h.queue hprofile _) hget hqueue
    have hdepth := hflux.depth_eq (h.queue hprofile _) hqueue'
    rw [hpop]
    refine ih ?_
    rw [← append_nil arrived]
    refine h.flux rfl ⟨hflux.sound, hflux.lane, hflux.held⟩ rfl rfl (by simp) ?_ (fun _ => ?_)
      (fun _ => hqueue') (fun hlegacy => absurd hlegacy hprofile) (fun _ e he hpriority => ?_)
    · change s.aqmDropped + s.shedDropped + (s.overloadSheds + 1) = _
      simp
      omega
    · change s.aqmDepth - 1 + _ = s.aqmDepth + (t'.depth : ℤ)
      simp only [length_nil, length_singleton] at hdepth
      omega
    · rw [mem_singleton] at he
      subst he
      exact .inr (congrArg Exit.overload (hcritical hpriority))

theorem inv_arrive (hprofile : c.profile ≠ .legacy) (h : Inv arrived s) (req : ProbeRequest) :
    Inv (arrived ++ [req])
      { s.setTin req.priority ((s.tin req.priority).arrive s.vtime req) with
        lastNowMs := max s.lastNowMs req.enqueuedAtMs
        aqmDepth := s.aqmDepth + 1 } := by
  have hcome : ∀ q ∈ [req], q.priority = req.priority := fun q hq => by
    rw [mem_singleton.mp hq]
  have hflux := flux_arrive (h.sound req.priority) (h.queue hprofile _) s.vtime req
  have hqueue' : ((s.tin req.priority).arrive s.vtime req).queue = [] := by
    unfold arrive
    dsimp only
    split
    · exact h.queue hprofile _
    · split
      · exact h.queue hprofile _
      · exact h.queue hprofile _
  have hdepth := hflux.depth_eq (h.queue hprofile _) hqueue'
  refine h.flux rfl hflux (append_nil _).symm rfl hcome (Int.add_zero _).symm
    (fun _ => ?_) (fun _ => hqueue') (fun hp => absurd hp hprofile) (by simp)
  change s.aqmDepth + 1 + _ = s.aqmDepth + _
  simp only [length_nil, length_singleton] at hdepth
  omega

theorem inv_enqueue (h : Inv arrived s) (req : ProbeRequest) (order : HashOrder) :
    Inv (arrived ++ [req]) (s.enqueue law req order) := by
  have hcome : ∀ q ∈ [req], q.priority = req.priority := fun q hq => by
    rw [mem_singleton.mp hq]
  unfold Sched.enqueue
  split
  · next hprofile =>
    have hflows := h.flows hprofile req.priority
    have hqueueOf : ∀ k, (s.tin req.priority).queueOf k = [] := fun k => by
      rw [queueOf, hflows]
      rfl
    refine h.flux rfl ⟨h.sound _, fun k => ?_, ?_⟩ (append_nil _).symm rfl hcome
      (Int.add_zero _).symm (fun hp => absurd hprofile hp) (fun hp => absurd hprofile hp)
      (fun _ => hflows) (by simp)
    · change _ = [] ++ (((s.tin req.priority).queue ++ [req]).filter _ ++
        (s.tin req.priority).queueOf k)
      rw [lane, hqueueOf, append_nil, nil_append, append_nil, filter_append]
    · change ((s.tin req.priority).queue : Multiset ProbeRequest) + (s.tin req.priority).waiting +
        _ = ([] : List ProbeRequest) + (((s.tin req.priority).queue ++ [req] :
          List ProbeRequest) + (s.tin req.priority).waiting)
      rw [← Multiset.coe_add, Multiset.coe_nil, zero_add, add_right_comm]
  · next hprofile =>
    have harrived := inv_arrive hprofile h req
    unfold Sched.enqueueAqm
    dsimp only
    split
    · exact inv_overloadLoop law hprofile order _ harrived
    · exact harrived

end Steps

end Beast
end TortaCore
