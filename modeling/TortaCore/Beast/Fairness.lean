import TortaCore.Beast.Conservation
import TortaCore.Machine.FairQueue

/-!
# No work waits, and the tins share

A dispatch asks the tins by their start tags until there is no room left, and a tin that gives
nothing is left out for the rest of it.  This is sound only if such a tin is empty.  The loop
that asks a tin is bounded by its probes and one turn more, and a turn may go to a flow that an
overload shed left empty: with at most one such flow the bound is enough, with two it is not.

Where it is enough, a dispatch returns fewer probes than its window only if it leaves nothing,
and the start tags are confined to the virtual time, so that tins with work get their share.
-/

namespace TortaCore
namespace Beast

open Text Store Machine List Option Sched

variable {α : Type*} {c : Tunables} {arrived : List ProbeRequest} {s s' : Sched α c}
  {p : ProbePriority}

/-! ### Empty flows -/

/-- No tin has more than one empty flow; only the third profile leaves any. -/
def Sched.Unclogged (s : Sched α c) : Prop :=
  c.profile = .softCake → ∀ p ∈ ProbePriority.all, (s.tin p).idleFlows ≤ 1

instance (s : Sched α c) : Decidable s.Unclogged :=
  inferInstanceAs (Decidable (c.profile = .softCake → ∀ p ∈ ProbePriority.all, _))

/-- Outside the third profile there are none. -/
def Sched.Clean (s : Sched α c) : Prop :=
  c.profile ≠ .softCake → ∀ p, (s.tin p).idleFlows = 0

theorem Sched.Clean.mono (h : s.Clean)
    (hle : c.profile ≠ .softCake → ∀ p, (s'.tin p).idleFlows ≤ (s.tin p).idleFlows) : s'.Clean :=
  fun hprofile p => Nat.eq_zero_of_le_zero ((h hprofile p) ▸ hle hprofile p)

theorem Sched.Clean.idle_le (h : s.Clean) (hunclogged : s.Unclogged) (p : ProbePriority) :
    (s.tin p).idleFlows ≤ 1 := by
  by_cases hprofile : c.profile = .softCake
  · exact hunclogged hprofile p p.mem_all
  · rw [h hprofile p]
    exact Nat.zero_le 1

/-- An arrival leaves no flow empty that was not. -/
theorem Tin.idleFlows_arrive (t : Tin α c) (vtime : ℤ) (req : ProbeRequest) :
    (t.arrive vtime req).idleFlows ≤ t.idleFlows := by
  -- whatever happens to the lists, one flow changes, and it holds a probe then
  have hchange : ∀ (flows' : Ways Int64 Flow c.way) (f' : Flow), f'.queue ≠ [] →
      (∀ j, flows'.get? j = if flowKey req = j then some f' else t.flows.get? j) →
      flows'.total (fun f => if f.queue = [] then 1 else 0) ≤ t.idleFlows := by
    intro flows' f' hf' hflows
    cases hget : t.flows.get? (flowKey req) with
    | none =>
      have htotal := Ways.total_add (fun f : Flow => if f.queue = [] then 1 else 0) hget hflows
      rw [if_neg hf'] at htotal
      exact htotal.le
    | some f =>
      have htotal := Ways.total_put (fun f : Flow => if f.queue = [] then 1 else 0) hget hflows
      rw [if_neg hf'] at htotal
      exact (Nat.le_add_right _ _).trans htotal.le
  have hqueue : ∀ queue : List ProbeRequest, queue ++ [req] ≠ [] := fun queue => by simp
  unfold arrive
  dsimp only
  split
  · exact hchange _ _ (hqueue _) fun j => Ways.get?_set
  · split
    · exact hchange _ _ (hqueue _) fun j => Ways.get?_set
    · exact hchange _ _ (hqueue _) fun j => Ways.get?_set

section Steps

variable (law : AqmLaw α)

/-! ### A turn of the dispatch -/

/-- How many probes of a tin were dispatched. -/
def Sched.served (s : Sched α c) (p : ProbePriority) : ℤ :=
  s.dispatched.countP fun q => q.priority = p

variable {r : Sched.Round α c}

/-- What a turn does: the virtual time follows the tag of the tin that is asked; the tin gives
nothing and is left out, or it gives a probe and its tag grows by its stride. -/
theorem serve_spec (hprofile : c.profile ≠ .legacy) (now : ℤ) (h : Inv arrived r.sched)
    (p : ProbePriority) :
    ∃ t', (∀ q, (r.serve law now p).sched.tin q = if p = q then t' else r.sched.tin q) ∧
      (r.serve law now p).sched.vtime = max r.sched.vtime (r.sched.tin p).pass ∧
      t'.idleFlows ≤ (r.sched.tin p).idleFlows ∧
      ((r.serve law now p).exhausted = r.exhausted.set true p ∧ t'.pass = (r.sched.tin p).pass ∧
          (∀ q, (r.serve law now p).sched.served q = r.sched.served q) ∧
          ((r.sched.tin p).idleFlows ≤ 1 → t'.hasWork = false) ∨
        (r.serve law now p).exhausted = r.exhausted ∧
          t'.pass = (r.sched.tin p).pass + c.stride p ∧
          ∀ q, (r.serve law now p).sched.served q =
            r.sched.served q + if p = q then 1 else 0) := by
  obtain ⟨-, more, hmore, hlogs⟩ := inv_serve law hprofile now h p
  have hserved : ∀ q, (r.serve law now p).sched.served q =
      r.sched.served q + more.countP fun x => x.priority = q := fun q => by
    rw [served, hlogs, countP_append]
    rfl
  obtain ⟨hyields, -⟩ := serveOneFromTin_spec law now (r.sched.tin p) (h.sound p)
  have hexhausts : (serveOneFromTin law now (r.sched.tin p)).out = none →
      (r.sched.tin p).idleFlows ≤ 1 →
      (serveOneFromTin law now (r.sched.tin p)).tin.hasWork = false :=
    fun hout hidle => serveLoop_exhausts law now _ [] (h.sound p) (by omega) hout
  have hflux := hyields.flux (h.queue hprofile p)
  unfold Round.serve at hmore hserved ⊢
  dsimp only at hmore hserved ⊢
  generalize serveOneFromTin law now (r.sched.tin p) = v at *
  cases hout : v.out with
  | none =>
    rw [hout] at hmore hserved
    obtain rfl : more = [] := (append_cancel_left ((append_nil r.out).trans hmore)).symm
    refine ⟨v.tin, tin_setTin r.sched v.tin p, rfl, hyields.idle, .inl ⟨rfl, hyields.pass, ?_,
      hexhausts hout⟩⟩
    intro q
    rw [hserved q, countP_nil]
    exact Int.add_zero _
  | some probe =>
    rw [hout] at hmore hserved hflux
    obtain rfl : more = [probe] := (append_cancel_left hmore).symm
    have hpriority : probe.priority = p := h.priority_of_flux hflux (by simp) (by simp)
    refine ⟨{ v.tin with pass := v.tin.pass + c.stride p },
      tin_setTin r.sched _ p, rfl, hyields.idle, .inr ⟨rfl, ?_, ?_⟩⟩
    · change v.tin.pass + _ = _
      rw [hyields.pass]
    · intro q
      rw [hserved q, countP_cons, countP_nil, hpriority]
      simp only [Nat.zero_add, decide_eq_true_eq]
      split <;> rfl

/-- A round in which only empty tins were left out. -/
structure Rolling (arrived : List ProbeRequest) (r : Sched.Round α c) : Prop where
  inv : Inv arrived r.sched
  clean : r.sched.Clean
  idle : ∀ p, (r.sched.tin p).idleFlows ≤ 1
  empty : ∀ p, r.exhausted.get p = true → (r.sched.tin p).hasWork = false

theorem Inv.rolling (h : Inv arrived s) (hclean : s.Clean) (hunclogged : s.Unclogged) (now : ℤ) :
    Rolling arrived { sched := { s with lastNowMs := max s.lastNowMs now } } :=
  ⟨h.clock now, hclean, hclean.idle_le hunclogged, fun p hp => by cases p <;> cases hp⟩

theorem idleFlows_serve_le (hprofile : c.profile ≠ .legacy) (now : ℤ) (h : Inv arrived r.sched)
    (p q : ProbePriority) :
    ((r.serve law now p).sched.tin q).idleFlows ≤ (r.sched.tin q).idleFlows := by
  obtain ⟨t', htin, -, hidle, -⟩ := serve_spec law hprofile now h p
  rw [htin]
  split
  · next hq => exact hq ▸ hidle
  · exact le_rfl

theorem rolling_serve (hprofile : c.profile ≠ .legacy) (now : ℤ) (h : Rolling arrived r)
    (p : ProbePriority) (hp : r.choose = some p) :
    Rolling arrived (r.serve law now p) where
  inv := (inv_serve law hprofile now h.inv p).1
  clean := h.clean.mono fun _ => idleFlows_serve_le law hprofile now h.inv p
  idle q := (idleFlows_serve_le law hprofile now h.inv p q).trans (h.idle q)
  empty q hq := by
    obtain ⟨t', htin, -, -, ⟨hexhausted, -, -, hwork⟩ | ⟨hexhausted, -⟩⟩ :=
      serve_spec law hprofile now h.inv p
    · rw [hexhausted, PerTin.get_set] at hq
      rw [htin]
      split
      · exact hwork (h.idle p)
      · next hne =>
        rw [if_neg hne] at hq
        exact h.empty q hq
    · -- the tin that was asked was not left out
      rw [hexhausted] at hq
      have hne : p ≠ q := fun heq => by
        rw [← heq, (choose_eq_some hp).1] at hq
        cases hq
      rw [htin, if_neg hne]
      exact h.empty q hq

/-- Where no tin can be asked, nothing waits. -/
theorem Rolling.aqmDepth_eq_zero (hprofile : c.profile ≠ .legacy) (h : Rolling arrived r)
    (hchoose : r.choose = none) : r.sched.aqmDepth = 0 := by
  have hdepth : ∀ p, (r.sched.tin p).depth = 0 := fun p => by
    refine Tin.depth_of_not_hasWork (h.inv.sound p) ?_
    cases hp : r.exhausted.get p with
    | true => exact h.empty p hp
    | false => exact choose_eq_none hchoose p hp
  rw [h.inv.depth hprofile]
  simp [ProbePriority.all, hdepth]

/-! ### What does not touch the tags -/

/-- Nothing has changed that the choice of a tin depends on. -/
structure Alike (s s' : Sched α c) : Prop where
  vtime : s'.vtime = s.vtime
  pass : ∀ p, (s'.tin p).pass = (s.tin p).pass
  hasWork : ∀ p, (s'.tin p).hasWork = (s.tin p).hasWork
  idle : c.profile ≠ .softCake → ∀ p, (s'.tin p).idleFlows ≤ (s.tin p).idleFlows

namespace Alike

theorem refl (s : Sched α c) : Alike s s := ⟨rfl, fun _ => rfl, fun _ => rfl, fun _ _ => le_rfl⟩

theorem clock (s : Sched α c) (now : ℤ) : Alike s { s with lastNowMs := max s.lastNowMs now } :=
  ⟨rfl, fun _ => rfl, fun _ => rfl, fun _ _ => le_rfl⟩

theorem trans {s'' : Sched α c} (h : Alike s s') (h' : Alike s' s'') : Alike s s'' where
  vtime := h'.vtime.trans h.vtime
  pass p := (h'.pass p).trans (h.pass p)
  hasWork p := (h'.hasWork p).trans (h.hasWork p)
  idle hprofile p := (h'.idle hprofile p).trans (h.idle hprofile p)

/-- A tin is changed, but neither its tag nor its lists. -/
theorem of_set {t' : Tin α c} (htins : s'.tins = s.tins.set t' p) (hvtime : s'.vtime = s.vtime)
    (hpass : t'.pass = (s.tin p).pass) (hwork : t'.hasWork = (s.tin p).hasWork)
    (hidle : c.profile ≠ .softCake → t'.idleFlows ≤ (s.tin p).idleFlows) : Alike s s' := by
  have htin : ∀ q, s'.tin q = if p = q then t' else s.tin q := fun q => by
    rw [tin, htins, PerTin.get_set]
    rfl
  refine ⟨hvtime, fun q => ?_, fun q => ?_, fun hprofile q => ?_⟩
  · rw [htin]
    split
    · next hq => exact hq ▸ hpass
    · rfl
  · rw [htin]
    split
    · next hq => exact hq ▸ hwork
    · rfl
  · rw [htin]
    split
    · next hq => exact hq ▸ hidle hprofile
    · exact le_rfl

end Alike

theorem alike_settleTins (s : Sched α c) (now : ℤ) : Alike s (s.settleTins law now) := by
  refine foldl_invariant (I := Alike s) (fun s' p hs => hs.trans ?_) ProbePriority.all (.refl s)
  unfold settleTin
  split
  · exact .of_set rfl rfl rfl rfl fun _ => le_rfl
  · exact .of_set rfl rfl rfl rfl fun _ => le_rfl

theorem alike_onTimeoutOrFail (s : Sched α c) (p : ProbePriority) :
    Alike s (s.onTimeoutOrFail law p) := by
  unfold onTimeoutOrFail
  split
  · exact .refl s
  dsimp only
  split
  · split
    · exact .of_set rfl rfl rfl rfl fun _ => le_rfl
    · exact .of_set rfl rfl rfl rfl fun _ => le_rfl
  · split
    · exact .of_set rfl rfl rfl rfl fun _ => le_rfl
    · exact .of_set rfl rfl rfl rfl fun _ => le_rfl

theorem alike_onSuccess (s : Sched α c) (p : ProbePriority) : Alike s (s.onSuccess law p) := by
  unfold onSuccess
  split
  · exact .refl s
  · exact .of_set rfl rfl rfl rfl fun _ => le_rfl

/-- An overload shed leaves the flow in its list, even an empty one. -/
theorem alike_overloadLoop (hprofile : c.profile = .softCake) (order : HashOrder) (fuel : ℕ)
    (s : Sched α c) : Alike s (s.overloadLoop law order fuel) := by
  induction fuel generalizing s with
  | zero => exact .refl s
  | succ fuel ih =>
    rw [overloadLoop]
    split
    · exact .refl s
    split
    · exact .refl s
    next pick _ =>
    split
    · exact .refl s
    next q t' hpop =>
    have hpass : t'.pass = (s.tin pick.tin).pass ∧
        t'.hasWork = (s.tin pick.tin).hasWork := by
      unfold Tin.popHeadOfFlow at hpop
      split at hpop
      · cases hpop
      split at hpop
      · cases hpop
      · cases hpop
        exact ⟨rfl, rfl⟩
    refine Alike.trans ?_ (ih _)
    exact .of_set rfl rfl hpass.1 hpass.2 fun hne => absurd hprofile hne

/-! ### Nothing is left over -/

theorem Inv.clean_of_legacy (h : Inv arrived s) (hprofile : c.profile = .legacy) : s.Clean := by
  intro _ p
  refine Ways.total_eq_zero _ fun k f hget => ?_
  rw [h.flows hprofile] at hget
  cases hget

theorem clean_dispatchAqm (hprofile : c.profile ≠ .legacy) (h : Inv arrived s) (hclean : s.Clean)
    (cwnd now : ℤ) : (s.dispatchAqm law cwnd now).2.Clean := by
  have hclock := Alike.clock s now
  unfold dispatchAqm
  dsimp only
  split
  · exact hclean.mono hclock.idle
  obtain ⟨⟨-, hrounds⟩, -⟩ := rounds_invariant law
    (I := fun r => Inv arrived r.sched ∧ r.sched.Clean) (max cwnd 0).toNat now
    (fun r p hr _ _ => ⟨(inv_serve law hprofile now hr.1 p).1,
      hr.2.mono fun _ => idleFlows_serve_le law hprofile now hr.1 p⟩)
    (r := { sched := { s with lastNowMs := max s.lastNowMs now } })
    ⟨⟨h.sound, h.fifo, h.conserved, h.drops, h.depth, h.queue, h.flows, h.critical⟩,
      hclean.mono hclock.idle⟩
  exact hrounds.mono (alike_settleTins law _ now).idle

/-- No call leaves an empty flow behind, but for the overload sheds of the third profile. -/
theorem clean_apply (h : Inv arrived s) (hclean : s.Clean) (a : Act) : (s.apply law a).Clean := by
  by_cases hprofile : c.profile = .legacy
  · exact (inv_apply law h a).1.clean_of_legacy hprofile
  cases a with
  | enqueue req order =>
    rw [apply, enqueue, if_neg hprofile]
    intro hsoft
    rw [enqueueAqm, if_neg (fun hboth => hsoft hboth.1)]
    refine hclean.mono (fun _ q => ?_) hsoft
    change ((s.setTin req.priority _).tin q).idleFlows ≤ _
    rw [tin_setTin]
    split
    · next hq => exact hq ▸ Tin.idleFlows_arrive _ _ _
    · exact le_rfl
  | dispatch cwnd now =>
    rw [apply, dispatch, if_neg hprofile]
    exact clean_dispatchAqm law hprofile h hclean cwnd now
  | onTimeoutOrFail p => exact hclean.mono (alike_onTimeoutOrFail law s p).idle
  | onSuccess p => exact hclean.mono (alike_onSuccess law s p).idle

theorem clean_withTunables (c : Tunables) : (.withTunables law c : Sched α c).Clean := by
  intro _ p
  refine Ways.total_eq_zero _ fun k f hget => ?_
  have hnone : ((withTunables law c : Sched α c).tin p).flows.get? k = none := by
    cases p <;> exact Ways.get?_empty _ c.way_lt k
  rw [hnone] at hget
  cases hget

theorem clean_run (c : Tunables) (acts : List Act) : (run law c acts : Sched α c).Clean := by
  have hstep : ∀ (s : Sched α c) (a : Act), (∃ arrived, Inv arrived s ∧ s.Clean) →
      ∃ arrived, Inv arrived (s.apply law a) ∧ (s.apply law a).Clean :=
    fun s a ⟨_, hinv, hclean⟩ => ⟨_, (inv_apply law hinv a).1, clean_apply law hinv hclean a⟩
  obtain ⟨-, -, hclean⟩ := foldl_invariant hstep acts
    ⟨_, inv_withTunables law c, clean_withTunables law c⟩
  exact hclean

/-- **A dispatch with room left leaves nothing.**  After every run under one of the two newer
profiles, unless a tin is clogged: a dispatch that returns fewer probes than its window leaves
the pipeline empty. -/
theorem dispatch_leaves_nothing (c : Tunables) (hprofile : c.profile ≠ .legacy) (acts : List Act)
    (hunclogged : (run law c acts : Sched α c).Unclogged) (cwnd now : ℤ)
    (hroom : (((run law c acts : Sched α c).dispatch law cwnd now).1.length : ℤ) < cwnd) :
    ((run law c acts : Sched α c).dispatch law cwnd now).2.pipelineDepth = 0 := by
  have hinv := (inv_run law c acts).1
  have hclean := clean_run law c acts
  generalize (run law c acts : Sched α c) = s at hinv hclean hunclogged hroom ⊢
  rw [dispatch, if_neg hprofile, dispatchAqm] at hroom ⊢
  split at hroom
  · next hcap =>
    omega
  next hcap =>
  rw [if_neg hcap]
  obtain ⟨hrolling, hend⟩ := rounds_invariant law (I := Rolling (arrivals acts))
    (max cwnd 0).toNat now (fun r p hr _ hp => rolling_serve law hprofile now hr p hp)
    (hinv.rolling hclean hunclogged now)
  rcases hend with hfull | hnone
  · change (length (Round.rounds law _ now _).out : ℤ) < cwnd at hroom
    omega
  · rw [pipelineDepth, if_neg hprofile]
    refine Eq.trans ?_ (hrolling.aqmDepth_eq_zero hprofile hnone)
    exact foldl_invariant (I := fun s' : Sched α c => s'.aqmDepth = _) (fun _ _ hs => hs)
      ProbePriority.all rfl

end Steps

section Stall

/-- A queue management that sheds nothing. -/
def calmLaw : AqmLaw Unit where
  fresh := ()
  shouldShed _ _ _ := (false, ())
  onGoodOrUndroppableAt _ _ _ := ()
  onDrainedAt _ _ := ()
  onFailAt _ _ := ()
  onSuccessAt _ _ := ()

/-- The third profile with its weights. -/
def softTunables : Tunables := ⟨.softCake, ⟨100, 50, 12⟩, 1, 8, by decide⟩

def insertionOrder : HashOrder := ⟨Dict.rows, fun _ => .refl _⟩

def arrival (domain : String) (priority : ProbePriority) : Act :=
  .enqueue ⟨domain.toList, priority, 0, .tcp, 0⟩ insertionOrder

/-- 128 critical probes wait, and the probes of two flows are shed since there are too many: the
flows stay, and stand before the flow of a third probe, for which there is room again. -/
def stalling : List Act :=
  List.replicate 128 (arrival "a" .critical) ++
    [arrival "x" .normal, arrival "y" .normal, .dispatch 1 0, arrival "z" .normal]

/-- The two turns of the loop go to the empty flows, and the tin is left out. -/
theorem empty_flows_hide_a_probe :
    let s := run calmLaw softTunables stalling
    (s.dispatch calmLaw 1000 0).1.length = 127 ∧
      (s.dispatch calmLaw 1000 0).2.pipelineDepth = 1 := by
  decide +kernel

theorem one_empty_flow_is_passed :
    let s := run calmLaw softTunables
      (List.replicate 128 (arrival "a" .critical) ++
        [arrival "x" .normal, .dispatch 1 0, arrival "z" .normal])
    (s.tin .normal).idleFlows = 1 ∧ (s.dispatch calmLaw 1000 0).1.length = 128 ∧
      (s.dispatch calmLaw 1000 0).2.pipelineDepth = 0 :=
  ⟨by decide +kernel, by decide +kernel,
    dispatch_leaves_nothing calmLaw softTunables (by decide) _ (by decide +kernel) 1000 0
      (by decide +kernel)⟩

end Stall

section Steps

variable (law : AqmLaw α)

/-! ### The moments of a run -/

/-- The states between the turns of a call; only a dispatch of the newer profiles has any. -/
def between (s : Sched α c) : Act → List (Sched α c)
  | .dispatch cwnd now =>
    let cap := (max cwnd 0).toNat
    if cap = 0 then []
    else
      (trail (Sched.Round.turn law cap now) (cap + 4)
        { sched := { s with lastNowMs := max s.lastNowMs now } }).map Sched.Round.sched
  | _ => []

/-- The states a run goes through. -/
def moments : Sched α c → List Act → List (Sched α c)
  | s, [] => [s]
  | s, a :: acts => s :: (between law s a ++ moments (s.apply law a) acts)

/-- A tin that has work moves by its stride for every probe it gives. -/
def Moves (s s' : Sched α c) : Prop :=
  ∀ p, (s.tin p).hasWork = true →
    (s'.tin p).pass - s'.served p * c.stride p = (s.tin p).pass - s.served p * c.stride p

/-- What holds at every moment. -/
structure Steady (s : Sched α c) : Prop where
  inv : ∃ arrived, Inv arrived s
  clean : s.Clean
  confined : Confined c.stride (fun p => (s.tin p).hasWork = true) (fun p => (s.tin p).pass) s.vtime

theorem Tunables.stride_nonneg (c : Tunables) (p : ProbePriority) : 0 ≤ c.stride p :=
  Int.ediv_nonneg (by decide) (by omega)

theorem Alike.confined (h : Alike s s')
    (hs : Confined c.stride (fun p => (s.tin p).hasWork = true) (fun p => (s.tin p).pass) s.vtime) :
    Confined c.stride (fun p => (s'.tin p).hasWork = true) (fun p => (s'.tin p).pass) s'.vtime := by
  simp only [h.vtime, h.pass, h.hasWork]
  exact hs

theorem Alike.moves (h : Alike s s') (hdispatched : s'.dispatched = s.dispatched) :
    Moves s s' := by
  intro p _
  rw [h.pass, served, served, hdispatched]

variable {r : Sched.Round α c}

/-- A turn serves the tin with the least tag of all that have work. -/
theorem confined_serve (hprofile : c.profile ≠ .legacy) (now : ℤ) (h : Rolling arrived r)
    (hp : r.choose = some p)
    (hconfined : Confined c.stride (fun q => (r.sched.tin q).hasWork = true)
      (fun q => (r.sched.tin q).pass) r.sched.vtime) :
    Confined c.stride (fun q => ((r.serve law now p).sched.tin q).hasWork = true)
      (fun q => ((r.serve law now p).sched.tin q).pass) (r.serve law now p).sched.vtime := by
  obtain ⟨-, hwork, hleast⟩ := choose_eq_some hp
  -- the tins that were left out have no work, so the tag is the least of all
  have hvisit := hconfined.visit (i := p) fun q hq => by
    refine hleast q ?_ hq
    cases hexhausted : r.exhausted.get q with
    | false => rfl
    | true =>
      rw [h.empty q hexhausted] at hq
      cases hq
  obtain ⟨t', htin, hvtime, -, hpass⟩ := serve_spec law hprofile now h.inv p
  rw [hvtime]
  have hbusy : ∀ q, ((r.serve law now p).sched.tin q).hasWork = true →
      (r.sched.tin q).hasWork = true := fun q hq => by
    rw [htin] at hq
    split at hq
    · next heq => exact heq ▸ hwork
    · exact hq
  suffices h' : Confined c.stride (fun q => (r.sched.tin q).hasWork = true)
      (fun q => ((r.serve law now p).sched.tin q).pass)
      (max r.sched.vtime (r.sched.tin p).pass) from h'.mono hbusy
  rcases hpass with ⟨-, hpass, -⟩ | ⟨-, hpass, -⟩
  · have hsame : ∀ q, ((r.serve law now p).sched.tin q).pass = (r.sched.tin q).pass := fun q => by
      rw [htin]
      split
      · next heq => rw [hpass, heq]
      · rfl
    simp only [hsame]
    exact hvisit
  · refine hvisit.serve (c.stride_nonneg p) (by omega) ?_ fun q hq => ?_
    · rw [htin, if_pos rfl, hpass]
    · rw [htin, if_neg (Ne.symm hq)]

theorem moves_serve (hprofile : c.profile ≠ .legacy) (now : ℤ) (h : Inv arrived r.sched)
    (p : ProbePriority) : Moves r.sched (r.serve law now p).sched := by
  obtain ⟨t', htin, -, -, ⟨-, hpass, hserved, -⟩ | ⟨-, hpass, hserved⟩⟩ :=
    serve_spec law hprofile now h p
  · intro q _
    rw [htin, hserved]
    split
    · next heq => rw [hpass, heq]
    · rfl
  · intro q _
    rw [htin, hserved]
    split
    · next heq =>
      subst heq
      rw [hpass, add_mul, one_mul]
      omega
    · rw [add_zero]

/-- An arrival at a tin without work sets its tag up to the virtual time. -/
theorem confined_enqueue (hprofile : c.profile ≠ .legacy) (req : ProbeRequest) (order : HashOrder)
    (h : Confined c.stride (fun p => (s.tin p).hasWork = true) (fun p => (s.tin p).pass) s.vtime) :
    let s' := s.enqueue law req order
    Confined c.stride (fun p => (s'.tin p).hasWork = true) (fun p => (s'.tin p).pass) s'.vtime ∧
      ∀ p, (s.tin p).hasWork = true → (s'.tin p).pass = (s.tin p).pass := by
  intro s'
  have hpass : ((s.tin req.priority).arrive s.vtime req).pass =
      if (s.tin req.priority).hasWork then (s.tin req.priority).pass
      else max (s.tin req.priority).pass s.vtime := by
    unfold Tin.arrive
    dsimp only
    split
    · rfl
    · split <;> rfl
  generalize hs₁ : ({ s.setTin req.priority ((s.tin req.priority).arrive s.vtime req) with
    lastNowMs := max s.lastNowMs req.enqueuedAtMs
    aqmDepth := s.aqmDepth + 1 } : Sched α c) = s₁
  have halike : Alike s₁ s' := by
    simp only [s', enqueue, if_neg hprofile, enqueueAqm, hs₁]
    split
    · next hboth => exact alike_overloadLoop law hboth.1 order _ s₁
    · exact .refl s₁
  have htin : ∀ q, s₁.tin q = if req.priority = q then (s.tin req.priority).arrive s.vtime req
      else s.tin q := fun q => by
    rw [← hs₁]
    exact tin_setTin _ _ _ _
  have hvtime : s₁.vtime = s.vtime := by rw [← hs₁]; rfl
  have hkept : ∀ q, (s.tin q).hasWork = true → (s₁.tin q).pass = (s.tin q).pass := by
    intro q hq
    rw [htin]
    split
    · next heq =>
      subst heq
      rw [hpass, if_pos hq]
    · rfl
  refine ⟨halike.confined ?_, fun q hq => (halike.pass q).trans (hkept q hq)⟩
  rw [hvtime]
  have hother : ∀ q, q ≠ req.priority → s₁.tin q = s.tin q := fun q hq => by
    rw [htin, if_neg (Ne.symm hq)]
  by_cases hwork : (s.tin req.priority).hasWork = true
  · have hsame : ∀ q, (s₁.tin q).pass = (s.tin q).pass := fun q => by
      by_cases hq : q = req.priority
      · exact hkept q (hq ▸ hwork)
      · rw [hother q hq]
    simp only [hsame]
    refine h.mono fun q hq => ?_
    by_cases heq : q = req.priority
    · exact heq ▸ hwork
    · rw [hother q heq] at hq
      exact hq
  · refine h.wake (i := req.priority) (c.stride_nonneg _) ?_ (fun q hq => by rw [hother q hq])
      fun q hq hbusy => ?_
    · rw [htin, if_pos rfl, hpass, if_neg hwork]
    · rw [hother q hq] at hbusy
      exact hbusy

/-- The dispatches are made while no tin is clogged. -/
def Act.Unclogged (s : Sched α c) : Act → Prop
  | .dispatch _ _ => s.Unclogged
  | _ => True

instance (s : Sched α c) : (a : Act) → Decidable (a.Unclogged s)
  | .dispatch _ _ => inferInstanceAs (Decidable s.Unclogged)
  | .enqueue _ _ | .onTimeoutOrFail _ | .onSuccess _ => inferInstanceAs (Decidable True)

/-- **The rule for the moments of a dispatch**, from the state before it to the state after it. -/
theorem isChain_dispatch {I : Sched.Round α c → Prop} {R : Sched α c → Sched α c → Prop}
    (hprofile : c.profile ≠ .legacy) (cwnd now : ℤ)
    (hclock : R s { s with lastNowMs := max s.lastNowMs now })
    (hstart : I { sched := { s with lastNowMs := max s.lastNowMs now } })
    (hserve : ∀ r p, I r → r.choose = some p →
      I (r.serve law now p) ∧ R r.sched (r.serve law now p).sched)
    (hsettle : ∀ r, I r → R r.sched (r.sched.settleTins law now)) :
    (s :: (between law s (.dispatch cwnd now) ++ [s.apply law (.dispatch cwnd now)])).IsChain R ∧
      (∀ x ∈ between law s (.dispatch cwnd now), ∃ r, I r ∧ r.sched = x) ∧
      ∃ r, I r ∧ (s.apply law (.dispatch cwnd now) = r.sched ∨
        s.apply law (.dispatch cwnd now) = r.sched.settleTins law now) := by
  rw [apply, dispatch, if_neg hprofile, dispatchAqm, between]
  dsimp only
  split
  · exact ⟨isChain_pair.mpr hclock, by simp, _, hstart, .inl rfl⟩
  obtain ⟨hchain, hall⟩ := isChain_trail (R := fun r r' => R r.sched r'.sched)
    (fun r r' hr (hturn : r.turn law (max cwnd 0).toNat now = .next r') => by
      obtain ⟨p, -, hp, rfl⟩ := turn_eq_next law hturn
      exact hserve r p hr hp) ((max cwnd 0).toNat + 4) hstart
  obtain ⟨last, hlast, hhalt⟩ := getLast?_trail _ (loop_turn_eq law (max cwnd 0).toNat now
    { sched := { s with lastNowMs := max s.lastNowMs now } })
  obtain ⟨heq, -⟩ := turn_eq_halt law hhalt
  have hr := hall last (mem_of_getLast? hlast)
  rw [heq]
  refine ⟨isChain_cons.mpr ⟨fun x hx => ?_, isChain_append.mpr
    ⟨(isChain_map _).mpr hchain, .singleton _, fun x hx y hy => ?_⟩⟩, fun x hx => ?_,
    last, hr, .inr rfl⟩
  · rw [head?_append, head?_map, head?_trail] at hx
    cases hx
    exact hclock
  · rw [getLast?_map, hlast] at hx
    cases hx
    cases hy
    exact hsettle last hr
  · obtain ⟨r, hmem, rfl⟩ := mem_map.mp hx
    exact ⟨r, hall r hmem, rfl⟩

/-- The moments of one call, from the state before it to the state after it. -/
theorem isChain_between (hprofile : c.profile ≠ .legacy) (h : Steady s) (a : Act)
    (ha : a.Unclogged s) :
    (s :: (between law s a ++ [s.apply law a])).IsChain Moves ∧
      (∀ x ∈ between law s a, Steady x) ∧ Steady (s.apply law a) := by
  obtain ⟨arrived, hinv⟩ := h.inv
  obtain ⟨hinv', hlogs⟩ := inv_apply law hinv a
  have hclean' := clean_apply law hinv h.clean a
  -- a call that dispatches nothing
  have hquiet : between law s a = [] → a.output law s = [] →
      Confined c.stride (fun p => ((s.apply law a).tin p).hasWork = true)
        (fun p => ((s.apply law a).tin p).pass) (s.apply law a).vtime →
      (∀ p, (s.tin p).hasWork = true → ((s.apply law a).tin p).pass = (s.tin p).pass) →
      (s :: (between law s a ++ [s.apply law a])).IsChain Moves ∧
        (∀ x ∈ between law s a, Steady x) ∧ Steady (s.apply law a) := by
    intro hnone hout hconfined hpass
    rw [hnone]
    refine ⟨?_, by simp, ⟨_, hinv'⟩, hclean', hconfined⟩
    refine isChain_cons_cons.mpr ⟨fun p hp => ?_, .singleton _⟩
    rw [Logs, hout, append_nil] at hlogs
    rw [hpass p hp, served, served, hlogs]
  cases a with
  | enqueue req order =>
    obtain ⟨hconfined, hpass⟩ := confined_enqueue law hprofile req order h.confined
    exact hquiet rfl rfl hconfined hpass
  | onTimeoutOrFail p =>
    have halike := alike_onTimeoutOrFail law s p
    exact hquiet rfl rfl (halike.confined h.confined) fun q _ => halike.pass q
  | onSuccess p =>
    have halike := alike_onSuccess law s p
    exact hquiet rfl rfl (halike.confined h.confined) fun q _ => halike.pass q
  | dispatch cwnd now =>
    obtain ⟨hchain, hbetween, r, ⟨-, hr⟩, hafter⟩ := isChain_dispatch law
      (I := fun r => Rolling arrived r ∧ Confined c.stride
        (fun p => (r.sched.tin p).hasWork = true) (fun p => (r.sched.tin p).pass) r.sched.vtime)
      (R := Moves) hprofile cwnd now ((Alike.clock s now).moves rfl)
      ⟨hinv.rolling h.clean ha now, h.confined⟩
      (fun r p hr hp => ⟨⟨rolling_serve law hprofile now hr.1 p hp,
        confined_serve law hprofile now hr.1 hp hr.2⟩, moves_serve law hprofile now hr.1.inv p⟩)
      fun r _ => (alike_settleTins law r.sched now).moves rfl
    refine ⟨hchain, fun x hx => ?_, ⟨_, hinv'⟩, hclean', ?_⟩
    · obtain ⟨r', ⟨hrolling, hconfined⟩, rfl⟩ := hbetween x hx
      exact ⟨⟨_, hrolling.inv⟩, hrolling.clean, hconfined⟩
    · rcases hafter with heq | heq
      · rw [heq]
        exact hr
      · rw [heq]
        exact (alike_settleTins law r.sched now).confined hr

theorem head?_moments (s : Sched α c) (acts : List Act) : (moments law s acts).head? = some s := by
  cases acts <;> rfl

/-- **The rule for the moments of a run.** -/
theorem isChain_moments {I : Sched α c → Prop} {R : Sched α c → Sched α c → Prop}
    {allowed : Sched α c → Act → Prop}
    (hcall : ∀ s a, I s → allowed s a → (s :: (between law s a ++ [s.apply law a])).IsChain R ∧ (∀ x
      ∈ between law s a, I x) ∧ I (s.apply law a)) (acts : List Act) {s : Sched α c} (h : I s)
    (halong : Along (Sched.apply law) allowed s acts) :
    (moments law s acts).IsChain R ∧ ∀ x ∈ moments law s acts, I x := by
  induction acts generalizing s with
  | nil =>
    exact ⟨.singleton s, fun x hx => by rw [mem_singleton.mp hx]; exact h⟩
  | cons a acts ih =>
    obtain ⟨hfirst, hbetween, hafter⟩ := hcall s a h halong.1
    obtain ⟨hrest, hall⟩ := ih hafter halong.2
    refine ⟨?_, forall_mem_cons.mpr ⟨h, fun x hx => ?_⟩⟩
    · -- the state after the call is the first moment of the rest
      obtain ⟨rest, hmoments⟩ : ∃ rest, moments law (s.apply law a) acts = s.apply law a :: rest :=
        head?_eq_some_iff.mp (head?_moments law _ acts)
      rw [moments, hmoments]
      rw [hmoments] at hrest
      exact isChain_cons_split.mpr ⟨hfirst, hrest⟩
    · rcases mem_append.mp hx with hx | hx
      · exact hbetween x hx
      · exact hall x hx

theorem steady_withTunables (c : Tunables) : Steady (.withTunables law c : Sched α c) where
  inv := ⟨[], inv_withTunables law c⟩
  clean := clean_withTunables law c
  confined := by
    have hpass : ∀ p, ((withTunables law c : Sched α c).tin p).pass = 0 := fun p => by
      cases p <;> rfl
    simp only [hpass]
    refine ⟨fun p => ?_, fun _ _ => le_rfl⟩
    have := c.stride_nonneg p
    change 0 ≤ 0 + c.stride p
    omega

/-- Over a part of a run in which a tin has work, its tag moves by what it gives. -/
theorem moves_of_isChain {p : ProbePriority} : ∀ {part : List (Sched α c)} {first last : Sched α c},
    part.IsChain Moves → part.head? = some first → part.getLast? = some last →
      (∀ x ∈ part, (x.tin p).hasWork = true) →
      (last.tin p).pass - last.served p * c.stride p =
        (first.tin p).pass - first.served p * c.stride p := by
  intro part
  induction part with
  | nil => intro first last _ hfirst; cases hfirst
  | cons x part ih =>
    intro first last hchain hfirst hlast hwork
    cases hfirst
    obtain ⟨hnext, hchain⟩ := isChain_cons.mp hchain
    obtain ⟨hx, hwork⟩ := forall_mem_cons.mp hwork
    cases part with
    | nil =>
      cases hlast
      rfl
    | cons y part =>
      exact (ih hchain rfl hlast hwork).trans (hnext y rfl p hx)

theorem Tin.hasWork_of_depth_pos {t : Tin α c} (h : t.Sound) (hdepth : 0 < t.depth) :
    t.hasWork = true := by
  cases hwork : t.hasWork with
  | true => rfl
  | false =>
    rw [depth_of_not_hasWork h hwork] at hdepth
    cases hdepth

/-- **The tins share fairly.**  Over every run under one of the two newer profiles whose
dispatches are made while no tin is clogged, and every part of it in which two tins hold a probe
at every moment: what the two give, each by its stride, differs by no more than the strides. -/
theorem tins_share_fairly (c : Tunables) (hprofile : c.profile ≠ .legacy) (acts : List Act)
    (hunclogged : Along (Sched.apply law) (fun s a => a.Unclogged s)
      (.withTunables law c : Sched α c) acts)
    {pre part post : List (Sched α c)}
    (hpart : moments law (.withTunables law c) acts = pre ++ part ++ post)
    {first last : Sched α c} (hfirst : part.head? = some first) (hlast : part.getLast? = some last)
    (i j : ProbePriority) (hi : ∀ s ∈ part, 0 < (s.tin i).depth)
    (hj : ∀ s ∈ part, 0 < (s.tin j).depth) :
    |(last.served i - first.served i) * c.stride i -
        (last.served j - first.served j) * c.stride j| ≤ c.stride i + c.stride j := by
  obtain ⟨hchain, hsteady⟩ :=
    isChain_moments law (fun s a h ha => isChain_between law hprofile h a ha) acts
      (steady_withTunables law c) hunclogged
  rw [hpart] at hchain hsteady
  have hpartChain : part.IsChain Moves := hchain.left_of_append.right_of_append
  have hsteady' : ∀ s ∈ part, Steady s := fun s hs =>
    hsteady s (mem_append_left _ (mem_append_right _ hs))
  have hwork : ∀ p, (∀ s ∈ part, 0 < (s.tin p).depth) → ∀ s ∈ part, (s.tin p).hasWork = true :=
    fun p hp s hs => by
      obtain ⟨arrived, hinv⟩ := (hsteady' s hs).inv
      exact Tin.hasWork_of_depth_pos (hinv.sound p) (hp s hs)
  have hfirstMem : first ∈ part := mem_of_mem_head? hfirst
  have hlastMem : last ∈ part := mem_of_getLast? hlast
  have hmoveI := moves_of_isChain hpartChain hfirst hlast (hwork i hi)
  have hmoveJ := moves_of_isChain hpartChain hfirst hlast (hwork j hj)
  have hbound := (hsteady' first hfirstMem).confined.abs_sub_le (hsteady' last hlastMem).confined
    (hwork i hi first hfirstMem) (hwork j hj first hfirstMem) (hwork i hi last hlastMem)
    (hwork j hj last hlastMem)
  have hgivenI : (last.tin i).pass - (first.tin i).pass =
      (last.served i - first.served i) * c.stride i := by
    rw [sub_mul]
    omega
  have hgivenJ : (last.tin j).pass - (first.tin j).pass =
      (last.served j - first.served j) * c.stride j := by
    rw [sub_mul]
    omega
  rw [← hgivenI, ← hgivenJ]
  exact hbound

end Steps

section Stall

/-- Two tins with probes, one of which is served. -/
def sharing : List Act :=
  [arrival "a" .critical, arrival "b" .critical, arrival "c" .normal, .dispatch 1 0]

theorem two_tins_share :
    let part := (moments calmLaw (.withTunables calmLaw softTunables) sharing).drop 3
    ∃ first last, part.head? = some first ∧ part.getLast? = some last ∧
      last.served .critical - first.served .critical = 1 ∧
      |(last.served .critical - first.served .critical) * softTunables.stride .critical -
          (last.served .normal - first.served .normal) * softTunables.stride .normal| ≤
        softTunables.stride .critical + softTunables.stride .normal := by
  intro part
  have hall : part.all (fun s => 0 < (s.tin .critical).depth ∧ 0 < (s.tin .normal).depth) =
      true := by
    decide +kernel
  have hone : ((part.getLast?.map fun s => s.served .critical).getD 0 -
      (part.head?.map fun s => s.served .critical).getD 0) = 1 := by
    decide +kernel
  obtain ⟨first, hfirst⟩ := isSome_iff_exists.mp (show part.head?.isSome = true by
    decide +kernel)
  obtain ⟨last, hlast⟩ := isSome_iff_exists.mp (show part.getLast?.isSome = true by
    decide +kernel)
  rw [hfirst, hlast] at hone
  have hsplit : moments calmLaw (.withTunables calmLaw softTunables) sharing =
      (moments calmLaw (.withTunables calmLaw softTunables) sharing).take 3 ++ part ++ [] := by
    rw [append_nil, take_append_drop]
  refine ⟨first, last, hfirst, hlast, hone, ?_⟩
  refine tins_share_fairly calmLaw softTunables (by decide) sharing (by decide +kernel)
    hsplit hfirst hlast .critical .normal (fun s hs => ?_) (fun s hs => ?_)
  · simpa using (of_decide_eq_true (all_eq_true.mp hall s hs)).1
  · simpa using (of_decide_eq_true (all_eq_true.mp hall s hs)).2

/-- The tin with the hidden probe gets no turn while the other gives ten. -/
theorem hidden_tin_starves :
    let part := (moments calmLaw (.withTunables calmLaw softTunables)
      (stalling ++ [.dispatch 10 0])).drop 134
    part.all (fun s => 0 < (s.tin .critical).depth ∧ 0 < (s.tin .normal).depth) = true ∧
      (part.head?.map fun s => (s.served .critical, s.served .normal)) = some (1, 0) ∧
      (part.getLast?.map fun s => (s.served .critical, s.served .normal)) = some (11, 0) ∧
      softTunables.stride .critical + softTunables.stride .normal <
        |(11 - 1) * softTunables.stride .critical - (0 - 0) * softTunables.stride .normal| := by
  decide +kernel

end Stall

section Steps

variable (law : AqmLaw α)

/-! ### The representation -/

/-- Whether `serve_one_from_tin` comes by a key on a list without a flow: the turns of `serveLoop`
up to there. -/
def missesFlow (now : ℤ) : ℕ → Tin α c → Bool
  | 0, _ => false
  | turns + 1, t =>
    match t.front with
    | none => false
    | some key =>
      match t.flows.get? key with
      | none => true
      | some f =>
        match f.queue with
        | [] => (t.retireFlowIfEmpty key).hasWork && missesFlow now turns (t.retireFlowIfEmpty key)
        | p :: _ =>
          let sojourn := max (now - p.enqueuedAtMs) 0
          let decision :=
            if isDroppable p then law.shouldShed t.aqm sojourn now
            else (false, law.onGoodOrUndroppableAt t.aqm sojourn now)
          isDroppable p && decision.1 && missesFlow now turns
            ((({ t with aqm := decision.2 } : Tin α c).popHeadOfFlow key).2.retireFlowIfEmpty key)

theorem missesFlow_eq_false (now : ℤ) (turns : ℕ) {t : Tin α c} (h : t.Sound) :
    missesFlow law now turns t = false := by
  induction turns generalizing t with
  | zero => rfl
  | succ turns ih =>
    rw [missesFlow]
    cases hfront : t.front with
    | none => rfl
    | some k =>
      obtain ⟨f, hget, -⟩ := Tin.get?_of_front_eq_some h hfront
      dsimp only
      rw [hget]
      dsimp only
      cases hqueue : f.queue with
      | nil => simp only [ih (yields_retire h hget hqueue).sound, Bool.and_false]
      | cons p rest =>
        dsimp only
        generalize (if isDroppable p = true then _ else _ : Bool × α) = decision
        have hsound : ({ t with aqm := decision.2 } : Tin α c).Sound := h
        rw [ih (yields_shed hsound hget hqueue).sound, Bool.and_false]

/-- The tables, the lists and the flags fit together. -/
structure Represented (s : Sched α c) : Prop where
  depth : s.aqmDepth = (ProbePriority.all.map fun p => ((s.tin p).depth : ℤ)).sum
  bucket : ∀ p i d, (s.tin p).flows.buckets[i]? = some d → ∀ k ∈ d.keys, c.way k = i
  listed : ∀ p k f, (s.tin p).flows.get? k = some f → f.inOld = !f.inNew ∧
    (s.tin p).newFlows.count k = f.inNew.toNat ∧ (s.tin p).oldFlows.count k = f.inOld.toNat
  live : ∀ p k, k ∈ (s.tin p).newFlows ∨ k ∈ (s.tin p).oldFlows →
    ((s.tin p).flows.get? k).isSome = true
  found : ∀ p now, missesFlow law now ((s.tin p).depth + 1) (s.tin p) = false

theorem Inv.represented (hprofile : c.profile ≠ .legacy) (h : Inv arrived s) :
    Represented law s where
  depth := h.depth hprofile
  bucket p := (s.tin p).flows.home
  listed p k f hget := by
    have hs := h.sound p
    have hone := hs.one k f hget
    refine ⟨hone, ?_⟩
    cases hnew : f.inNew with
    | true =>
      rw [hone, hnew]
      exact ⟨count_eq_one_of_mem hs.nodup_new ((hs.mem_new k).mpr ⟨f, hget, hnew⟩),
        count_eq_zero.mpr (hs.notMem_old hget hnew)⟩
    | false =>
      rw [hnew] at hone
      rw [hone]
      exact ⟨count_eq_zero.mpr (hs.notMem_new hget hnew),
        count_eq_one_of_mem hs.nodup_old ((hs.mem_old k).mpr ⟨f, hget, hone⟩)⟩
  live p k hk := by
    rcases hk with hk | hk
    · obtain ⟨f, hget, -⟩ := ((h.sound p).mem_new k).mp hk
      exact isSome_of_eq_some hget
    · obtain ⟨f, hget, -⟩ := ((h.sound p).mem_old k).mp hk
      exact isSome_of_eq_some hget
  found p now := missesFlow_eq_false law now _ (h.sound p)

theorem isChain_vtime (hprofile : c.profile ≠ .legacy) (h : ∃ arrived, Inv arrived s) (a : Act) :
    (s :: (between law s a ++ [s.apply law a])).IsChain (fun s s' => s.vtime ≤ s'.vtime) ∧
      (∀ x ∈ between law s a, ∃ arrived, Inv arrived x) ∧
      ∃ arrived, Inv arrived (s.apply law a) := by
  obtain ⟨arrived, hinv⟩ := h
  have hinv' := (inv_apply law hinv a).1
  cases a with
  | enqueue req order =>
    have hvtime : (s.enqueue law req order).vtime = s.vtime := by
      rw [enqueue, if_neg hprofile, enqueueAqm]
      dsimp only
      split
      · next hboth => exact (alike_overloadLoop law hboth.1 order _ _).vtime
      · rfl
    exact ⟨isChain_pair.mpr hvtime.ge, forall_mem_nil _, _, hinv'⟩
  | onTimeoutOrFail p =>
    have hvtime := (alike_onTimeoutOrFail law s p).vtime
    exact ⟨isChain_pair.mpr hvtime.ge, forall_mem_nil _, _, hinv'⟩
  | onSuccess p =>
    have hvtime := (alike_onSuccess law s p).vtime
    exact ⟨isChain_pair.mpr hvtime.ge, forall_mem_nil _, _, hinv'⟩
  | dispatch cwnd now =>
    have hserve : ∀ (r : Sched.Round α c) p, r.sched.vtime ≤ (r.serve law now p).sched.vtime := by
      intro r p
      unfold Round.serve
      dsimp only
      split <;> exact le_max_left _ _
    obtain ⟨hchain, hbetween, -⟩ := isChain_dispatch law (I := fun r => Inv arrived r.sched)
      (R := fun s s' => s.vtime ≤ s'.vtime) hprofile cwnd now le_rfl (hinv.clock now)
      (fun r p hr _ => ⟨(inv_serve law hprofile now hr p).1, hserve r p⟩)
      fun r _ => (alike_settleTins law r.sched now).vtime.ge
    refine ⟨hchain, fun x hx => ?_, _, hinv'⟩
    obtain ⟨r, hr, rfl⟩ := hbetween x hx
    exact ⟨arrived, hr⟩

/-- **The representation over every run** of the newer profiles, at every moment: the tables, the
lists and the flags fit together, no key on a list is without its flow, and the virtual time
never decreases. -/
theorem representation_kept (c : Tunables) (hprofile : c.profile ≠ .legacy) (acts : List Act) :
    let states : List (Sched α c) := moments law (.withTunables law c) acts
    (∀ s ∈ states, Represented law s) ∧ (states.map Sched.vtime).Pairwise (· ≤ ·) := by
  intro states
  have halong : ∀ (acts : List Act) (s : Sched α c),
      Along (Sched.apply law) (fun _ _ => True) s acts := by
    intro acts
    induction acts with
    | nil => exact fun _ => trivial
    | cons a acts ih => exact fun s => ⟨trivial, ih _⟩
  obtain ⟨hchain, hall⟩ := isChain_moments law (fun s a h _ => isChain_vtime law hprofile h a)
    acts ⟨[], inv_withTunables law c⟩ (halong acts _)
  refine ⟨fun s hs => ?_, isChain_iff_pairwise.mp ((isChain_map _).mpr hchain)⟩
  obtain ⟨arrived, hinv⟩ := hall s hs
  exact hinv.represented law hprofile

end Steps

/-- The run in which a tin is emptied and filled again. -/
theorem representation_kept_stalling :
    softTunables.profile ≠ .legacy ∧
      let states : List (Sched Unit softTunables) :=
        moments calmLaw (.withTunables calmLaw softTunables) stalling
      (∀ s ∈ states, Represented calmLaw s) ∧ (states.map Sched.vtime).Pairwise (· ≤ ·) :=
  ⟨by decide, representation_kept calmLaw softTunables (by decide) stalling⟩

end Beast
end TortaCore
