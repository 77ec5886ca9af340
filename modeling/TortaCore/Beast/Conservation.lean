import TortaCore.Beast.Invariant
import TortaCore.Machine.Run
import Mathlib

/-!
# Nothing is lost

Over any run of the scheduler, each probe that was enqueued waits, was dispatched, or was shed;
the probes of a flow leave in the order in which they came; the drop counters tell how many were
shed; and outside the legacy profile a critical probe is shed only where there are too many and
nothing else could be.
-/

namespace TortaCore
namespace Beast

open Text Store Machine List Sched

variable {α : Type*} {c : Tunables} {arrived : List ProbeRequest} {s : Sched α c}
  {p : ProbePriority}

section Steps

variable (law : AqmLaw α)

/-! ### Departures -/

/-- What leaves is logged as dispatched in the order in which it is returned. -/
def Logs (s s' : Sched α c) (out : List ProbeRequest) : Prop :=
  s'.dispatched = s.dispatched ++ out

theorem drainTin_spec (limit cap : ℕ) (queue out : List ProbeRequest)
    (gone : List (ProbeRequest × Exit)) :
    ∃ exits,
      (Sched.drainTin limit cap queue out gone).2.2 = gone ++ exits ∧
      queue = exits.map Prod.fst ++ (Sched.drainTin limit cap queue out gone).1 ∧
      (Sched.drainTin limit cap queue out gone).2.1 =
        out ++ (exits.filter fun e => e.2 = .dispatched).map Prod.fst ∧
      (∀ e ∈ exits, e.2 = .dispatched ∨ e.2 = .overflow) ∧
      (out.length ≤ cap → (Sched.drainTin limit cap queue out gone).2.1.length ≤ cap) := by
  induction queue generalizing out gone with
  | nil =>
    exact ⟨[], by simp [drainTin], rfl, by simp [drainTin], by simp, fun h => h⟩
  | cons p rest ih =>
    rw [drainTin]
    split
    · exact ⟨[], by simp, rfl, by simp, by simp, fun h => h⟩
    next hroom =>
    split
    · obtain ⟨exits, hgone, hqueue, hout, hkinds, hcap⟩ := ih out (gone ++ [(p, .overflow)])
      refine ⟨(p, .overflow) :: exits, ?_, ?_, ?_, ?_, hcap⟩
      · rw [hgone, append_assoc]
        rfl
      · rw [map_cons, cons_append, ← hqueue]
      · rw [hout, filter_cons_of_neg (by simp)]
      · exact forall_mem_cons.mpr ⟨.inr rfl, hkinds⟩
    · obtain ⟨exits, hgone, hqueue, hout, hkinds, hcap⟩ :=
        ih (out ++ [p]) (gone ++ [(p, .dispatched)])
      refine ⟨(p, .dispatched) :: exits, ?_, ?_, ?_, ?_, fun _ => hcap ?_⟩
      · rw [hgone, append_assoc]
        rfl
      · rw [map_cons, cons_append, ← hqueue]
      · rw [hout, filter_cons_of_pos (by simp), append_assoc]
        rfl
      · exact forall_mem_cons.mpr ⟨.inl rfl, hkinds⟩
      · rw [length_append, length_singleton]
        omega

theorem inv_dispatchLegacyTin (hprofile : c.profile = .legacy) (h : Inv arrived s)
    (cap : ℕ) (out : List ProbeRequest) (p : ProbePriority) :
    ∃ more, (Sched.dispatchLegacyTin cap (out, s) p).1 = out ++ more ∧
      Inv arrived (Sched.dispatchLegacyTin cap (out, s) p).2 ∧
      Logs s (Sched.dispatchLegacyTin cap (out, s) p).2 more ∧
      (out.length ≤ cap → (out ++ more).length ≤ cap) := by
  obtain ⟨exits, hgone, hqueue, hout, hkinds, hcap⟩ :=
    drainTin_spec (tinMaxDepth p) cap (s.tin p).queue out []
  rw [nil_append] at hgone
  refine ⟨_, hout, ?_, ?_, hout ▸ hcap⟩
  · rw [← append_nil arrived]
    have hqueueOf : ∀ k, (s.tin p).queueOf k = [] := fun k => by
      rw [Tin.queueOf, h.flows hprofile p]
      rfl
    refine h.flux rfl ⟨h.sound p, fun k => ?_, ?_⟩ (congrArg (s.gone ++ ·) hgone) rfl (by simp) ?_
      (fun hp => absurd hprofile hp) (fun hp => absurd hprofile hp) (fun _ => h.flows hprofile p)
      (fun hp => absurd hprofile hp)
    · change _ = _ ++ (filter _ (drainTin _ cap (s.tin p).queue out []).1 ++
        (s.tin p).queueOf k)
      rw [Tin.lane, hqueueOf, append_nil, filter_nil, append_nil, append_nil,
        ← filter_append, ← hqueue]
    · change ((s.tin p).queue : Multiset ProbeRequest) + (s.tin p).waiting +
        ([] : List ProbeRequest) = _ + ((drainTin _ cap (s.tin p).queue out []).1 +
          (s.tin p).waiting)
      rw [← add_assoc, Multiset.coe_add, ← hqueue, Multiset.coe_nil, add_zero]
    · have hcount : exits.countP (fun e => e.2 = .overflow) =
          exits.countP fun e => e.2 ≠ .dispatched := by
        refine countP_congr fun e he => ?_
        rcases hkinds e he with hk | hk
        · simp [hk]
        · simp [hk]
      change s.aqmDropped + _ + s.shedDropped + s.overloadSheds = _
      rw [hgone, hcount]
      omega
  · change ((s.gone ++ _).filter _).map _ = _
    rw [hgone, filter_append, map_append]
    rfl

theorem inv_dispatchLegacy (hprofile : c.profile = .legacy) (h : Inv arrived s) (cwnd : ℤ) :
    Inv arrived (s.dispatchLegacy cwnd).2 ∧
      Logs s (s.dispatchLegacy cwnd).2 (s.dispatchLegacy cwnd).1 ∧
      ((s.dispatchLegacy cwnd).1.length : ℤ) ≤ max cwnd 0 := by
  have hloop : ∀ (tins : List ProbePriority) (r : List ProbeRequest × Sched α c),
      Inv arrived r.2 → Logs s r.2 r.1 → r.1.length ≤ (max cwnd 0).toNat →
      let r' := tins.foldl (dispatchLegacyTin (max cwnd 0).toNat) r
      Inv arrived r'.2 ∧ Logs s r'.2 r'.1 ∧ r'.1.length ≤ (max cwnd 0).toNat := by
    intro tins
    induction tins with
    | nil => intro r hinv hlogs hcap; exact ⟨hinv, hlogs, hcap⟩
    | cons p tins ih =>
      rintro ⟨out, s'⟩ hinv hlogs hcap
      obtain ⟨more, hout, hinv', hlogs', hcap'⟩ :=
        inv_dispatchLegacyTin hprofile hinv (max cwnd 0).toNat out p
      refine ih _ hinv' ?_ ?_
      · rw [hout, Logs, hlogs', hlogs, append_assoc]
      · rw [hout]
        exact hcap' hcap
  obtain ⟨hinv, hlogs, hcap⟩ := hloop ProbePriority.all ([], s) h (append_nil _).symm
    (Nat.zero_le _)
  refine ⟨hinv, hlogs, ?_⟩
  have hlength : (s.dispatchLegacy cwnd).1.length ≤ (max cwnd 0).toNat := hcap
  omega

/-- The tin that is chosen has work and the least tag. -/
theorem choose_eq_argmin (r : Sched.Round α c) :
    r.choose = (ProbePriority.all.filter fun p =>
      !(r.exhausted.get p || !(r.sched.tin p).hasWork)).argmin fun p => (r.sched.tin p).pass := by
  rw [Round.choose, argmin, foldl_filter]
  congr 1
  funext chosen p
  rw [earlier.eq_def]
  cases r.exhausted.get p || !(r.sched.tin p).hasWork with
  | true => rfl
  | false => cases chosen <;> rfl

variable {r : Sched.Round α c}

theorem choose_eq_some (h : r.choose = some p) :
    r.exhausted.get p = false ∧ (r.sched.tin p).hasWork = true ∧
      ∀ q, r.exhausted.get q = false → (r.sched.tin q).hasWork = true →
        (r.sched.tin p).pass ≤ (r.sched.tin q).pass := by
  rw [choose_eq_argmin] at h
  have hmem := (mem_filter.mp (argmin_mem h)).2
  refine ⟨by simp_all, by simp_all, fun q hexhausted hwork => ?_⟩
  exact le_of_mem_argmin (f := fun p => (r.sched.tin p).pass)
    (mem_filter.mpr ⟨q.mem_all, by simp [hexhausted, hwork]⟩) h

theorem choose_eq_none (h : r.choose = none) (q : ProbePriority)
    (hexhausted : r.exhausted.get q = false) : (r.sched.tin q).hasWork = false := by
  rw [choose_eq_argmin, argmin_eq_none, filter_eq_nil_iff] at h
  have := h q q.mem_all
  simpa [hexhausted] using this

/-- What a turn of the dispatch does to the tin it asks. -/
theorem serveOneFromTin_spec (now : ℤ) (t : Tin α c) (h : t.Sound) :
    Yields t (serveOneFromTin law now t).tin
        ((serveOneFromTin law now t).shed ++ (serveOneFromTin law now t).out.toList) ∧
      ∀ q ∈ (serveOneFromTin law now t).shed, isDroppable q = true := by
  obtain ⟨left, hshed, hdrop, hyields⟩ := yields_serveLoop law now (t.depth + 1) [] h
  rw [serveOneFromTin, hshed]
  exact ⟨hyields, hdrop⟩

theorem inv_serve (hprofile : c.profile ≠ .legacy) (now : ℤ) (h : Inv arrived r.sched)
    (p : ProbePriority) :
    Inv arrived (r.serve law now p).sched ∧
      ∃ more, (r.serve law now p).out = r.out ++ more ∧
        Logs r.sched (r.serve law now p).sched more := by
  obtain ⟨hyields, hdrop⟩ := serveOneFromTin_spec law now (r.sched.tin p) (h.sound p)
  unfold Round.serve
  dsimp only
  generalize serveOneFromTin law now (r.sched.tin p) = v at hyields hdrop
  have hqueue := h.queue hprofile p
  have hqueue' : v.tin.queue = [] := hyields.queue.trans hqueue
  have hdepth := hyields.depth_eq
  -- the shed probes are droppable, and so not critical
  have hshed : ∀ e ∈ v.shed.map fun q => (q, Exit.shed), e.1.priority = .critical →
      e.2 = .dispatched ∨ e.2 = .overload false := by
    intro e he hcritical
    obtain ⟨q, hq, rfl⟩ := mem_map.mp he
    have hq' := hdrop q hq
    simp only [isDroppable, decide_eq_true_eq] at hq'
    exact absurd hcritical hq'
  have hcount : (v.shed.map fun q => (q, Exit.shed)).countP (fun e => e.2 ≠ .dispatched) =
      v.shed.length := by
    rw [countP_map, countP_eq_length.mpr]
    intro q _
    rfl
  have hfilter : (v.shed.map fun q => (q, Exit.shed)).filter (fun e => e.2 = .dispatched) = [] := by
    rw [filter_map, filter_eq_nil_iff.mpr]
    · rfl
    · intro q _
      simp
  have hfst : (v.shed.map fun q => (q, Exit.shed)).map Prod.fst = v.shed := by
    rw [map_map]
    exact map_id' _
  have hflux := hyields.flux hqueue
  cases hout : v.out with
  | none =>
    rw [hout, Option.toList_none, append_nil] at hflux hdepth
    refine ⟨?_, [], (append_nil _).symm, ?_⟩
    · rw [← append_nil arrived]
      refine h.flux rfl hflux rfl hfst (by simp) ?_ (fun _ => ?_) (fun _ => hqueue')
        (fun hp => absurd hp hprofile) (fun _ => hshed)
      · change r.sched.aqmDropped + (r.sched.shedDropped + _) + r.sched.overloadSheds = _
        omega
      · change r.sched.aqmDepth - _ + _ = r.sched.aqmDepth + _
        omega
    · change ((r.sched.gone ++ _).filter _).map _ = _
      rw [filter_append, hfilter, append_nil, append_nil]
      rfl
  | some probe =>
    rw [hout, Option.toList_some] at hflux hdepth
    rw [length_append, length_singleton] at hdepth
    refine ⟨?_, [probe], rfl, ?_⟩
    · rw [← append_nil arrived]
      refine h.flux rfl ⟨hflux.sound, hflux.lane, hflux.held⟩ (append_assoc _ _ _) ?_
        (by simp) ?_ (fun _ => ?_) (fun _ => hqueue') (fun hp => absurd hp hprofile) ?_
      · rw [map_append, hfst]
        rfl
      · change r.sched.aqmDropped + (r.sched.shedDropped + _) + r.sched.overloadSheds = _
        rw [countP_append, hcount]
        simp
        omega
      · change r.sched.aqmDepth - _ - 1 + _ = r.sched.aqmDepth + (v.tin.depth : ℤ)
        omega
      · intro _ e he
        rcases mem_append.mp he with he | he
        · exact hshed e he
        · rw [mem_singleton.mp he]
          exact fun _ => .inl rfl
    · change ((r.sched.gone ++ _ ++ [(probe, Exit.dispatched)]).filter _).map _ = _
      rw [filter_append, filter_append, hfilter, append_nil, map_append]
      rfl

/-- A turn finds a tin exhausted or gives a probe. -/
theorem serve_cases (now : ℤ) (r : Sched.Round α c) (p : ProbePriority) :
    (r.serve law now p).out = r.out ∧ (r.serve law now p).exhausted = r.exhausted.set true p ∨
      ∃ probe, (r.serve law now p).out = r.out ++ [probe] ∧
        (r.serve law now p).exhausted = r.exhausted := by
  unfold Round.serve
  dsimp only
  cases (serveOneFromTin law now (r.sched.tin p)).out with
  | none => exact .inl ⟨rfl, rfl⟩
  | some probe => exact .inr ⟨probe, rfl, rfl⟩

/-- How many tins have not been found exhausted. -/
def unexhausted (r : Sched.Round α c) : ℕ :=
  ProbePriority.all.countP fun p => !r.exhausted.get p

theorem unexhausted_le (r : Sched.Round α c) : unexhausted r ≤ 3 := countP_le_length

theorem countP_set_true (e : PerTin Bool) (h : e.get p = false) :
    (ProbePriority.all.countP fun q => !(e.set true p).get q) <
      ProbePriority.all.countP fun q => !e.get q := by
  obtain ⟨a, b, d⟩ := e
  cases p with
  | critical =>
    obtain rfl : a = false := h
    cases b <;> cases d <;> decide
  | high =>
    obtain rfl : b = false := h
    cases a <;> cases d <;> decide
  | normal =>
    obtain rfl : d = false := h
    cases a <;> cases b <;> decide

theorem turn_eq_next {cap : ℕ} {now : ℤ} {r' : Sched.Round α c}
    (h : r.turn law cap now = .next r') :
    ∃ p, r.out.length < cap ∧ r.choose = some p ∧ r' = r.serve law now p := by
  rw [Round.turn] at h
  split at h
  · cases h
  next hroom =>
  split at h
  · cases h
  · next p hp =>
    cases h
    exact ⟨p, Nat.lt_of_not_le hroom, hp, rfl⟩

theorem turn_eq_halt {cap : ℕ} {now : ℤ} {r' : Sched.Round α c}
    (h : r.turn law cap now = .halt r') :
    r' = r ∧ (cap ≤ r.out.length ∨ r.choose = none) := by
  rw [Round.turn] at h
  split at h
  · next hroom =>
    cases h
    exact ⟨rfl, .inl hroom⟩
  · split at h
    · next hnone =>
      cases h
      exact ⟨rfl, .inr hnone⟩
    · cases h

/-- The budget of the loop is enough: every turn gives a probe or finds a tin exhausted. -/
theorem loop_turn_eq (cap : ℕ) (now : ℤ) (r : Sched.Round α c) :
    loop (Sched.Round.turn law cap now) (cap + 4) r = some (r.rounds law cap now) := by
  obtain ⟨n, r', res, -, -, hn, hloop⟩ :=
    exists_halt_of_invariant (I := fun _ => True) (fun r => cap - r.out.length + unexhausted r)
      (fun r r' _ (hturn : Round.turn law cap now r = .next r') => by
        obtain ⟨p, hroom, hp, rfl⟩ := turn_eq_next law hturn
        refine ⟨trivial, ?_⟩
        rcases serve_cases law now r p with ⟨hout, hexhausted⟩ | ⟨probe, hout, hexhausted⟩
        · have := countP_set_true r.exhausted (choose_eq_some hp).1
          rw [unexhausted, hout, hexhausted, unexhausted]
          omega
        · rw [unexhausted, hout, hexhausted, unexhausted, length_append, length_singleton]
          omega) (s := r) trivial
  have hle := unexhausted_le r
  rw [Round.rounds, hloop (cap + 4) (by omega), Option.getD_some]

/-- **The rule for the loop of a dispatch**: it ends with its invariant, and where there is no
room or no tin to ask. -/
theorem rounds_invariant {I : Sched.Round α c → Prop} (cap : ℕ) (now : ℤ)
    (hstep : ∀ r p, I r → r.out.length < cap → r.choose = some p → I (r.serve law now p))
    (h : I r) :
    I (r.rounds law cap now) ∧
      (cap ≤ (r.rounds law cap now).out.length ∨ (r.rounds law cap now).choose = none) := by
  obtain ⟨r', hlast, hhalt⟩ := getLast?_trail (cap + 4) (loop_turn_eq law cap now r)
  obtain ⟨heq, hend⟩ := turn_eq_halt law hhalt
  have hall := (isChain_trail (R := fun _ _ => True) (fun r r' hr hturn => by
    obtain ⟨p, hroom, hp, rfl⟩ := turn_eq_next law hturn
    exact ⟨hstep r p hr hroom hp, trivial⟩) (cap + 4) h).2
  rw [heq]
  exact ⟨hall r' (mem_of_getLast? hlast), hend⟩

theorem Inv.touch {s' : Sched α c} {t' : Tin α c} (h : Inv arrived s)
    (htins : s'.tins = s.tins.set t' p) (hqueue : t'.queue = (s.tin p).queue)
    (hflows : t'.flows = (s.tin p).flows) (hnew : t'.newFlows = (s.tin p).newFlows)
    (hold : t'.oldFlows = (s.tin p).oldFlows) (hgone : s'.gone = s.gone)
    (hdrops : s'.aqmDropped + s'.shedDropped + s'.overloadSheds =
      s.aqmDropped + s.shedDropped + s.overloadSheds) (hdepth : s'.aqmDepth = s.aqmDepth) :
    Inv arrived s' := by
  have hsame : t'.depth = (s.tin p).depth := by rw [Tin.depth, Tin.depth, hflows]
  have hlane : ∀ k, t'.lane k = (s.tin p).lane k := fun k => by
    rw [Tin.lane, Tin.lane, Tin.queueOf, Tin.queueOf, hqueue, hflows]
  have hheld : t'.held = (s.tin p).held := by
    rw [Tin.held, Tin.held, Tin.waiting, Tin.waiting, hqueue, hflows]
  rw [← append_nil arrived]
  refine h.flux htins ⟨?_, fun k => ?_, ?_⟩ (hgone.trans (append_nil _).symm) rfl (by simp)
    (by rw [hdrops]; exact (Int.add_zero _).symm) (fun _ => by rw [hdepth, hsame])
    (fun hp => hqueue.trans (h.queue hp p)) (fun hp => hflows ▸ h.flows hp p) (by simp)
  · rw [Tin.Sound, hflows, hnew, hold]
    exact h.sound p
  · rw [hlane]
    simp
  · rw [hheld]
    simp

theorem inv_settleTins (h : Inv arrived s) (now : ℤ) : Inv arrived (s.settleTins law now) := by
  refine foldl_invariant (I := Inv arrived) (fun s p hs => ?_) ProbePriority.all h
  have hcases : ∀ t : Tin α c, (settleTin law now t).queue = t.queue ∧
      (settleTin law now t).flows = t.flows ∧
      (settleTin law now t).newFlows = t.newFlows ∧
      (settleTin law now t).oldFlows = t.oldFlows := by
    intro t
    unfold settleTin
    split
    · exact ⟨rfl, rfl, rfl, rfl⟩
    · exact ⟨rfl, rfl, rfl, rfl⟩
  obtain ⟨hqueue, hflows, hnew, hold⟩ := hcases (s.tin p)
  exact hs.touch rfl hqueue hflows hnew hold rfl rfl rfl

theorem Inv.clock (h : Inv arrived s) (now : ℤ) :
    Inv arrived { s with lastNowMs := max s.lastNowMs now } :=
  ⟨h.sound, h.fifo, h.conserved, h.drops, h.depth, h.queue, h.flows, h.critical⟩

theorem inv_dispatchAqm (hprofile : c.profile ≠ .legacy) (h : Inv arrived s) (cwnd now : ℤ) :
    Inv arrived (s.dispatchAqm law cwnd now).2 ∧
      Logs s (s.dispatchAqm law cwnd now).2 (s.dispatchAqm law cwnd now).1 ∧
      ((s.dispatchAqm law cwnd now).1.length : ℤ) ≤ max cwnd 0 := by
  unfold dispatchAqm
  dsimp only
  split
  · exact ⟨h.clock now, (append_nil _).symm, by simp⟩
  obtain ⟨⟨hinv, hlogs, hcap⟩, -⟩ := rounds_invariant law
    (I := fun r => Inv arrived r.sched ∧ Logs s r.sched r.out ∧
      r.out.length ≤ (max cwnd 0).toNat) (max cwnd 0).toNat now
    (fun r p hr hroom _ => by
      obtain ⟨hinv, hlogs, -⟩ := hr
      obtain ⟨hinv', more, hout, hlogs'⟩ := inv_serve law hprofile now hinv p
      refine ⟨hinv', ?_, ?_⟩
      · rw [Logs, hlogs', hlogs, hout, append_assoc]
      · rcases serve_cases law now r p with ⟨hsame, -⟩ | ⟨probe, hmore, -⟩
        · rw [hsame]
          omega
        · rw [hmore, length_append, length_singleton]
          omega)
    (r := { sched := { s with lastNowMs := max s.lastNowMs now } })
    ⟨h.clock now, (append_nil _).symm, Nat.zero_le _⟩
  refine ⟨inv_settleTins law hinv now, ?_, ?_⟩
  · exact hlogs
  · change (length (Round.rounds law _ now _).out : ℤ) ≤ _
    omega

/-- Nothing is lost in a dispatch, and it returns no more than there is room for. -/
theorem inv_dispatch (h : Inv arrived s) (cwnd now : ℤ) :
    Inv arrived (s.dispatch law cwnd now).2 ∧
      Logs s (s.dispatch law cwnd now).2 (s.dispatch law cwnd now).1 ∧
      ((s.dispatch law cwnd now).1.length : ℤ) ≤ max cwnd 0 := by
  unfold dispatch
  split
  · next hprofile => exact inv_dispatchLegacy hprofile h cwnd
  · next hprofile => exact inv_dispatchAqm law hprofile h cwnd now

theorem inv_onTimeoutOrFail (h : Inv arrived s) (p : ProbePriority) :
    Inv arrived (s.onTimeoutOrFail law p) := by
  unfold onTimeoutOrFail
  split
  · exact h
  dsimp only
  split
  · split
    · exact h.touch rfl rfl rfl rfl rfl rfl rfl rfl
    · exact h.touch rfl rfl rfl rfl rfl rfl rfl rfl
  · split
    · exact h.touch rfl rfl rfl rfl rfl rfl rfl rfl
    · exact h.touch rfl rfl rfl rfl rfl rfl rfl rfl

theorem inv_onSuccess (h : Inv arrived s) (p : ProbePriority) :
    Inv arrived (s.onSuccess law p) := by
  unfold onSuccess
  split
  · exact h
  · exact h.touch rfl rfl rfl rfl rfl rfl rfl rfl

/-! ### Runs -/

/-- What a call enqueues. -/
def Act.arrival : Act → List ProbeRequest
  | .enqueue req _ => [req]
  | _ => []

/-- What a call returns. -/
def Act.output (s : Sched α c) : Act → List ProbeRequest
  | .dispatch cwnd now => (s.dispatch law cwnd now).1
  | _ => []

/-- All that the calls of a run return. -/
def outputs : Sched α c → List Act → List ProbeRequest
  | _, [] => []
  | s, a :: acts => a.output law s ++ outputs (s.apply law a) acts

theorem arrivals_cons (a : Act) (acts : List Act) :
    arrivals (a :: acts) = a.arrival ++ arrivals acts := by
  cases a <;> rfl

theorem dispatched_overloadLoop (order : HashOrder) (fuel : ℕ) (s : Sched α c) :
    (s.overloadLoop law order fuel).dispatched = s.dispatched := by
  induction fuel generalizing s with
  | zero => rfl
  | succ fuel ih =>
    rw [overloadLoop]
    split
    · rfl
    split
    · rfl
    split
    · rfl
    · rw [ih, dispatched, filter_append, filter_cons_of_neg (by simp), filter_nil, append_nil]
      rfl

theorem inv_apply (h : Inv arrived s) (a : Act) :
    Inv (arrived ++ a.arrival) (s.apply law a) ∧ Logs s (s.apply law a) (a.output law s) := by
  cases a with
  | enqueue req order =>
    refine ⟨inv_enqueue law h req order, ?_⟩
    change _ = s.dispatched ++ []
    rw [append_nil, apply, enqueue]
    split
    · rfl
    rw [enqueueAqm]
    split
    · exact dispatched_overloadLoop law order _ _
    · rfl
  | dispatch cwnd now =>
    obtain ⟨hinv, hlogs, -⟩ := inv_dispatch law h cwnd now
    exact ⟨(append_nil arrived).symm ▸ hinv, hlogs⟩
  | onTimeoutOrFail p =>
    refine ⟨(append_nil arrived).symm ▸ inv_onTimeoutOrFail law h p, ?_⟩
    change _ = s.dispatched ++ []
    rw [append_nil, apply, onTimeoutOrFail]
    split
    · rfl
    · dsimp only
      split <;> rfl
  | onSuccess p =>
    refine ⟨(append_nil arrived).symm ▸ inv_onSuccess law h p, ?_⟩
    change _ = s.dispatched ++ []
    rw [append_nil, apply, onSuccess]
    split <;> rfl

theorem inv_withTunables (c : Tunables) : Inv [] (.withTunables law c : Sched α c) := by
  have htin : ∀ p, (withTunables law c : Sched α c).tin p = { aqm := law.fresh } := by
    intro p
    cases p <;> rfl
  have hget : ∀ k, (Tin.flows { aqm := law.fresh } : Ways Int64 Flow c.way).get? k = none :=
    fun k => Ways.get?_empty _ c.way_lt k
  have hqueueOf : ∀ k, (Tin.queueOf ({ aqm := law.fresh } : Tin α c) k) = [] := fun k => by
    rw [Tin.queueOf, hget]
    rfl
  have hwaiting : (Tin.waiting ({ aqm := law.fresh } : Tin α c)) = 0 :=
    Ways.total_eq_zero _ fun k f hk => by
      rw [hget] at hk
      cases hk
  constructor
  case sound =>
    intro p
    rw [htin]
    have hnone : ∀ k f, (Tin.flows { aqm := law.fresh } : Ways Int64 Flow c.way).get? k ≠ some f :=
      fun k f => by simp [hget]
    exact ⟨nodup_nil, nodup_nil, fun k => by simp [hget], fun k => by simp [hget],
      fun k f hk => absurd hk (hnone k f), fun k f hk => absurd hk (hnone k f)⟩
  case fifo =>
    intro p k
    rw [htin, Tin.lane, hqueueOf]
    rfl
  case conserved =>
    simp only [waiting, htin, Tin.held, hwaiting, ProbePriority.all]
    rfl
  case drops => rfl
  case depth =>
    intro _
    have hdepth : (Tin.depth ({ aqm := law.fresh } : Tin α c)) = 0 := by
      rw [← Tin.card_waiting, hwaiting, Multiset.card_zero]
    simp only [htin, hdepth, ProbePriority.all]
    rfl
  case queue =>
    intro _ p
    rw [htin]
  case flows =>
    intro _ p k
    rw [htin]
    exact hget k
  case critical => intro _ e he; cases he

theorem inv_foldl (acts : List Act) {arrived : List ProbeRequest} {s : Sched α c}
    (h : Inv arrived s) :
    Inv (arrived ++ arrivals acts) (acts.foldl (Sched.apply law) s) ∧
      Logs s (acts.foldl (Sched.apply law) s) (outputs law s acts) := by
  induction acts generalizing arrived s with
  | nil =>
    exact ⟨(append_nil arrived).symm ▸ h, (append_nil _).symm⟩
  | cons a acts ih =>
    obtain ⟨hinv, hlogs⟩ := inv_apply law h a
    obtain ⟨hinv', hlogs'⟩ := ih hinv
    rw [arrivals_cons, ← append_assoc]
    refine ⟨hinv', ?_⟩
    rw [Logs, foldl_cons, hlogs', hlogs, append_assoc]
    rfl

theorem inv_run (c : Tunables) (acts : List Act) :
    Inv (arrivals acts) (run law c acts) ∧
      (run law c acts).dispatched = outputs law (.withTunables law c) acts :=
  inv_foldl law acts (inv_withTunables law c)

/-- **Nothing is lost.**  After every run, under every profile, tunables and law of the queue
management: what was enqueued is what waits, what the dispatches returned and what was shed; the
drop counters tell how many were shed; a dispatch returns no more than its window; of each tin
and flow key, the probes leave in the order in which they came; and outside the legacy profile a
critical probe is shed by the overload rule only, when no droppable probe is queued. -/
theorem scheduler_conserves (c : Tunables) (acts : List Act) :
    let s : Sched α c := run law c acts
    (arrivals acts : Multiset ProbeRequest) =
        s.queued + outputs law (.withTunables law c) acts + s.shed ∧
      s.aqmDropped + s.shedDropped + s.overloadSheds = s.shed.length ∧
      (∀ cwnd now, ((s.dispatch law cwnd now).1.length : ℤ) ≤ max cwnd 0) ∧
      (∀ p k, (arrivals acts).filter (belongs p k) =
        (s.gone.map Prod.fst).filter (belongs p k) ++ (s.tin p).lane k) ∧
      s.dispatched = outputs law (.withTunables law c) acts ∧
      (c.profile ≠ .legacy → ∀ e ∈ s.gone, e.1.priority = .critical →
        e.2 = .dispatched ∨ e.2 = .overload false) := by
  intro s
  obtain ⟨hinv, hdispatched⟩ : Inv (arrivals acts) s ∧ _ := inv_run law c acts
  refine ⟨?_, ?_, fun cwnd now => (inv_dispatch law hinv cwnd now).2.2, hinv.fifo, hdispatched,
    hinv.critical⟩
  · have hsplit : ((s.gone.map Prod.fst : List ProbeRequest) : Multiset ProbeRequest) =
        s.dispatched + s.shed := by
      rw [Multiset.coe_add, dispatched, shed, ← map_append]
      refine Multiset.coe_eq_coe.mpr (Perm.map _ ?_)
      have hperm := filter_append_perm (fun e : ProbeRequest × Exit => e.2 = .dispatched) s.gone
      simpa using hperm.symm
    rw [hinv.conserved, hsplit, ← hdispatched, coe_queued, add_comm, ← add_assoc]
  · rw [hinv.drops, shed, length_map, countP_eq_length_filter]

/-! ### Overload -/

/-- While something waits, the scan finds a head to shed. -/
theorem exists_overloadPick (h : Inv arrived s) (hprofile : c.profile ≠ .legacy)
    (hpos : 0 < s.aqmDepth) (order : HashOrder) : ∃ pick, s.overloadPick order = some pick := by
  refine Option.ne_none_iff_exists'.mp fun hnone => ?_
  unfold overloadPick at hnone
  split at hnone
  · cases hnone
  have hrows := ((foldl_fatter _ none).2 hnone).2
  have hdepth : ∀ p, (s.tin p).depth = 0 := by
    intro p
    rw [Tin.depth_eq_total]
    refine Ways.total_eq_zero _ fun k f hk => length_eq_zero_iff.mpr ?_
    by_contra hne
    obtain ⟨head, rest, hqueue⟩ := exists_cons_of_ne_nil hne
    exact hrows (p, k, f) (mem_scan.mpr hk) ⟨head, rest, hqueue, by simp⟩
  simp [h.depth hprofile, hdepth] at hpos

/-- Each turn takes one, so the turns that are allowed are enough. -/
theorem aqmDepth_overloadLoop (hprofile : c.profile ≠ .legacy) (order : HashOrder) (fuel : ℕ)
    {s : Sched α c} (h : Inv arrived s) (hfuel : s.aqmDepth - aqmGlobalCap ≤ fuel) :
    (s.overloadLoop law order fuel).aqmDepth ≤ aqmGlobalCap := by
  induction fuel generalizing s with
  | zero => exact sub_nonpos.mp hfuel
  | succ fuel ih =>
    have hturn := inv_overloadLoop law hprofile order 1 h
    rw [overloadLoop] at hturn ⊢
    split at hturn
    · next hle => rwa [if_pos hle]
    next hgt =>
    obtain ⟨pick, hpick⟩ := exists_overloadPick h hprofile
      (lt_trans (by decide) (not_le.mp hgt)) order
    obtain ⟨f, head, rest, hget, hqueue, -⟩ := overloadPick_spec h hprofile hpick
    obtain ⟨t', hpop, -⟩ := flux_popHeadOfFlow (h.sound pick.tin) (h.queue hprofile _) hget hqueue
    simp only [if_neg hgt, hpick, hpop] at hturn ⊢
    refine ih hturn ?_
    change s.aqmDepth - 1 - aqmGlobalCap ≤ fuel
    omega

/-- **The queue is bounded.**  Under the soft profile, whatever came before, after an arrival the
counter tells how many probes wait, and they are not more than the cap allows. -/
theorem arrival_bounded (c : Tunables) (acts : List Act) (req : ProbeRequest)
    (order : HashOrder) :
    let soft : Tunables := { c with profile := .softCake }
    let after := (run law soft acts).enqueue law req order
    (after.queued.length : ℤ) = after.aqmDepth ∧ after.aqmDepth ≤ aqmGlobalCap := by
  intro soft after
  have hsoft : soft.profile ≠ .legacy := nofun
  have hinv := (inv_run law soft acts).1
  have hafter : Inv _ after := inv_enqueue law hinv req order
  constructor
  · rw [hafter.depth hsoft, ← Multiset.coe_card, coe_queued, waiting]
    simp [ProbePriority.all, Tin.held, hafter.queue hsoft, Tin.card_waiting]
  · change (Sched.enqueue _ _ _ _).aqmDepth ≤ _
    rw [enqueue, if_neg hsoft, enqueueAqm]
    dsimp only
    split
    · exact aqmDepth_overloadLoop law hsoft order _ (inv_arrive hsoft hinv req)
        (Int.self_le_toNat _)
    · next hnot => exact not_lt.mp fun hlt => hnot ⟨rfl, hlt⟩

end Steps

end Beast
end TortaCore
