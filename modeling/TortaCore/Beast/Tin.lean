import TortaCore.Beast.Scheduler
import Mathlib.Algebra.Order.Group.Multiset

/-!
# One tin

The flows of a tin and its two lists belong together: a flow stands in exactly one of the lists,
and the lists name nothing else.  The list moves of the code keep this, and what they do to the
queues is one of three things: the front flow is dropped with what it holds, it gives its head
and stays, or it gives its head and goes to the end of the old flows.

## Main definitions

* `Listed`, `Tin.Sound`: the flows and the lists belong together.
* `Tin.queueOf`, `Tin.waiting`, `Tin.idleFlows`: what a tin holds.
-/

namespace TortaCore
namespace Beast

open Text Store Machine List Ways

variable {α : Type*} {c : Tunables}

/-! ### The flows and the lists -/

/-- The flows of a table stand in one of the lists each, and hold probes of their key. -/
structure Listed (flows : Ways Int64 Flow c.way) (new old : List Int64) : Prop where
  nodup_new : new.Nodup
  nodup_old : old.Nodup
  mem_new : ∀ k, k ∈ new ↔ ∃ f, flows.get? k = some f ∧ f.inNew = true
  mem_old : ∀ k, k ∈ old ↔ ∃ f, flows.get? k = some f ∧ f.inOld = true
  one : ∀ k f, flows.get? k = some f → f.inOld = !f.inNew
  homed : ∀ k f, flows.get? k = some f → ∀ p ∈ f.queue, flowKey p = k

namespace Listed

variable {flows flows' : Ways Int64 Flow c.way} {new old : List Int64} {k : Int64} {f f' : Flow}

theorem forall_of_set {P : Int64 → Flow → Prop}
    (hflows : ∀ j, flows'.get? j = if k = j then some f' else flows.get? j) (hk : P k f')
    (h : ∀ j g, flows.get? j = some g → P j g) : ∀ j g, flows'.get? j = some g → P j g := by
  intro j g hg
  rw [hflows] at hg
  split at hg
  · next hj =>
    cases hg
    exact hj ▸ hk
  · exact h j g hg

variable (h : Listed flows new old)

include h

theorem notMem_old (hget : flows.get? k = some f) (hnew : f.inNew = true) : k ∉ old := by
  rw [h.mem_old]
  rintro ⟨g, hg, hold⟩
  obtain rfl : f = g := Option.some_inj.mp (hget.symm.trans hg)
  rw [h.one k f hget, hnew] at hold
  cases hold

theorem notMem_new (hget : flows.get? k = some f) (hnew : f.inNew = false) : k ∉ new := by
  rw [h.mem_new]
  rintro ⟨g, hg, hnew'⟩
  obtain rfl : f = g := Option.some_inj.mp (hget.symm.trans hg)
  rw [hnew] at hnew'
  cases hnew'

theorem drop (hflows : ∀ j, flows'.get? j = if k = j then none else flows.get? j) :
    Listed flows' (new.erase k) (old.erase k) where
  nodup_new := h.nodup_new.erase k
  nodup_old := h.nodup_old.erase k
  mem_new j := by
    rw [h.nodup_new.mem_erase_iff, h.mem_new, hflows]
    by_cases hj : k = j
    · simp [hj]
    · simp [hj, Ne.symm hj]
  mem_old j := by
    rw [h.nodup_old.mem_erase_iff, h.mem_old, hflows]
    by_cases hj : k = j
    · simp [hj]
    · simp [hj, Ne.symm hj]
  one j g hg := by
    rw [hflows] at hg
    split at hg
    · cases hg
    · exact h.one j g hg
  homed j g hg := by
    rw [hflows] at hg
    split at hg
    · cases hg
    · exact h.homed j g hg

variable (hflows : ∀ j, flows'.get? j = if k = j then some f' else flows.get? j)

include hflows

theorem put (hget : flows.get? k = some f) (hnew : f'.inNew = f.inNew) (hold : f'.inOld = f.inOld)
    (hqueue : ∀ p ∈ f'.queue, flowKey p = k) : Listed flows' new old where
  nodup_new := h.nodup_new
  nodup_old := h.nodup_old
  mem_new j := by
    rw [h.mem_new, hflows]
    by_cases hj : k = j
    · subst hj
      simp [hget, hnew]
    · simp [hj]
  mem_old j := by
    rw [h.mem_old, hflows]
    by_cases hj : k = j
    · subst hj
      simp [hget, hold]
    · simp [hj]
  one := forall_of_set hflows (by rw [hnew, hold, h.one k f hget]) h.one
  homed := forall_of_set hflows hqueue h.homed

theorem park (hnew : f'.inNew = false) (hold : f'.inOld = true)
    (hqueue : ∀ p ∈ f'.queue, flowKey p = k) :
    Listed flows' (new.erase k) (old.erase k ++ [k]) where
  nodup_new := h.nodup_new.erase k
  nodup_old := by
    refine Nodup.append (h.nodup_old.erase k) (nodup_singleton k) ?_
    rw [disjoint_singleton]
    exact h.nodup_old.not_mem_erase
  mem_new j := by
    rw [h.nodup_new.mem_erase_iff, h.mem_new, hflows]
    by_cases hj : k = j
    · simp [hj, hnew]
    · simp [hj, Ne.symm hj]
  mem_old j := by
    rw [mem_append, h.nodup_old.mem_erase_iff, h.mem_old, hflows]
    by_cases hj : k = j
    · simp [hj, hold]
    · simp [hj, Ne.symm hj]
  one := forall_of_set hflows (by rw [hnew, hold]; rfl) h.one
  homed := forall_of_set hflows hqueue h.homed

theorem start (hget : flows.get? k = none) (hnew : f'.inNew = true) (hold : f'.inOld = false)
    (hqueue : ∀ p ∈ f'.queue, flowKey p = k) : Listed flows' (new ++ [k]) old where
  nodup_new := by
    refine Nodup.append h.nodup_new (nodup_singleton k) ?_
    rw [disjoint_singleton, h.mem_new, hget]
    simp
  nodup_old := h.nodup_old
  mem_new j := by
    rw [mem_append, h.mem_new, hflows]
    by_cases hj : k = j
    · simp [hj, hnew]
    · simp [hj, Ne.symm hj]
  mem_old j := by
    rw [h.mem_old, hflows]
    by_cases hj : k = j
    · subst hj
      simp [hget, hold]
    · simp [hj]
  one := forall_of_set hflows (by rw [hnew, hold]; rfl) h.one
  homed := forall_of_set hflows hqueue h.homed

end Listed

/-! ### What a tin holds -/

namespace Tin

def Sound (t : Tin α c) : Prop := Listed t.flows t.newFlows t.oldFlows

/-- The queue of a flow. -/
def queueOf (t : Tin α c) (k : Int64) : List ProbeRequest :=
  ((t.flows.get? k).map Flow.queue).getD []

/-- All probes that wait in flows. -/
def waiting (t : Tin α c) : Multiset ProbeRequest := t.flows.total fun f => (f.queue : Multiset _)

/-- The flows without a probe, which an overload shed leaves behind. -/
def idleFlows (t : Tin α c) : ℕ := t.flows.total fun f => if f.queue = [] then 1 else 0

theorem depth_eq_total (t : Tin α c) : t.depth = t.flows.total fun f => f.queue.length := by
  change _ = ((t.flows.buckets.flatMap Dict.rows).map fun r => r.2.queue.length).sum
  rw [map_flatMap, flatMap_def, sum_flatten, map_map]
  rfl

theorem card_waiting (t : Tin α c) : Multiset.card t.waiting = t.depth := by
  rw [depth_eq_total, waiting]
  exact map_total _ Multiset.cardHom t.flows

theorem queueOf_eq {t : Tin α c} {k : Int64} {f : Flow} (h : t.flows.get? k = some f) :
    t.queueOf k = f.queue := by
  rw [queueOf, h]
  rfl

end Tin

/-- Some probes have left a tin, in this order, and no others; nothing else has changed that
matters to the other tins. -/
structure Yields (t t' : Tin α c) (left : List ProbeRequest) : Prop where
  sound : t'.Sound
  fifo : ∀ k, t.queueOf k = left.filter (fun p => flowKey p = k) ++ t'.queueOf k
  waiting : t.waiting = left + t'.waiting
  idle : t'.idleFlows ≤ t.idleFlows
  pass : t'.pass = t.pass
  queue : t'.queue = t.queue

namespace Yields

variable {t t' t'' : Tin α c} {left left' : List ProbeRequest} {k : Int64} {f f' : Flow}

theorem refl (h : t.Sound) : Yields t t [] :=
  ⟨h, fun _ => rfl, by simp, le_rfl, rfl, rfl⟩

theorem trans (h : Yields t t' left) (h' : Yields t' t'' left') :
    Yields t t'' (left ++ left') where
  sound := h'.sound
  fifo k := by rw [h.fifo, h'.fifo, filter_append, append_assoc]
  waiting := by rw [h.waiting, h'.waiting, ← add_assoc, Multiset.coe_add]
  idle := h'.idle.trans h.idle
  pass := h'.pass.trans h.pass
  queue := h'.queue.trans h.queue

theorem of_aqm {a : α} (h : Yields { t with aqm := a } t' left) : Yields t t' left :=
  ⟨h.sound, h.fifo, h.waiting, h.idle, h.pass, h.queue⟩

theorem depth_eq (h : Yields t t' left) : t.depth = left.length + t'.depth := by
  rw [← Tin.card_waiting, h.waiting, Multiset.card_add, Multiset.coe_card, Tin.card_waiting]

theorem filter_homed {queue : List ProbeRequest} (h : ∀ p ∈ queue, flowKey p = k) (j : Int64) :
    queue.filter (fun p => flowKey p = j) = if k = j then queue else [] := by
  split
  · next hj =>
    refine filter_eq_self.mpr fun p hp => ?_
    simp [h p hp, hj]
  · next hj =>
    refine filter_eq_nil_iff.mpr fun p hp => ?_
    simp [h p hp, hj]

theorem of_drop (h : t.Sound) (hget : t.flows.get? k = some f)
    (hnew : t'.newFlows = t.newFlows.erase k) (hold : t'.oldFlows = t.oldFlows.erase k)
    (hflows : ∀ j, t'.flows.get? j = if k = j then none else t.flows.get? j)
    (hpass : t'.pass = t.pass) (hqueue : t'.queue = t.queue) : Yields t t' f.queue where
  sound := by
    rw [Tin.Sound, hnew, hold]
    exact Listed.drop h hflows
  fifo j := by
    rw [filter_homed (h.homed k f hget), Tin.queueOf, Tin.queueOf, hflows]
    by_cases hj : k = j
    · simp [← hj, hget]
    · simp [hj]
  waiting := by
    have htotal := total_drop (fun f : Flow => (f.queue : Multiset ProbeRequest)) hget hflows
    rw [Tin.waiting, Tin.waiting, ← htotal, add_comm]
  idle := by
    have htotal := total_drop (fun f : Flow => if f.queue = [] then 1 else 0) hget hflows
    rw [Tin.idleFlows, Tin.idleFlows, ← htotal]
    exact Nat.le_add_right _ _
  pass := hpass
  queue := hqueue

theorem of_put {p : ProbeRequest} {rest : List ProbeRequest} (h : t.Sound)
    (hget : t.flows.get? k = some f) (hhead : f.queue = p :: rest) (hrest : rest ≠ [])
    (hsound : t'.Sound) (hflows : ∀ j, t'.flows.get? j = if k = j then some f' else t.flows.get? j)
    (hf' : f'.queue = rest) (hpass : t'.pass = t.pass) (hqueue : t'.queue = t.queue) :
    Yields t t' [p] where
  sound := hsound
  fifo j := by
    have hp : flowKey p = k := h.homed k f hget p (hhead ▸ mem_cons_self)
    rw [Tin.queueOf, Tin.queueOf, hflows]
    by_cases hj : k = j
    · simp [← hj, hget, hhead, hf', hp]
    · simp [hj, hp]
  waiting := by
    have htotal := total_put (fun f : Flow => (f.queue : Multiset ProbeRequest)) hget hflows
    rw [hhead, hf', ← Multiset.cons_coe, ← Multiset.singleton_add, ← add_assoc] at htotal
    rw [Tin.waiting, Tin.waiting, ← add_right_cancel htotal, add_comm, Multiset.coe_singleton]
  idle := by
    have htotal := total_put (fun f : Flow => if f.queue = [] then 1 else 0) hget hflows
    rw [hhead, hf', if_neg hrest, if_neg (cons_ne_nil p rest)] at htotal
    exact htotal.le
  pass := hpass
  queue := hqueue

end Yields

/-! ### The moves of the code -/

variable {t : Tin α c} {k : Int64} {f : Flow}

section Held

variable (h : t.Sound) (hget : t.flows.get? k = some f)

include hget

/-- Every flow counts, by its probes or as an idle one. -/
theorem Tin.pos_of_get? : 0 < t.depth + t.idleFlows := by
  have hdepth := total_drop (fun f : Flow => f.queue.length) hget (fun j => get?_erase)
  have hidle := total_drop (fun f : Flow => if f.queue = [] then 1 else 0) hget
    (fun j => get?_erase)
  rw [depth_eq_total, idleFlows, ← hdepth, ← hidle]
  cases hqueue : f.queue with
  | nil =>
    rw [if_pos rfl]
    omega
  | cons p rest =>
    rw [length_cons]
    omega

theorem Tin.retireFlowIfEmpty_of_ne (hne : f.queue ≠ []) : t.retireFlowIfEmpty k = t := by
  simp only [retireFlowIfEmpty, hget, if_neg hne]

/-- A served flow with a backlog goes to the end of the old ones. -/
theorem Tin.advanceFlow_of_ne {sparse : Bool} (hne : f.queue ≠ []) (hnew : f.inNew = sparse) :
    t.advanceFlow k sparse =
      { t with
        newFlows := if sparse then t.newFlows.erase k else t.newFlows
        oldFlows := (if sparse then t.oldFlows else t.oldFlows.erase k) ++ [k]
        flows := t.flows.set k { f with deficit := 0, inNew := false, inOld := true } } := by
  cases sparse with
  | true => simp [advanceFlow, removeNew, setFlow, hget, hne]
  | false => simp [advanceFlow, removeOld, setFlow, hget, hne, hnew]

theorem Tin.advanceFlow_of_empty {sparse : Bool} (hempty : f.queue = []) (hnew : f.inNew = sparse)
    (hold : f.inOld = !sparse) :
    t.advanceFlow k sparse =
      { t with
        newFlows := if sparse then t.newFlows.erase k else t.newFlows
        oldFlows := if sparse then t.oldFlows else t.oldFlows.erase k
        flows := (t.flows.set k { f with inNew := false, inOld := false }).erase k } := by
  cases sparse with
  | true =>
    simp [advanceFlow, removeNew, setFlow, retireFlowIfEmpty, hget, hempty, hold]
  | false =>
    simp [advanceFlow, removeOld, setFlow, retireFlowIfEmpty, hget, hempty, hnew]

include h

/-- An empty flow is retired from the list it is in. -/
theorem Tin.retireFlowIfEmpty_eq (hempty : f.queue = []) :
    t.retireFlowIfEmpty k =
      { t with
        newFlows := t.newFlows.erase k
        oldFlows := t.oldFlows.erase k
        flows := t.flows.erase k } := by
  simp only [retireFlowIfEmpty, hget, if_pos hempty, h.one k f hget]
  cases hnew : f.inNew with
  | true =>
    rw [erase_of_not_mem (h.notMem_old hget hnew)]
    rfl
  | false =>
    rw [erase_of_not_mem (h.notMem_new hget hnew)]
    rfl

theorem yields_retire (hempty : f.queue = []) : Yields t (t.retireFlowIfEmpty k) [] := by
  rw [Tin.retireFlowIfEmpty_eq h hget hempty, ← hempty]
  exact .of_drop h hget rfl rfl (fun j => get?_erase) rfl rfl

theorem yields_shed {p : ProbeRequest} {rest : List ProbeRequest} (hhead : f.queue = p :: rest) :
    Yields t ((t.popHeadOfFlow k).2.retireFlowIfEmpty k) [p] := by
  have hpop : (t.popHeadOfFlow k).2 = t.setFlow k { f with queue := rest } := by
    simp only [Tin.popHeadOfFlow, hget, hhead]
  have hget' : (t.setFlow k { f with queue := rest }).flows.get? k =
      some { f with queue := rest } := get?_set_self
  have hsound : (t.setFlow k { f with queue := rest }).Sound :=
    Listed.put h (fun j => get?_set) hget rfl rfl
      fun q hq => h.homed k f hget q (hhead ▸ mem_cons_of_mem p hq)
  rw [hpop]
  cases rest with
  | nil =>
    rw [Tin.retireFlowIfEmpty_eq hsound hget' rfl, ← hhead]
    refine .of_drop h hget rfl rfl (fun j => ?_) rfl rfl
    change ((t.flows.set k _).erase k).get? j = _
    rw [get?_erase, get?_set]
    split <;> rfl
  | cons q rest =>
    rw [Tin.retireFlowIfEmpty_of_ne hget' (cons_ne_nil q rest)]
    exact .of_put h hget hhead (cons_ne_nil q rest) hsound (fun j => get?_set) rfl rfl rfl

/-- The head of a flow leaves to be dispatched: its flow goes to the end of the old ones, or is
dropped with it. -/
theorem yields_serveHead {p : ProbeRequest} {rest : List ProbeRequest} {sparse : Bool}
    (hhead : f.queue = p :: rest) (hnew : f.inNew = sparse) :
    Yields t (t.serveHead k f rest sparse) [p] := by
  have hold : f.inOld = !sparse := hnew ▸ h.one k f hget
  have hhomed : ∀ q ∈ rest, flowKey q = k := fun q hq =>
    h.homed k f hget q (hhead ▸ mem_cons_of_mem p hq)
  -- the flow stands in one list only, so that it is off both after the removal
  have hlists : (if sparse then t.newFlows.erase k else t.newFlows) = t.newFlows.erase k ∧
      (if sparse then t.oldFlows else t.oldFlows.erase k) = t.oldFlows.erase k := by
    cases sparse with
    | true => exact ⟨rfl, (erase_of_not_mem (h.notMem_old hget hnew)).symm⟩
    | false => exact ⟨(erase_of_not_mem (h.notMem_new hget hnew)).symm, rfl⟩
  unfold Tin.serveHead
  extract_lets deficit t₁ t₂
  have hget₂ : t₂.flows.get? k = some { f with queue := rest, deficit := deficit - 1 } :=
    get?_set_self
  cases rest with
  | nil =>
    rw [Tin.advanceFlow_of_empty hget₂ rfl hnew hold, ← hhead]
    refine .of_drop h hget hlists.1 hlists.2 (fun j => ?_) rfl rfl
    change (((t.flows.set k _).set k _).erase k).get? j = _
    rw [get?_erase, get?_set, get?_set]
    split <;> rfl
  | cons q rest =>
    rw [Tin.advanceFlow_of_ne hget₂ (cons_ne_nil q rest) hnew]
    have hflows : ∀ j, ((t.flows.set k { f with queue := q :: rest, deficit := deficit - 1 }).set k
        { f with queue := q :: rest, deficit := 0, inNew := false, inOld := true }).get? j =
        if k = j then
          some { f with queue := q :: rest, deficit := 0, inNew := false, inOld := true }
        else t.flows.get? j := by
      intro j
      rw [get?_set, get?_set]
      split <;> rfl
    refine .of_put h hget hhead (cons_ne_nil q rest) ?_ hflows rfl rfl rfl
    change Listed _ (if sparse then t.newFlows.erase k else t.newFlows)
      ((if sparse then t.oldFlows else t.oldFlows.erase k) ++ [k])
    rw [hlists.1, hlists.2]
    exact Listed.park h hflows rfl rfl hhomed

theorem idleFlows_retire (hempty : f.queue = []) :
    (t.retireFlowIfEmpty k).idleFlows + 1 = t.idleFlows := by
  rw [Tin.retireFlowIfEmpty_eq h hget hempty]
  have htotal := total_drop (fun f : Flow => if f.queue = [] then 1 else 0) hget
    (fun j => get?_erase)
  rw [if_pos hempty] at htotal
  exact htotal

end Held

/-! ### The loop -/

theorem Tin.hasWork_eq_false : t.hasWork = false ↔ t.newFlows = [] ∧ t.oldFlows = [] := by
  simp [hasWork]

/-- Lists without an entry belong to a table without a flow. -/
theorem Tin.get?_of_not_hasWork (h : t.Sound) (hwork : t.hasWork = false) (k : Int64) :
    t.flows.get? k = none := by
  obtain ⟨hnew, hold⟩ := hasWork_eq_false.mp hwork
  cases hget : t.flows.get? k with
  | none => rfl
  | some f =>
    cases hf : f.inNew with
    | true =>
      have := (h.mem_new k).mpr ⟨f, hget, hf⟩
      rw [hnew] at this
      cases this
    | false =>
      have hf' : f.inOld = true := by rw [h.one k f hget, hf]; rfl
      have := (h.mem_old k).mpr ⟨f, hget, hf'⟩
      rw [hold] at this
      cases this

theorem Tin.hasWork_eq_false_of_get? (h : t.Sound) (hget : ∀ k, t.flows.get? k = none) :
    t.hasWork = false := by
  rw [hasWork_eq_false]
  constructor
  · refine eq_nil_iff_forall_not_mem.mpr fun k hk => ?_
    obtain ⟨f, hf, -⟩ := (h.mem_new k).mp hk
    rw [hget] at hf
    cases hf
  · refine eq_nil_iff_forall_not_mem.mpr fun k hk => ?_
    obtain ⟨f, hf, -⟩ := (h.mem_old k).mp hk
    rw [hget] at hf
    cases hf

theorem Tin.depth_of_not_hasWork (h : t.Sound) (hwork : t.hasWork = false) : t.depth = 0 := by
  rw [depth_eq_total]
  refine total_eq_zero _ fun k f hget => ?_
  rw [get?_of_not_hasWork h hwork] at hget
  cases hget

theorem Tin.hasWork_of_front_eq_none (h : t.front = none) : t.hasWork = false := by
  rw [hasWork_eq_false]
  rw [front, sparse] at h
  cases hnew : t.newFlows with
  | nil => simpa [hnew] using h
  | cons k new =>
    cases hold : t.oldFlows with
    | nil => simp [hnew, hold] at h
    | cons j old =>
      rw [hnew, hold] at h
      split at h
      · cases h
      · cases h

/-- The flow whose turn it is stands in the list it was taken from. -/
theorem Tin.get?_of_front_eq_some (h : t.Sound) (hfront : t.front = some k) :
    ∃ f, t.flows.get? k = some f ∧ f.inNew = t.sparse := by
  rw [front] at hfront
  split at hfront
  · next hsparse =>
    obtain ⟨f, hget, hnew⟩ := (h.mem_new k).mp (mem_of_mem_head? hfront)
    exact ⟨f, hget, hnew.trans hsparse.symm⟩
  next hsparse =>
  obtain ⟨f, hget, hold⟩ := (h.mem_old k).mp (mem_of_mem_head? hfront)
  refine ⟨f, hget, ?_⟩
  rw [h.one k f hget, Bool.not_eq_true'] at hold
  rw [hold]
  simpa using hsparse

section Loop

variable (law : AqmLaw α) (now : ℤ)

/-- What one turn of the loop can do: find the tin without work, go on with less to do, or give
a probe. -/
theorem serveLoop_succ (h : t.Sound) (guard : ℕ) (shed : List ProbeRequest) :
    (∃ t', Yields t t' [] ∧ t'.hasWork = false ∧
      serveLoop law now (guard + 1) t shed = ⟨none, false, t', shed⟩) ∨
    (∃ t' left, Yields t t' left ∧ (∀ p ∈ left, isDroppable p = true) ∧
      t'.depth + t'.idleFlows < t.depth + t.idleFlows ∧
      serveLoop law now (guard + 1) t shed = serveLoop law now guard t' (shed ++ left)) ∨
    ∃ t' p sparse, Yields t t' [p] ∧
      serveLoop law now (guard + 1) t shed = ⟨some p, sparse, t', shed⟩ := by
  rw [serveLoop]
  cases hfront : t.front with
  | none => exact .inl ⟨t, .refl h, Tin.hasWork_of_front_eq_none hfront, rfl⟩
  | some k =>
    obtain ⟨f, hget, hnew⟩ := Tin.get?_of_front_eq_some h hfront
    dsimp only
    rw [hget]
    dsimp only
    cases hqueue : f.queue with
    | nil =>
      have hyields := yields_retire h hget hqueue
      have hidle := idleFlows_retire h hget hqueue
      have hdepth := hyields.depth_eq
      dsimp only
      split
      · next hwork => exact .inl ⟨_, hyields, by simpa using hwork, rfl⟩
      · refine .inr (.inl ⟨_, [], hyields, by simp, by omega, ?_⟩)
        rw [append_nil]
    | cons p rest =>
      -- the decision changes the state of the queue management only
      dsimp only
      generalize (if isDroppable p = true then _ else _ : Bool × α) = decision
      have hsound : ({ t with aqm := decision.2 } : Tin α c).Sound := h
      split
      · next hshed =>
        have hdrop : isDroppable p = true := by
          simp only [Bool.and_eq_true] at hshed
          exact hshed.1
        have hyields := yields_shed hsound hget hqueue
        have hdepth := hyields.depth_eq
        have hidle := hyields.idle
        rw [length_singleton] at hdepth
        change t.depth = _ at hdepth
        change _ ≤ t.idleFlows at hidle
        exact .inr (.inl ⟨_, [p], hyields.of_aqm, by simpa using hdrop, by omega, rfl⟩)
      · have hyields := yields_serveHead hsound hget hqueue hnew
        exact .inr (.inr ⟨_, p, t.sparse, hyields.of_aqm, rfl⟩)

/-- What a tin sheds and gives is what it yields, and it sheds droppable probes only. -/
theorem yields_serveLoop (guard : ℕ) {t : Tin α c} (shed : List ProbeRequest) (h : t.Sound) :
    ∃ left, (serveLoop law now guard t shed).shed = shed ++ left ∧
      (∀ p ∈ left, isDroppable p = true) ∧
      Yields t (serveLoop law now guard t shed).tin
        (left ++ (serveLoop law now guard t shed).out.toList) := by
  induction guard generalizing t shed with
  | zero => exact ⟨[], by simp [serveLoop], by simp, .refl h⟩
  | succ guard ih =>
    rcases serveLoop_succ law now h guard shed with
      ⟨t', hyields, -, heq⟩ | ⟨t', left, hyields, hdrop, -, heq⟩ | ⟨t', p, sparse, hyields, heq⟩
    · rw [heq]
      exact ⟨[], by simp, by simp, hyields⟩
    · rw [heq]
      obtain ⟨left', hshed, hdrop', hyields'⟩ := ih (shed ++ left) hyields.sound
      refine ⟨left ++ left', by rw [hshed, append_assoc], ?_, ?_⟩
      · intro p hp
        rcases mem_append.mp hp with hp | hp
        · exact hdrop p hp
        · exact hdrop' p hp
      · rw [append_assoc]
        exact hyields.trans hyields'
    · rw [heq]
      exact ⟨[], by simp, by simp, hyields⟩

/-- **A guard as large as the probes and the idle flows is enough**: a tin that gives nothing
then has no work left. -/
theorem serveLoop_exhausts (guard : ℕ) {t : Tin α c} (shed : List ProbeRequest) (h : t.Sound)
    (hle : t.depth + t.idleFlows ≤ guard) (hout : (serveLoop law now guard t shed).out = none) :
    (serveLoop law now guard t shed).tin.hasWork = false := by
  induction guard generalizing t shed with
  | zero =>
    refine Tin.hasWork_eq_false_of_get? h fun k => ?_
    cases hget : t.flows.get? k with
    | none => exact hget
    | some f =>
      have := Tin.pos_of_get? hget
      omega
  | succ guard ih =>
    rcases serveLoop_succ law now h guard shed with
      ⟨t', -, hwork, heq⟩ | ⟨t', left, hyields, -, hlt, heq⟩ | ⟨t', p, sparse, -, heq⟩
    · rw [heq]
      exact hwork
    · rw [heq] at hout ⊢
      exact ih _ hyields.sound (by omega) hout
    · rw [heq] at hout
      cases hout

end Loop

end Beast
end TortaCore
