import TortaCore.Machine.Run
import Mathlib.Data.List.DropRight
import Mathlib.Tactic.Linarith

/-!
# The gate against flapping

The solver of the engine is kept from flapping by the pure functions of Hysteresis.kt.
`decideSwitch` lets a candidate replace the incumbent only when its score is lower by a margin.
`observe` calls for a solve when the signal has been high for some ticks and the windows that
`applySolve` has set are over.  Numbers are exact here, of any ordered ring.

## Main definitions

* `HysteresisConfig`: the dials, with what the constructor requires of them.
* `decideSwitch`, `switches`: one race, and what was replaced by what in a run of them.
* `observe`, `applySolve`, `Watch.tick`: the gate, with the ticks since the last solve.
-/

namespace TortaCore
namespace Solver

open Machine List

structure HysteresisConfig (R : Type*) [Ring R] [LinearOrder R] where
  triggerEnter : R
  triggerExit : R
  confirmSamples : ℤ
  dwellMs : ℤ
  cooldownMs : ℤ
  switchMargin : R
  band : triggerExit < triggerEnter
  enter_le : triggerEnter ≤ 1
  exit_nonneg : 0 ≤ triggerExit
  confirm_pos : 1 ≤ confirmSamples
  dwell_nonneg : 0 ≤ dwellMs
  cooldown_nonneg : 0 ≤ cooldownMs
  margin_nonneg : 0 ≤ switchMargin

inductive SwitchOutcome where
  | switch
  | keep
  deriving DecidableEq

variable {R B : Type*} [Ring R] [LinearOrder R]

/-! ### The cost of a switch -/

def decideSwitch (candidateScore : R) (incumbentScore : Option R) (incumbentDead : Bool)
    (config : HysteresisConfig R) : SwitchOutcome :=
  match incumbentScore with
  | none => .switch
  | some incumbent =>
    if incumbentDead then .switch
    else if candidateScore ≤ incumbent * (1 - config.switchMargin) then .switch else .keep

/-- What was replaced by what in a run of races, when the incumbent is live in each. -/
def switches (config : HysteresisConfig R) (score : B → R) : B → List B → List (B × B)
  | _, [] => []
  | incumbent, candidate :: rest =>
    match decideSwitch (score candidate) (some (score incumbent)) false config with
    | .switch => (incumbent, candidate) :: switches config score candidate rest
    | .keep => switches config score incumbent rest

/-- Every replacement is by a lower score, so never by an equal one, and what was replaced does
not come back. -/
structure NeverFlaps (score : B → R) (replaced : List (B × B)) : Prop where
  lower : ∀ e ∈ replaced, score e.2 < score e.1
  gone : replaced.Pairwise fun e later => later.2 ≠ e.1

section Margin

variable [IsStrictOrderedRing R] {config : HysteresisConfig R} {score : B → R}

theorem lower_of_switch {c i : R} (hmargin : 0 < config.switchMargin) (hi : 0 < i)
    (h : decideSwitch c (some i) false config = .switch) : c < i := by
  simp only [decideSwitch, Bool.false_eq_true, if_false] at h
  split at h
  · next hle =>
    have hpart : 0 < i * config.switchMargin := mul_pos hi hmargin
    rw [mul_sub, mul_one] at hle
    exact hle.trans_lt (sub_lt_self _ hpart)
  · cases h

/-- Along a run of positive scores every new incumbent is below the first one. -/
theorem switches_spec (hmargin : 0 < config.switchMargin) (hpos : ∀ b, 0 < score b) (cands : List B)
    (start : B) :
    NeverFlaps score (switches config score start cands) ∧
        ∀ e ∈ switches config score start cands, score e.2 < score start := by
  induction cands generalizing start with
  | nil => exact ⟨⟨by simp [switches], .nil⟩, by simp [switches]⟩
  | cons c cands ih =>
    rw [switches]
    split
    · next hswitch =>
      have hlower := lower_of_switch hmargin (hpos start) hswitch
      obtain ⟨hnever, hbelow⟩ := ih c
      refine ⟨⟨forall_mem_cons.mpr ⟨hlower, hnever.lower⟩, pairwise_cons.mpr ⟨fun e he heq => ?_,
        hnever.gone⟩⟩, forall_mem_cons.mpr ⟨hlower, fun e he => (hbelow e he).trans hlower⟩⟩
      have hlt := (hbelow e he).trans hlower
      rw [heq] at hlt
      exact lt_irrefl _ hlt
    · exact ih start

/-- **The binding cannot flap, unless it is at zero**: with a positive margin no run of races
flaps, just when no binding has the score zero.  One that has it is replaced by every binding
that has it too. -/
theorem never_flaps_iff (config : HysteresisConfig R) (hmargin : 0 < config.switchMargin)
    (score : B → R) (hscore : ∀ b, 0 ≤ score b) :
    (∀ start cands, NeverFlaps score (switches config score start cands)) ↔
      ∀ b, score b ≠ 0 := by
  constructor
  · intro h b hb
    have hself : switches config score b [b] = [(b, b)] := by
      simp [switches, decideSwitch, hb]
    have hlower := (h b [b]).lower (b, b) (by simp [hself])
    exact lt_irrefl _ hlower
  · intro h start cands
    exact (switches_spec hmargin (fun b => lt_of_le_of_ne (hscore b) (h b).symm) cands start).1

end Margin

/-- The dials as they are by default. -/
def defaultConfig : HysteresisConfig ℚ where
  triggerEnter := 7 / 10
  triggerExit := 4 / 10
  confirmSamples := 3
  dwellMs := 30000
  cooldownMs := 20000
  switchMargin := 15 / 100
  band := by norm_num
  enter_le := by norm_num
  exit_nonneg := by norm_num
  confirm_pos := by norm_num
  dwell_nonneg := by norm_num
  cooldown_nonneg := by norm_num
  margin_nonneg := by norm_num

theorem never_flaps_default :
    NeverFlaps (fun b : Bool => if b then (20 : ℚ) else 30)
      (switches defaultConfig (fun b => if b then 20 else 30) false [true, false]) :=
  (never_flaps_iff defaultConfig (by norm_num [defaultConfig]) _ fun b => by
    cases b <;> norm_num).mpr (fun b => by cases b <;> norm_num) false [true, false]

/-- Two bindings at zero take each other's place. -/
theorem zero_scores_flap :
    switches defaultConfig (fun _ : Bool => 0) true [false, true] =
      [(true, false), (false, true)] := by
  simp [switches, decideSwitch]

/-! ### The gate of a solve -/

structure HysteresisState where
  armed : Bool := false
  confirmRun : ℤ := 0
  dwellUntilMs : ℤ := 0
  cooldownUntilMs : ℤ := 0
  lastCommitMs : ℤ := 0

inductive Decision where
  | hold
  | solve
  deriving DecidableEq

def observe (state : HysteresisState) (signal : R) (nowMs : ℤ) (config : HysteresisConfig R) :
    Decision × HysteresisState :=
  let s := max 0 (min signal 1)
  let armed :=
    if config.triggerEnter ≤ s then true
    else if s < config.triggerExit then false
    else state.armed
  let confirmRun := if config.triggerEnter ≤ s then state.confirmRun + 1 else 0
  let next := { state with armed := armed, confirmRun := confirmRun }
  -- every branch of the code returns the same next state
  (if !armed ∨ confirmRun < config.confirmSamples then .hold
    else if nowMs < state.dwellUntilMs then .hold
    else if nowMs < state.cooldownUntilMs then .hold
    else .solve, next)

def applySolve (state : HysteresisState) (nowMs : ℤ) (config : HysteresisConfig R) :
    HysteresisState :=
  { state with
    armed := false
    confirmRun := 0
    dwellUntilMs := nowMs + config.dwellMs
    cooldownUntilMs := nowMs + config.cooldownMs
    lastCommitMs := nowMs }

/-- A tick, and when its solve is applied if it calls for one. -/
structure Tick (R : Type*) where
  signal : R
  nowMs : ℤ
  solvedMs : ℤ

/-- The gate with its past: when a solve was last applied, and the ticks since then. -/
structure Watch (R : Type*) where
  state : HysteresisState := {}
  applied : Option ℤ := none
  since : List (Tick R) := []

namespace Watch

def solves (config : HysteresisConfig R) (w : Watch R) (x : Tick R) : Bool :=
  (observe w.state x.signal x.nowMs config).1 = .solve

def tick (config : HysteresisConfig R) (w : Watch R) (x : Tick R) : Watch R :=
  let next := (observe w.state x.signal x.nowMs config).2
  if w.solves config x then ⟨applySolve next x.solvedMs config, some x.solvedMs, []⟩
  else ⟨next, w.applied, w.since ++ [x]⟩

/-- The times of the ticks that call for a solve. -/
def solveTimes (config : HysteresisConfig R) : Watch R → List (Tick R) → List ℤ
  | _, [] => []
  | w, x :: xs =>
    (if w.solves config x then [x.nowMs] else []) ++ solveTimes config (w.tick config x) xs

/-- Both windows of the solve that was applied last have passed. -/
def Free (config : HysteresisConfig R) (w : Watch R) (now : ℤ) : Prop :=
  ∀ a ∈ w.applied, a + max config.dwellMs config.cooldownMs ≤ now

/-- How many ticks were high, one after the other, up to the last. -/
def high (config : HysteresisConfig R) (xs : List (Tick R)) : ℤ :=
  (xs.rtakeWhile fun y => config.triggerEnter ≤ y.signal).length

/-- What the state keeps of the past. -/
structure Kept (config : HysteresisConfig R) (w : Watch R) : Prop where
  run : w.state.confirmRun = high config w.since
  windows : ∀ now, 0 ≤ now →
    (w.state.dwellUntilMs ≤ now ∧ w.state.cooldownUntilMs ≤ now ↔ w.Free config now)

variable {config : HysteresisConfig R} {w : Watch R} {x : Tick R}

/-- Clamping does not move a signal across the high rail. -/
theorem enter_le_clamp (signal : R) :
    config.triggerEnter ≤ max 0 (min signal 1) ↔ config.triggerEnter ≤ signal := by
  have hpos : ¬ config.triggerEnter ≤ 0 := not_le.mpr (config.exit_nonneg.trans_lt config.band)
  simp [hpos, config.enter_le]

theorem high_concat (xs : List (Tick R)) :
    high config (xs ++ [x]) =
      if config.triggerEnter ≤ max 0 (min x.signal 1) then high config xs + 1 else 0 := by
  rw [high, rtakeWhile_concat]
  split
  · next hhigh =>
    rw [if_pos ((enter_le_clamp x.signal).mpr (of_decide_eq_true hhigh))]
    simp [high]
  · next hlow =>
    rw [if_neg ((enter_le_clamp x.signal).not.mpr (by simpa using hlow))]
    simp

theorem Kept.solves_iff (h : w.Kept config) (hnow : 0 ≤ x.nowMs) :
    w.solves config x = true ↔
      config.confirmSamples ≤ high config (w.since ++ [x]) ∧ w.Free config x.nowMs := by
  have hpos := config.confirm_pos
  rw [← h.windows _ hnow, high_concat, ← h.run, solves, observe]
  by_cases hhigh : config.triggerEnter ≤ max 0 (min x.signal 1)
  · simp only [hhigh, if_true]
    grind
  · -- a low tick leaves nothing to confirm
    simp only [hhigh, if_false]
    grind

theorem Kept.tick (h : w.Kept config) (x : Tick R) : (w.tick config x).Kept config := by
  unfold Watch.tick
  dsimp only
  split
  · refine ⟨rfl, fun now _ => ?_⟩
    simp only [applySolve, Free, Option.mem_def, Option.some_inj, forall_eq']
    omega
  · refine ⟨?_, h.windows⟩
    rw [high_concat, ← h.run]
    rfl

/-- The times of the solves lie as far apart as the windows are long. -/
theorem Kept.solveTimes_apart : ∀ (xs : List (Tick R)) {w : Watch R}, w.Kept config →
    (∀ x ∈ xs, 0 ≤ x.nowMs ∧ x.nowMs ≤ x.solvedMs) →
    ((solveTimes config w xs).Pairwise fun u v =>
        u + max config.dwellMs config.cooldownMs ≤ v) ∧
      ∀ u ∈ solveTimes config w xs, w.Free config u := by
  have hdwell := config.dwell_nonneg
  intro xs
  induction xs with
  | nil => intro w _ _; exact ⟨.nil, by simp [solveTimes]⟩
  | cons x xs ih =>
    intro w h htimes
    obtain ⟨⟨hnow, hsolved⟩, htimes⟩ := forall_mem_cons.mp htimes
    obtain ⟨hpair, hlater⟩ := ih (h.tick x) htimes
    rw [solveTimes]
    by_cases hs : w.solves config x = true
    · have hfree := ((h.solves_iff hnow).mp hs).2
      have hrest : ∀ u ∈ solveTimes config (w.tick config x) xs,
          x.solvedMs + max config.dwellMs config.cooldownMs ≤ u :=
        fun u hu => hlater u hu _ (by simp [Watch.tick, hs])
      rw [if_pos hs]
      refine ⟨pairwise_cons.mpr ⟨fun u hu => ?_, hpair⟩, forall_mem_cons.mpr
        ⟨hfree, fun u hu a ha => ?_⟩⟩
      · have := hrest u hu
        omega
      · have := hrest u hu
        have := hfree a ha
        omega
    · rw [if_neg hs]
      refine ⟨hpair, fun u hu a ha => hlater u hu a ?_⟩
      simpa [Watch.tick, hs] using ha

end Watch

open Watch

/-- Times that lie apart are few. -/
theorem length_of_apart {m : ℤ} : ∀ {l : List ℤ} {t span : ℤ}, l ≠ [] →
    (l.Pairwise fun u v => u + m ≤ v) → (∀ u ∈ l, t ≤ u ∧ u ≤ t + span) →
    ((l.length : ℤ) - 1) * m ≤ span := by
  intro l
  induction l with
  | nil => intro t span hne; exact absurd rfl hne
  | cons u l ih =>
    intro t span _ hpair hall
    obtain ⟨hfirst, hpair⟩ := pairwise_cons.mp hpair
    obtain ⟨hu, hall⟩ := forall_mem_cons.mp hall
    cases l with
    | nil => simp; omega
    | cons v l =>
      have hin : ∀ y ∈ v :: l, t + m ≤ y ∧ y ≤ t + m + (span - m) := fun y hy => by
        have := hfirst y hy
        have := hall y hy
        omega
      have hrest := ih (by simp) hpair hin
      simp only [length_cons, Nat.cast_add, Nat.cast_one, add_sub_cancel_right] at hrest ⊢
      linarith

/-- **When the gate calls for a solve**: over every run of ticks a tick calls for one just when
enough ticks have been high since a solve was applied, up to this one, and the windows of that
solve have passed; and no span of time has more solves than the windows leave room for. -/
theorem solves_iff_due (config : HysteresisConfig R) (xs : List (Tick R))
    (htimes : ∀ x ∈ xs, 0 ≤ x.nowMs ∧ x.nowMs ≤ x.solvedMs) :
    (∀ pre x post, xs = pre ++ x :: post →
      let w : Watch R := pre.foldl (Watch.tick config) {}
      w.solves config x = true ↔
        config.confirmSamples ≤ high config (w.since ++ [x]) ∧ w.Free config x.nowMs) ∧
    ∀ t span, 0 ≤ span → 0 < max config.dwellMs config.cooldownMs →
      ((solveTimes config {} xs).countP (fun u => t ≤ u ∧ u ≤ t + span) : ℤ) ≤
        1 + span / max config.dwellMs config.cooldownMs := by
  have hstart : Kept config {} := ⟨rfl, fun now hnow => by simp [Free, hnow]⟩
  refine ⟨fun pre x post hxs => ?_, fun t span hspan hm => ?_⟩
  · have hkept := foldl_invariant (I := Kept config) (fun w x hw => hw.tick x) pre hstart
    exact hkept.solves_iff (htimes x (by simp [hxs])).1
  · rw [countP_eq_length_filter]
    have hpair := (hstart.solveTimes_apart xs htimes).1.filter
      (fun u => decide (t ≤ u ∧ u ≤ t + span))
    have hin : ∀ u ∈ (solveTimes config {} xs).filter (fun u => t ≤ u ∧ u ≤ t + span),
        t ≤ u ∧ u ≤ t + span := fun u hu => by simpa using (mem_filter.mp hu).2
    by_cases hne : (solveTimes config {} xs).filter (fun u => t ≤ u ∧ u ≤ t + span) = []
    · have := Int.ediv_nonneg hspan hm.le
      rw [hne]
      simp only [length_nil, Nat.cast_zero]
      omega
    · have := Int.le_ediv_of_mul_le hm (length_of_apart hne hpair hin)
      omega

/-- Three high ticks, and one more after the windows. -/
theorem solves_iff_due_default :
    let xs : List (Tick ℚ) := [⟨1, 0, 0⟩, ⟨1, 1, 1⟩, ⟨1, 2, 5⟩, ⟨1, 30005, 30005⟩]
    (∀ x ∈ xs, 0 ≤ x.nowMs ∧ x.nowMs ≤ x.solvedMs) ∧
      ((solveTimes defaultConfig {} xs).countP (fun u => 0 ≤ u ∧ u ≤ 0 + 40000) : ℤ) ≤ 2 := by
  intro xs
  have htimes : ∀ x ∈ xs, 0 ≤ x.nowMs ∧ x.nowMs ≤ x.solvedMs := by simp [xs]
  exact ⟨htimes, (solves_iff_due defaultConfig xs htimes).2 0 40000 (by decide) (by decide)⟩

end Solver
end TortaCore
