import Mathlib.Data.List.Chain

/-!
# Loops

A loop is a step function that either goes on with a new state or halts with a
result.  It is run with a budget of steps; its meaning, free of the budget, is the
relation `Evaluates`.  A measure that every step decreases makes the loop total and
says which budget is enough.

## Main results

* `isSome_loop`: under a measure the run reaches a halt.
* `loop_eq_some_iff`, `join_loop_eq_iff`: under a measure the run computes the relation.
* `exists_halt_of_invariant`: the rule for a loop whose measure falls under an invariant.
* `isChain_trail`: the rule for the states on the way.
-/

namespace TortaCore
namespace Machine

open Option

/-- What a step does: go on, or halt. -/
inductive Turn (σ ρ : Type*) where
  | next (s : σ)
  | halt (r : ρ)

variable {σ ρ : Type*}

/-- At most `fuel` steps; nothing when they do not reach a halt. -/
def loop (step : σ → Turn σ ρ) : ℕ → σ → Option ρ
  | 0, _ => none
  | fuel + 1, s =>
    match step s with
    | .next s' => loop step fuel s'
    | .halt r => some r

/-- The loop halts with a result. -/
inductive Evaluates (step : σ → Turn σ ρ) : σ → ρ → Prop where
  | halt {s r} : step s = .halt r → Evaluates step s r
  | next {s s' r} : step s = .next s' → Evaluates step s' r → Evaluates step s r

variable {step : σ → Turn σ ρ}

theorem evaluates_of_loop (fuel : ℕ) {s : σ} {r : ρ} (h : loop step fuel s = some r) :
    Evaluates step s r := by
  induction fuel generalizing s with
  | zero => cases h
  | succ fuel ih =>
    rw [loop] at h
    cases hs : step s with
    | next s' =>
      rw [hs] at h
      exact .next hs (ih h)
    | halt r' =>
      rw [hs] at h
      cases h
      exact .halt hs

section Measure

variable (m : σ → ℕ) (hm : ∀ s s', step s = .next s' → m s' < m s)
include hm

theorem loop_of_evaluates {s : σ} {r : ρ} (h : Evaluates step s r) :
    ∀ fuel, m s < fuel → loop step fuel s = some r := by
  induction h with
  | halt hs =>
    intro fuel hlt
    cases fuel with
    | zero => omega
    | succ fuel => rw [loop, hs]
  | @next s s' r hs _ ih =>
    intro fuel hlt
    cases fuel with
    | zero => omega
    | succ fuel =>
      have hdec := hm s s' hs
      rw [loop, hs]
      exact ih fuel (by omega)

theorem isSome_loop (fuel : ℕ) (s : σ) (hlt : m s < fuel) : (loop step fuel s).isSome = true := by
  induction fuel generalizing s with
  | zero => omega
  | succ fuel ih =>
    rw [loop]
    cases hs : step s with
    | halt r => rfl
    | next s' =>
      have hdec := hm s s' hs
      exact ih s' (by omega)

/-- With a budget above the measure the run computes the relation. -/
theorem loop_eq_some_iff {s : σ} {r : ρ} {fuel : ℕ} (hfuel : m s < fuel) :
    loop step fuel s = some r ↔ Evaluates step s r :=
  ⟨evaluates_of_loop fuel, fun h => loop_of_evaluates m hm h fuel hfuel⟩

end Measure

/-- A loop that keeps an invariant under which the measure falls: it halts, in a state with
the invariant, and what is left of the measure there was not spent on turns. -/
theorem exists_halt_of_invariant {I : σ → Prop} (m : σ → ℕ)
    (hstep : ∀ s s', I s → step s = .next s' → I s' ∧ m s' < m s) :
    ∀ {s : σ}, I s → ∃ k s' r, I s' ∧ step s' = .halt r ∧ k + m s' ≤ m s ∧
      ∀ fuel, k < fuel → loop step fuel s = some r := by
  intro s
  induction hn : m s using Nat.strongRecOn generalizing s with
  | _ n ih =>
    intro hs
    cases hturn : step s with
    | halt r =>
      refine ⟨0, s, r, hs, hturn, by omega, fun fuel hfuel => ?_⟩
      obtain ⟨fuel, rfl⟩ := Nat.exists_eq_add_of_lt hfuel
      rw [Nat.zero_add, loop, hturn]
    | next s₁ =>
      obtain ⟨hs₁, hlt⟩ := hstep s s₁ hs hturn
      obtain ⟨k, s', r, hs', hhalt, hle, hloop⟩ := ih (m s₁) (hn ▸ hlt) rfl hs₁
      refine ⟨k + 1, s', r, hs', hhalt, by omega, fun fuel hfuel => ?_⟩
      cases fuel with
      | zero => omega
      | succ fuel =>
        rw [loop, hturn]
        exact hloop fuel (by omega)

/-- A loop whose result is itself optional: no result is an answer of the loop, never of the
budget. -/
theorem join_loop_eq_iff {step : σ → Turn σ (Option ρ)} (m : σ → ℕ)
    (hm : ∀ s s', step s = .next s' → m s' < m s) {s : σ} {r : Option ρ} {fuel : ℕ}
    (hfuel : m s < fuel) : (loop step fuel s).join = r ↔ Evaluates step s r := by
  obtain ⟨o, ho⟩ := isSome_iff_exists.mp (isSome_loop m hm fuel s hfuel)
  rw [← loop_eq_some_iff m hm hfuel, ho, join_some, some_inj]

/-! ### The states on the way -/

/-- The states a run goes through, the last one included. -/
def trail (step : σ → Turn σ ρ) : ℕ → σ → List σ
  | 0, s => [s]
  | fuel + 1, s =>
    s :: match step s with
      | .next s' => trail step fuel s'
      | .halt _ => []

theorem head?_trail (step : σ → Turn σ ρ) (fuel : ℕ) (s : σ) :
    (trail step fuel s).head? = some s := by
  cases fuel <;> rfl

/-- The rule for the states on the way: an invariant, and how each is related to the next. -/
theorem isChain_trail {I : σ → Prop} {R : σ → σ → Prop}
    (hstep : ∀ s s', I s → step s = .next s' → I s' ∧ R s s') (fuel : ℕ) {s : σ} (hs : I s) :
    (trail step fuel s).IsChain R ∧ ∀ x ∈ trail step fuel s, I x := by
  induction fuel generalizing s with
  | zero => exact ⟨.singleton s, by simpa [trail] using hs⟩
  | succ fuel ih =>
    rw [trail]
    cases hturn : step s with
    | halt r => exact ⟨.singleton s, by simpa using hs⟩
    | next s' =>
      obtain ⟨hs', hR⟩ := hstep s s' hs hturn
      obtain ⟨hchain, hall⟩ := ih hs'
      refine ⟨List.isChain_cons.mpr ⟨fun y hy => ?_, hchain⟩, List.forall_mem_cons.mpr ⟨hs, hall⟩⟩
      rw [head?_trail] at hy
      cases hy
      exact hR

theorem getLast?_trail (fuel : ℕ) {s : σ} {r : ρ} (h : loop step fuel s = some r) :
    ∃ s', (trail step fuel s).getLast? = some s' ∧ step s' = .halt r := by
  induction fuel generalizing s with
  | zero => cases h
  | succ fuel ih =>
    rw [loop] at h
    rw [trail]
    cases hturn : step s with
    | halt r' =>
      rw [hturn] at h
      cases h
      exact ⟨s, rfl, hturn⟩
    | next s' =>
      rw [hturn] at h
      obtain ⟨last, hlast, hhalt⟩ := ih h
      refine ⟨last, ?_, hhalt⟩
      rw [List.getLast?_cons, hlast]
      rfl

end Machine
end TortaCore
