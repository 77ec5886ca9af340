import Mathlib.Data.List.Basic

/-!
# Runs

A machine is a total step function; a run folds it over a list of actions.  Results about
runs often need a condition on every step, in the state the step is taken in: this is
`Along`.  An invariant that is kept under the condition holds in every state of such a run,
and where the condition decides each step, the runs that meet it are the ones that keep the
invariant throughout.
-/

namespace TortaCore
namespace Machine

variable {σ α : Type*} (step : σ → α → σ)

/-- Every step is allowed in the state it is taken in. -/
def Along (allowed : σ → α → Prop) : σ → List α → Prop
  | _, [] => True
  | s, a :: as => allowed s a ∧ Along allowed (step s a) as

instance decidableAlong (allowed : σ → α → Prop) [∀ s a, Decidable (allowed s a)] :
    ∀ s acts, Decidable (Along step allowed s acts)
  | _, [] => isTrue trivial
  | s, a :: as => @instDecidableAnd _ _ _ (decidableAlong allowed (step s a) as)

/-- The property holds in every state the run goes through, the first and the last included. -/
def Throughout (P : σ → Prop) : σ → List α → Prop
  | s, [] => P s
  | s, a :: as => P s ∧ Throughout P (step s a) as

variable {step} {allowed : σ → α → Prop} {I P : σ → Prop}

theorem Throughout.head {s : σ} {acts : List α} (h : Throughout step P s acts) : P s := by
  cases acts with
  | nil => exact h
  | cons a acts => exact h.1

theorem along_append {s : σ} : ∀ {pre post : List α},
    Along step allowed s (pre ++ post) ↔
      Along step allowed s pre ∧ Along step allowed (pre.foldl step s) post := by
  intro pre
  induction pre generalizing s with
  | nil => intro post; simp [Along]
  | cons a pre ih =>
    intro post
    simp only [List.cons_append, Along, List.foldl_cons, ih, and_assoc]

/-- The rule for an invariant that every step keeps. -/
theorem foldl_invariant (hstep : ∀ s a, I s → I (step s a)) (acts : List α) {s : σ} (hs : I s) :
    I (acts.foldl step s) := by
  induction acts generalizing s with
  | nil => exact hs
  | cons a acts ih => exact ih (hstep s a hs)

/-- The rule for an invariant that the allowed steps keep. -/
theorem Along.invariant (hstep : ∀ s a, I s → allowed s a → I (step s a)) {acts : List α} {s : σ}
    (hs : I s) (h : Along step allowed s acts) : I (acts.foldl step s) := by
  induction acts generalizing s with
  | nil => exact hs
  | cons a acts ih => exact ih (hstep s a hs h.1) h.2

/-- Where the condition decides whether a step keeps the property, the runs that keep it
throughout are the runs whose steps all meet the condition. -/
theorem throughout_iff_along (hI : ∀ s a, I s → I (step s a))
    (hdecides : ∀ s a, I s → P s → (P (step s a) ↔ allowed s a)) {acts : List α} {s : σ} (hs : I s)
    (hP : P s) : (Throughout step P s acts ↔ Along step allowed s acts) := by
  induction acts generalizing s with
  | nil => exact iff_of_true hP trivial
  | cons a acts ih =>
    constructor
    · rintro ⟨-, h⟩
      exact ⟨(hdecides s a hs hP).mp h.head, (ih (hI s a hs) h.head).mp h⟩
    · rintro ⟨ha, h⟩
      exact ⟨hP, (ih (hI s a hs) ((hdecides s a hs hP).mpr ha)).mpr h⟩

end Machine
end TortaCore
