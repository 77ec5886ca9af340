import Mathlib.Algebra.Order.Group.Abs
import Mathlib.Algebra.Order.Group.Int
import Mathlib.Tactic.Common

/-!
# Start-time fair queueing

Classes of work share a server.  Each class has a start tag, its pass, that grows by the stride
of the class with every service, and the queue has a virtual time.  The busy class with the
least pass is served, the virtual time follows the tags of what is served, and a class that gets
work again after a pause is set up to the virtual time.

What makes the queue fair is that the passes are confined: no class is more than its stride
ahead of the virtual time, and no busy class is behind it.  Between two moments the passes of
two busy classes have then moved by the same amount, up to the two strides.

## Main results

* `Confined.visit`, `Confined.serve`, `Confined.wake`, `Confined.mono`: the steps keep it.
* `Confined.abs_sub_le`: what it gives between two moments.
-/

namespace TortaCore
namespace Machine

variable {ι : Type*}

/-- No class is more than its stride ahead of the virtual time, and no busy one behind it. -/
structure Confined (stride : ι → ℤ) (busy : ι → Prop) (pass : ι → ℤ) (vtime : ℤ) : Prop where
  ahead : ∀ i, pass i ≤ vtime + stride i
  behind : ∀ i, busy i → vtime ≤ pass i

namespace Confined

variable {stride : ι → ℤ} {busy busy' : ι → Prop} {pass pass' : ι → ℤ} {vtime vtime' : ℤ}
  (h : Confined stride busy pass vtime)

include h

/-- A class may run out of work at any time. -/
theorem mono (hbusy : ∀ i, busy' i → busy i) : Confined stride busy' pass vtime :=
  ⟨h.ahead, fun i hi => h.behind i (hbusy i hi)⟩

theorem visit {i : ι} (hleast : ∀ j, busy j → pass i ≤ pass j) :
    Confined stride busy pass (max vtime (pass i)) := by
  constructor
  · intro j
    have := h.ahead j
    omega
  · intro j hj
    have := h.behind j hj
    have := hleast j hj
    omega

/-- A class at or behind the virtual time is served. -/
theorem serve {i : ι} (hstride : 0 ≤ stride i) (hi : pass i ≤ vtime)
    (hpass : pass' i = pass i + stride i) (hother : ∀ j, j ≠ i → pass' j = pass j) :
    Confined stride busy pass' vtime := by
  constructor
  · intro j
    by_cases hj : j = i
    · subst hj
      omega
    · rw [hother j hj]
      exact h.ahead j
  · intro j hbusy
    have := h.behind j hbusy
    by_cases hj : j = i
    · subst hj
      omega
    · rw [hother j hj]
      exact this

/-- A class gets work after a pause. -/
theorem wake {i : ι} (hstride : 0 ≤ stride i) (hpass : pass' i = max (pass i) vtime)
    (hother : ∀ j, j ≠ i → pass' j = pass j) (hbusy : ∀ j, j ≠ i → busy' j → busy j) :
    Confined stride busy' pass' vtime := by
  constructor
  · intro j
    have := h.ahead j
    by_cases hj : j = i
    · subst hj
      omega
    · rw [hother j hj]
      exact this
  · intro j hbusy'
    by_cases hj : j = i
    · subst hj
      omega
    · rw [hother j hj]
      exact h.behind j (hbusy j hj hbusy')

/-- **Fairness.**  Between two moments at which two classes are busy, their passes have moved by
the same amount, up to their strides. -/
theorem abs_sub_le (h' : Confined stride busy' pass' vtime') {i j : ι} (hi : busy i) (hj : busy j)
    (hi' : busy' i) (hj' : busy' j) :
    |(pass' i - pass i) - (pass' j - pass j)| ≤ stride i + stride j := by
  have := h.ahead i
  have := h.ahead j
  have := h.behind i hi
  have := h.behind j hj
  have := h'.ahead i
  have := h'.ahead j
  have := h'.behind i hi'
  have := h'.behind j hj'
  rw [abs_le]
  constructor
  · omega
  · omega

end Confined
end Machine
end TortaCore
