import TortaCore.Wire.Cursor

/-!
# Readers of records

A reader takes a value off the front of the bytes.  It *accepts* a writer when it succeeds
precisely on what the writer writes for the legal values, and then reads a view of the
value.  From that one equivalence come the reader of a list of records and the fact that
legal records can be told apart.

## Main results

* `Accepts.many`: the reader of a list accepts the writer of a list.
* `Accepts.unique`: two legal records at the front of the same bytes have the same view.
-/

namespace TortaCore
namespace Wire

open List Option

variable {α β : Type*}

/-- The reader succeeds on the legal values as they are written, and on nothing else. -/
def Accepts (read : List UInt8 → Option (β × List UInt8)) (emit : α → List UInt8)
    (legal : α → Prop) (view : α → β) : Prop :=
  ∀ bs x rest, read bs = some (x, rest) ↔ ∃ a, legal a ∧ view a = x ∧ bs = emit a ++ rest

/-- Read `n` records. -/
def readMany (read : List UInt8 → Option (β × List UInt8)) :
    ℕ → List UInt8 → Option (List β × List UInt8)
  | 0, bs => some ([], bs)
  | n + 1, bs => (read bs).bind fun r => (readMany read n r.2).map fun rs => (r.1 :: rs.1, rs.2)

namespace Accepts

variable {read : List UInt8 → Option (β × List UInt8)} {emit : α → List UInt8}
  {legal : α → Prop} {view : α → β}

theorem read_emit (h : Accepts read emit legal view) {a : α} (ha : legal a) (rest : List UInt8) :
    read (emit a ++ rest) = some (view a, rest) := (h _ _ _).mpr ⟨a, ha, rfl, rfl⟩

theorem unique (h : Accepts read emit legal view) {a b : α} {rest rest' : List UInt8}
    (ha : legal a) (hb : legal b) (heq : emit a ++ rest = emit b ++ rest') :
    view a = view b ∧ rest = rest' := by
  have hread := h.read_emit ha rest
  rw [heq, h.read_emit hb rest'] at hread
  simpa [eq_comm] using hread

theorem many (h : Accepts read emit legal view) : ∀ n : ℕ,
    Accepts (readMany read n) (List.flatMap emit)
      (fun as => as.length = n ∧ ∀ a ∈ as, legal a) (List.map view) := by
  intro n
  induction n with
  | zero =>
    intro bs xs rest
    constructor
    · intro hread
      obtain ⟨rfl, rfl⟩ := hread
      exact ⟨[], ⟨rfl, forall_mem_nil _⟩, rfl, rfl⟩
    · rintro ⟨as, ⟨hlen, -⟩, rfl, rfl⟩
      rw [length_eq_zero_iff.mp hlen]
      rfl
  | succ n ih =>
    intro bs xs rest
    constructor
    · intro hread
      simp only [readMany, bind_eq_some_iff, map_eq_some_iff, Prod.mk.injEq] at hread
      obtain ⟨⟨x, bs'⟩, hx, ⟨ys, rest'⟩, hys, rfl, rfl⟩ := hread
      obtain ⟨a, ha, rfl, rfl⟩ := (h _ _ _).mp hx
      obtain ⟨as, ⟨hlen, has⟩, rfl, rfl⟩ := (ih _ _ _).mp hys
      refine ⟨a :: as, ⟨by rw [length_cons, hlen], forall_mem_cons.mpr ⟨ha, has⟩⟩, rfl, ?_⟩
      rw [flatMap_cons, append_assoc]
    · rintro ⟨as, ⟨hlen, has⟩, rfl, rfl⟩
      cases as with
      | nil => simp at hlen
      | cons a as =>
        obtain ⟨ha, has⟩ := forall_mem_cons.mp has
        rw [length_cons, Nat.add_right_cancel_iff] at hlen
        rw [flatMap_cons, append_assoc, readMany, h.read_emit ha, bind_some,
          ih.read_emit ⟨hlen, has⟩]
        rfl

end Accepts

end Wire
end TortaCore
