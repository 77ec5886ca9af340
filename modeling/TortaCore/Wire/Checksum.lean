import Mathlib.Algebra.GroupWithZero.Nat
import Mathlib.Data.List.Induction
import TortaCore.Wire.Cursor

/-!
# One's-complement sums

Bytes as words of 16 bits, and the sum of the words with the carry brought around.

## Main definitions

* `wordsOf`: the words, an odd byte at the end in the high half.
* `onesAdd`, `onesSum`: the sum.

## Main results

* `onesSum_eq`: a sum with the carry brought around stands for the plain sum.
* `wordsOf_append`: words of two runs, the first of them even.
* `onesRep_add_complement`: a number and its complement add up to ones.
-/

namespace TortaCore
namespace Wire

open List

def wordsOf : List UInt8 → List ℕ
  | [] => []
  | [b] => [b.toNat * 256]
  | a :: b :: bs => (a.toNat * 256 + b.toNat) :: wordsOf bs

/-- Add two words, and the carry to the result. -/
def onesAdd (a b : ℕ) : ℕ := (a + b) % 65536 + (a + b) / 65536

def onesSum (bs : List UInt8) : ℕ := (wordsOf bs).foldl onesAdd 0

/-- The word that stands for a number modulo 65535; only zero is zero. -/
def onesRep (n : ℕ) : ℕ := if n = 0 then 0 else (n - 1) % 65535 + 1

theorem onesRep_of_le {n : ℕ} (h : n ≤ 65535) : onesRep n = n := by
  unfold onesRep
  split
  · omega
  · omega

theorem onesRep_le (n : ℕ) : onesRep n ≤ 65535 := by
  unfold onesRep
  split
  · omega
  · omega

/-- Bringing the carry around keeps what the number stands for. -/
theorem onesRep_carry (n : ℕ) : onesRep (n % 65536 + n / 65536) = onesRep n := by
  unfold onesRep
  split
  · split
    · rfl
    · omega
  · split
    · omega
    · omega

theorem onesAdd_onesRep (m : ℕ) {b : ℕ} (hb : b ≤ 65535) :
    onesAdd (onesRep m) b = onesRep (m + b) := by
  unfold onesAdd onesRep
  split
  · split
    · omega
    · omega
  · split
    · omega
    · omega

theorem onesRep_add_complement (n : ℕ) : onesRep (n + (65535 - onesRep n)) = 65535 := by
  unfold onesRep
  split
  · split
    · omega
    · omega
  · split
    · omega
    · omega

/-- Ones added to a number change nothing, unless it is zero. -/
theorem onesRep_add_ones {n : ℕ} (h : n ≠ 0) : onesRep (n + 65535) = onesRep n := by
  unfold onesRep
  rw [if_neg h, if_neg (by omega)]
  omega

theorem le_of_mem_wordsOf {bs : List UInt8} : ∀ w ∈ wordsOf bs, w ≤ 65535 := by
  induction bs using twoStepInduction with
  | nil => exact forall_mem_nil _
  | singleton b =>
    have hb := b.toNat_lt
    refine forall_mem_singleton.mpr ?_
    omega
  | cons_cons a b bs ih _ =>
    have ha := a.toNat_lt
    have hb := b.toNat_lt
    refine forall_mem_cons.mpr ⟨?_, ih⟩
    omega

theorem sum_wordsOf_le (bs : List UInt8) : (wordsOf bs).sum ≤ (bs.length + 1) / 2 * 65535 := by
  induction bs using twoStepInduction with
  | nil => exact Nat.zero_le _
  | singleton b =>
    have hb := b.toNat_lt
    simp only [wordsOf, sum_singleton, length_singleton]
    omega
  | cons_cons a b bs ih _ =>
    have ha := a.toNat_lt
    have hb := b.toNat_lt
    rw [wordsOf, sum_cons, length_cons, length_cons]
    omega

theorem wordsOf_append {as : List UInt8} (h : as.length % 2 = 0) (bs : List UInt8) :
    wordsOf (as ++ bs) = wordsOf as ++ wordsOf bs := by
  induction as using twoStepInduction with
  | nil => rfl
  | singleton a => cases h
  | cons_cons a b as ih _ =>
    rw [length_cons, length_cons] at h
    rw [cons_append, cons_append, wordsOf, wordsOf, ih (by omega), cons_append]

theorem sum_wordsOf_append {as : List UInt8} (h : as.length % 2 = 0) (bs : List UInt8) :
    (wordsOf (as ++ bs)).sum = (wordsOf as).sum + (wordsOf bs).sum := by
  rw [wordsOf_append h, sum_append]

theorem wordsOf_beBytes {n : ℕ} (h : n < 65536) : wordsOf (beBytes 2 n) = [n] := by
  have hwords : wordsOf (beBytes 2 n) =
      [(UInt8.ofNat (n / 256)).toNat * 256 + (UInt8.ofNat n).toNat] := rfl
  rw [hwords, UInt8.toNat_ofNat', UInt8.toNat_ofNat']
  congr 1
  omega

/-- **The sum with the carry brought around stands for the plain sum.** -/
theorem onesSum_eq (bs : List UInt8) : onesSum bs = onesRep (wordsOf bs).sum := by
  suffices hall : ∀ (ws : List ℕ) (m : ℕ), (∀ w ∈ ws, w ≤ 65535) →
      ws.foldl onesAdd (onesRep m) = onesRep (m + ws.sum) by
    have hsum := hall (wordsOf bs) 0 le_of_mem_wordsOf
    rwa [Nat.zero_add] at hsum
  intro ws
  induction ws with
  | nil => intro m _; rfl
  | cons w ws ih =>
    intro m hws
    obtain ⟨hw, hws⟩ := forall_mem_cons.mp hws
    rw [foldl_cons, onesAdd_onesRep m hw, ih _ hws, sum_cons, Nat.add_assoc]

end Wire
end TortaCore
