import TortaCore.Text.Unicode
import Mathlib.Algebra.Group.Nat.Defs
import Mathlib.Data.List.DropRight

/-!
# Punycode

The decoding procedure of RFC 3492, section 6.2, with the parameters of Punycode, on natural numbers
and with the overflow tests for a largest integer of `2 ^ 32 - 1`.  Code points are numbers: the
procedure may produce some that are no Unicode scalar values.

## Main definitions

* `Punycode.adapt`, `Punycode.readInteger`, `Punycode.insertAll`: bias adaptation, the generalized
  variable-length integers, the insertions.
* `Punycode.decode`: the procedure.

## Main results

* `Punycode.adapt_le`: the bias stays small.
* `Punycode.readInteger_spec`: an integer only adds, stays below the limit, is digits.
* `Punycode.length_le_of_insertAll`: every insertion makes the output longer.
* `Punycode.ascii_of_insertAll`: what is decoded is ASCII.
-/

namespace TortaCore
namespace Text
namespace Punycode

open List Option

def base : ℕ := 36
def tmin : ℕ := 1
def tmax : ℕ := 26
def skew : ℕ := 38
def damp : ℕ := 700
def initialBias : ℕ := 72
def initialN : ℕ := 128

/-- One more than the largest integer. -/
def limit : ℕ := 2 ^ 32

/-- The loop of the bias adaptation. -/
def adaptFrom (delta k : ℕ) : ℕ :=
  if ((base - tmin) * tmax) / 2 < delta then adaptFrom (delta / (base - tmin)) (k + base)
  else k + ((base - tmin + 1) * delta) / (delta + skew)
termination_by delta
decreasing_by exact Nat.div_lt_self (by omega) (by decide)

def adapt (delta numpoints : ℕ) (firsttime : Bool) : ℕ :=
  let delta := if firsttime then delta / damp else delta / 2
  adaptFrom (delta + delta / numpoints) 0

def digitValue (c : Char) : Option ℕ :=
  if 'a' ≤ c ∧ c ≤ 'z' then some (c.toNat - 'a'.toNat)
  else if 'A' ≤ c ∧ c ≤ 'Z' then some (c.toNat - 'A'.toNat)
  else if '0' ≤ c ∧ c ≤ '9' then some (c.toNat - '0'.toNat + 26)
  else none

def threshold (k bias : ℕ) : ℕ :=
  if k ≤ bias + tmin then tmin else if bias + tmax ≤ k then tmax else k - bias

/-- Consume the digits of one integer, adding it to `i`. -/
def readInteger (bias : ℕ) : Str → ℕ → ℕ → ℕ → Option (ℕ × Str)
  | [], _, _, _ => none
  | c :: rest, i, w, k =>
    match digitValue c with
    | none => none
    | some d =>
      if limit ≤ i + d * w then none
      else if d < threshold k bias then some (i + d * w, rest)
      else if limit ≤ w * (base - threshold k bias) then none
      else readInteger bias rest (i + d * w) (w * (base - threshold k bias)) (k + base)

/-- An integer only adds, stays below the limit, and is written in digits. -/
theorem readInteger_spec {bias : ℕ} {s : Str} {i w k j : ℕ} {rest : Str}
    (h : readInteger bias s i w k = some (j, rest)) :
    i ≤ j ∧ j < limit ∧
      ∃ digits ≠ [], s = digits ++ rest ∧ ∀ c ∈ digits, (digitValue c).isSome = true := by
  fun_induction readInteger with
  | case1 | case2 | case3 | case5 => cases h
  | case4 c _ i w k d hd hlt =>
    cases h
    exact ⟨Nat.le_add_right _ _, Nat.not_le.mp hlt, [c], by simp, rfl, by simp [hd]⟩
  | case6 c s i w k d hd _ _ _ ih =>
    obtain ⟨hle, hj, digits, -, rfl, hdigits⟩ := ih h
    exact ⟨Nat.le_trans (Nat.le_add_right _ _) hle, hj, c :: digits, by simp, rfl,
      forall_mem_cons.mpr ⟨isSome_of_eq_some hd, hdigits⟩⟩

theorem length_readInteger {bias : ℕ} {s : Str} {i w k j : ℕ} {rest : Str}
    (h : readInteger bias s i w k = some (j, rest)) : rest.length < s.length := by
  obtain ⟨-, -, digits, hne, rfl, -⟩ := readInteger_spec h
  rw [length_append]
  have hpos := length_pos_iff.mpr hne
  omega

/-- Insert a code point for each integer of the input. -/
def insertAll (n i bias : ℕ) (output : List ℕ) (input : Str) : Option (List ℕ) :=
  match input with
  | [] => some output
  | c :: input =>
    match h : readInteger bias (c :: input) i 1 base with
    | none => none
    | some (j, rest) =>
      let n := n + j / (output.length + 1)
      if limit ≤ n then none
      else
        insertAll n (j % (output.length + 1) + 1) (adapt (j - i) (output.length + 1) (i == 0))
          (output.insertIdx (j % (output.length + 1)) n) rest
termination_by input.length
decreasing_by exact length_readInteger h

/-- What precedes the last delimiter. -/
def basicPart (input : Str) : Str := (input.rdropWhile (· != '-')).dropLast

/-- The decoding procedure: a delimiter is skipped only after at least one code point. -/
def decode (input : Str) : Option (List ℕ) :=
  let basic := basicPart input
  if basic.all fun c => c.toNat < 0x80 then
    insertAll initialN 0 initialBias (basic.map Char.toNat)
      (if basic.isEmpty then input else input.drop (basic.length + 1))
  else none

/-! ### Bounds -/

theorem adaptFrom_le (delta k : ℕ) : 12 * adaptFrom delta k ≤ 12 * k + delta + 12 * base := by
  induction delta using Nat.strongRecOn generalizing k with
  | ind delta ih =>
    rw [adaptFrom]
    split
    next hbig =>
      simp only [base, tmin, tmax] at hbig ih ⊢
      have := ih (delta / (36 - 1)) (Nat.div_lt_self (by omega) (by decide)) (k + 36)
      omega
    next hsmall =>
      have hlast : (base - tmin + 1) * delta / (delta + skew) ≤ base := by
        refine Nat.div_le_of_le_mul ?_
        rw [Nat.mul_comm]
        exact Nat.mul_le_mul (Nat.le_add_right _ _) (by decide)
      omega

/-- The bias stays far below the largest integer. -/
theorem adapt_le {delta : ℕ} (numpoints : ℕ) (firsttime : Bool) (h : delta < limit) :
    12 * adapt delta numpoints firsttime ≤ limit + 12 * base := by
  have hstart : ∀ d, d ≤ delta / 2 → d + d / numpoints ≤ limit := by
    intro d hd
    have := Nat.div_le_self d numpoints
    omega
  have hdamp : (if firsttime then delta / damp else delta / 2) ≤ delta / 2 := by
    split
    · exact Nat.div_le_div_left (by decide) (by decide)
    · exact Nat.le_refl _
  have hdelta := hstart _ hdamp
  exact Nat.le_trans (adaptFrom_le _ 0) (by omega)

theorem threshold_bounds (k bias : ℕ) : tmin ≤ threshold k bias ∧ threshold k bias ≤ tmax := by
  rw [threshold]
  by_cases hlow : k ≤ bias + tmin
  · rw [if_pos hlow]
    exact ⟨Nat.le_refl _, by decide⟩
  by_cases hhigh : bias + tmax ≤ k
  · rw [if_neg hlow, if_pos hhigh]
    exact ⟨by decide, Nat.le_refl _⟩
  · rw [if_neg hlow, if_neg hhigh]
    omega

theorem insertAll_nil (n i bias : ℕ) (output : List ℕ) :
    insertAll n i bias output [] = some output := by
  rw [insertAll]

theorem insertAll_of_ne_nil (n i bias : ℕ) (output : List ℕ) {input : Str} (h : input ≠ []) :
    insertAll n i bias output input =
      (readInteger bias input i 1 base).bind fun r =>
        let n := n + r.1 / (output.length + 1)
        if limit ≤ n then none
        else
          insertAll n (r.1 % (output.length + 1) + 1)
            (adapt (r.1 - i) (output.length + 1) (i == 0))
            (output.insertIdx (r.1 % (output.length + 1)) n) r.2 := by
  cases input with
  | nil => exact absurd rfl h
  | cons c input =>
    rw [insertAll]
    split
    next hread => rw [hread]; rfl
    next j rest hread => rw [hread]; rfl

/-- Every insertion makes the output longer. -/
theorem length_le_of_insertAll {n i bias : ℕ} {output out : List ℕ} {input : Str}
    (h : insertAll n i bias output input = some out) :
    output.length + (if input = [] then 0 else 1) ≤ out.length := by
  fun_induction insertAll with
  | case1 => cases h; exact Nat.le_refl _
  | case2 | case3 => cases h
  | case4 n i bias output c input j rest hread n' hlimit ih =>
    have hout := ih h
    have hplace : j % (output.length + 1) ≤ output.length :=
      Nat.le_of_lt_succ (Nat.mod_lt _ (Nat.succ_pos _))
    rw [length_insertIdx_of_le_length hplace] at hout
    rw [if_neg (cons_ne_nil c input)]
    omega

/-! ### Only ASCII is decoded -/

theorem digitValue_ascii {c : Char} {d : ℕ} (h : digitValue c = some d) : c.toNat < 0x80 := by
  unfold digitValue at h
  have hle : ∀ {b : Char}, b.toNat < 0x80 → c ≤ b → c.toNat < 0x80 := fun hb hc =>
    Nat.lt_of_le_of_lt hc hb
  split at h
  next hc => exact hle (by decide) hc.2
  next =>
    split at h
    next hc => exact hle (by decide) hc.2
    next =>
      split at h
      next hc => exact hle (by decide) hc.2
      next => cases h

theorem ascii_of_readInteger {bias : ℕ} {s : Str} {i w k j : ℕ} {rest : Str}
    (h : readInteger bias s i w k = some (j, rest)) (hrest : ∀ c ∈ rest, c.toNat < 0x80) :
    ∀ c ∈ s, c.toNat < 0x80 := by
  obtain ⟨-, -, digits, -, rfl, hdigits⟩ := readInteger_spec h
  intro c hc
  rcases mem_append.mp hc with hc | hc
  · obtain ⟨d, hd⟩ := isSome_iff_exists.mp (hdigits c hc)
    exact digitValue_ascii hd
  · exact hrest c hc

theorem ascii_of_insertAll {n i bias : ℕ} {output out : List ℕ} {input : Str}
    (h : insertAll n i bias output input = some out) : ∀ c ∈ input, c.toNat < 0x80 := by
  fun_induction insertAll with
  | case1 => exact forall_mem_nil _
  | case2 | case3 => cases h
  | case4 n i bias output c input j rest hread n' hlimit ih =>
    exact ascii_of_readInteger hread (ih h)

end Punycode
end Text
end TortaCore
