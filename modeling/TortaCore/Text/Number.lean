import TortaCore.Text.Unicode
import Mathlib.Data.Int.Notation

/-!
# Numbers in text

Digits in a radix, and the unsigned parsers of the standard library: an optional
plus sign, at least one digit, nothing else, and a value that fits.

## Main definitions

* `toDigit`, `digitsValue`: `char::to_digit` and the value of a run of digits.

## Main results

* `parseUnsigned_decimal`, `parseSigned_decimalInt`: a number that fits is read back as it was
  printed.
-/

namespace TortaCore
namespace Text

open List

/-- `char::to_digit`. -/
def toDigit (radix : ℕ) (c : Char) : Option ℕ :=
  let v := c.toNat
  let d :=
    if 0x30 ≤ v ∧ v ≤ 0x39 then v - 0x30
    else if 0x61 ≤ v ∧ v ≤ 0x7A then v - 0x61 + 10
    else if 0x41 ≤ v ∧ v ≤ 0x5A then v - 0x41 + 10
    else radix
  if d < radix then some d else none

def digitsValue (radix : ℕ) (ds : Str) : ℕ :=
  ds.foldl (fun n c => n * radix + (toDigit radix c).getD 0) 0

/-- `from_str_radix` for an unsigned type whose largest value is `bound`. -/
def parseUnsigned (radix bound : ℕ) (s : Str) : Option ℕ :=
  let digits := match s with
    | '+' :: rest => rest
    | _ => s
  if digits.isEmpty || !(digits.all fun c => (toDigit radix c).isSome) then none
  else if digitsValue radix digits ≤ bound then some (digitsValue radix digits)
  else none

/-- `str::parse` for a signed type with the values from `low` to `high`. -/
def parseSigned (low high : ℤ) (s : Str) : Option ℤ :=
  let negative := s.head? = some '-'
  let digits := if negative ∨ s.head? = some '+' then s.tail else s
  if digits.isEmpty || !(digits.all fun c => (toDigit 10 c).isSome) then none
  else
    let value : ℤ := if negative then -(digitsValue 10 digits : ℤ) else digitsValue 10 digits
    if low ≤ value ∧ value ≤ high then some value else none

/-- `u64::MAX`. -/
def u64Max : ℕ := 18446744073709551615

/-- `saturating_add` of 64-bit numbers. -/
def saturatingAdd (a b : ℕ) : ℕ := min (a + b) u64Max

/-! ### Printed numbers -/

/-- `to_string` of an unsigned number. -/
def decimal (n : ℕ) : Str := Nat.toDigits 10 n

/-- `to_string` of a signed number. -/
def decimalInt (z : ℤ) : Str := if z < 0 then '-' :: decimal z.natAbs else decimal z.natAbs

theorem toDigit_digitChar : ∀ {d : ℕ}, d < 10 → toDigit 10 d.digitChar = some d := by
  decide

variable {n : ℕ} {c : Char}

theorem decimal_of_lt (h : n < 10) : decimal n = [n.digitChar] :=
  Nat.toDigits_of_lt_base h

theorem decimal_of_le (h : 10 ≤ n) : decimal n = decimal (n / 10) ++ [(n % 10).digitChar] :=
  Nat.toDigits_of_base_le (by decide) h

theorem digitsValue_append (radix : ℕ) (ds : Str) (c : Char) :
    digitsValue radix (ds ++ [c]) = digitsValue radix ds * radix + (toDigit radix c).getD 0 := by
  rw [digitsValue, foldl_append]
  rfl

theorem digitsValue_decimal (n : ℕ) : digitsValue 10 (decimal n) = n := by
  induction n using Nat.strongRecOn with
  | ind n ih =>
    have hdigit := toDigit_digitChar (Nat.mod_lt n (by decide : 0 < 10))
    rcases Nat.lt_or_ge n 10 with h | h
    · rw [Nat.mod_eq_of_lt h] at hdigit
      simp [decimal_of_lt h, digitsValue, hdigit]
    · rw [decimal_of_le h, digitsValue_append, ih (n / 10) (by omega), hdigit, Option.getD_some]
      omega

theorem exists_digit_of_mem_decimal (h : c ∈ decimal n) : ∃ d < 10, c = d.digitChar := by
  induction n using Nat.strongRecOn with
  | ind n ih =>
    rcases Nat.lt_or_ge n 10 with hn | hn
    · rw [decimal_of_lt hn, mem_singleton] at h
      exact ⟨n, hn, h⟩
    · rw [decimal_of_le hn, mem_append, mem_singleton] at h
      rcases h with h | h
      · exact ih (n / 10) (by omega) h
      · exact ⟨n % 10, Nat.mod_lt n (by decide), h⟩

theorem toDigit_of_mem_decimal (h : c ∈ decimal n) : (toDigit 10 c).isSome = true := by
  obtain ⟨d, hd, rfl⟩ := exists_digit_of_mem_decimal h
  rw [toDigit_digitChar hd]
  rfl

theorem isWhitespace_of_mem_decimal (h : c ∈ decimal n) : isWhitespace c = false := by
  obtain ⟨d, hd, rfl⟩ := exists_digit_of_mem_decimal h
  exact (by decide : ∀ d < 10, isWhitespace d.digitChar = false) d hd

theorem decimal_ne_nil (n : ℕ) : decimal n ≠ [] := by
  rcases Nat.lt_or_ge n 10 with h | h
  · simp [decimal_of_lt h]
  · simp [decimal_of_le h]

theorem notMem_decimal (hc : toDigit 10 c = none) (n : ℕ) : c ∉ decimal n := by
  intro h
  have := toDigit_of_mem_decimal h
  simp [hc] at this

theorem all_toDigit_decimal (n : ℕ) :
    (decimal n).all (fun c => (toDigit 10 c).isSome) = true :=
  all_eq_true.mpr fun _ hc => toDigit_of_mem_decimal hc

theorem parseUnsigned_decimal_eq (n bound : ℕ) :
    parseUnsigned 10 bound (decimal n) = if n ≤ bound then some n else none := by
  have hall := all_toDigit_decimal n
  unfold parseUnsigned
  split
  · next rest hd =>
    exact absurd (hd ▸ mem_cons_self) (notMem_decimal (c := '+') (by decide) n)
  · simp [hall, decimal_ne_nil, digitsValue_decimal]

theorem parseUnsigned_decimal {bound : ℕ} (h : n ≤ bound) :
    parseUnsigned 10 bound (decimal n) = some n := by
  rw [parseUnsigned_decimal_eq, if_pos h]

theorem head?_decimal (hc : toDigit 10 c = none) (n : ℕ) : (decimal n).head? ≠ some c :=
  fun h => notMem_decimal hc n (mem_of_mem_head? h)

theorem parseSigned_decimalInt {low high z : ℤ} (hlow : low ≤ z) (hhigh : z ≤ high) :
    parseSigned low high (decimalInt z) = some z := by
  rw [parseSigned, decimalInt]
  generalize hn : z.natAbs = n
  have hdigits := all_toDigit_decimal n
  have hne := decimal_ne_nil n
  by_cases hz : z < 0
  · have hvalue : -(n : ℤ) = z := by omega
    simp [hz, hdigits, hne, digitsValue_decimal, hvalue, hlow, hhigh]
  · have hvalue : (n : ℤ) = z := by omega
    have hminus := head?_decimal (c := '-') (by decide) n
    have hplus := head?_decimal (c := '+') (by decide) n
    simp [hz, hdigits, hne, digitsValue_decimal, hvalue, hlow, hhigh, hminus, hplus]

theorem notMem_decimalInt (hc : toDigit 10 c = none) (hminus : c ≠ '-') (z : ℤ) :
    c ∉ decimalInt z := by
  rw [decimalInt]
  split
  · rw [mem_cons, not_or]
    exact ⟨hminus, notMem_decimal hc _⟩
  · exact notMem_decimal hc _

theorem parseUnsigned_decimal_of_lt {bound : ℕ} (h : bound < n) :
    parseUnsigned 10 bound (decimal n) = none := by
  rw [parseUnsigned_decimal_eq, if_neg (Nat.not_le.mpr h)]

end Text
end TortaCore
