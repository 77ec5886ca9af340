import TortaCore.Resolver.Stamp

/-!
# The base64 of the stamps

`base64url_decode` keeps what it has read in a 32-bit buffer that is never cleared.  Four characters
are three bytes, whatever the buffer held before them, so the loop is followed group by group.

## Main definitions

* `symbol`, `base64url`: the unpadded encoding of RFC 4648 with the alphabet for URLs.
-/

namespace TortaCore
namespace Resolver
namespace Stamp

open Text List

/-- The character of a value below 64. -/
def symbol (v : ℕ) : Char :=
  if v < 26 then Char.ofNat (v + 65)
  else if v < 52 then Char.ofNat (v + 71)
  else if v < 62 then Char.ofNat (v - 4)
  else if v = 62 then '-'
  else '_'

def base64url : Bytes → Str
  | [] => []
  | [a] => [symbol (a.toNat / 4), symbol (a.toNat % 4 * 16)]
  | [a, b] =>
    [symbol (a.toNat / 4), symbol (a.toNat % 4 * 16 + b.toNat / 16), symbol (b.toNat % 16 * 4)]
  | a :: b :: c :: rest =>
    symbol (a.toNat / 4) :: symbol (a.toNat % 4 * 16 + b.toNat / 16) ::
      symbol (b.toNat % 16 * 4 + c.toNat / 64) :: symbol (c.toNat % 64) :: base64url rest

theorem sextet_symbol : ∀ v < 64, sextet (symbol v) = some v := by decide

theorem sextet_eq_some_iff {c : Char} {v : ℕ} : sextet c = some v ↔ v < 64 ∧ symbol v = c := by
  refine ⟨fun h => ?_, fun ⟨hv, hc⟩ => hc ▸ sextet_symbol v hv⟩
  have hascii : c.toNat < 128 := by
    revert h
    fun_cases sextet with
    | case1 hrange | case2 _ hrange | case3 _ _ hrange =>
      exact fun _ => Nat.lt_of_le_of_lt (UInt32.le_iff_toNat_le.mp hrange.2) (by decide)
    | case4 _ _ _ hc | case5 _ _ _ _ hc => exact fun _ => hc ▸ by decide
    | case6 => exact fun h => by cases h
  have hall : ∀ n < 128, ∀ v ∈ sextet (Char.ofNat n), v < 64 ∧ symbol v = Char.ofNat n := by
    decide
  have hc := hall c.toNat hascii v
  rw [Char.ofNat_toNat] at hc
  exact hc h

/-! ### The loop -/

theorem ofNat_eq {n : ℕ} {a : UInt8} (h : n % 256 = a.toNat) : UInt8.ofNat n = a :=
  UInt8.toNat_inj.mp (by rw [UInt8.toNat_ofNat', h])

theorem base64urlFrom_base64url (b : Bytes) (buf : ℕ) :
    base64urlFrom buf 0 (base64url b) = some b := by
  fun_induction base64url b generalizing buf with
  | case1 => simp [base64urlFrom, Nat.mod_one]
  | case2 a =>
    have ha := a.toNat_lt
    simp (disch := omega) [base64urlFrom, sextet_symbol]
    exact ⟨by omega, ofNat_eq (by omega)⟩
  | case3 a b =>
    have ha := a.toNat_lt
    have hb := b.toNat_lt
    simp (disch := omega) [base64urlFrom, sextet_symbol]
    exact ⟨by omega, ofNat_eq (by omega), ofNat_eq (by omega)⟩
  | case4 a b c rest ih =>
    have ha := a.toNat_lt
    have hb := b.toNat_lt
    have hc := c.toNat_lt
    simp (disch := omega) [base64urlFrom, sextet_symbol, ih]
    exact ⟨ofNat_eq (by omega), ofNat_eq (by omega), ofNat_eq (by omega)⟩

/-- The converse, four characters at a time; the values are read back from the bytes. -/
theorem eq_base64url : ∀ {s : Str} {buf : ℕ} {b : Bytes},
    base64urlFrom buf 0 s = some b → s = base64url b
  | [], _, _, h => by
    obtain rfl : _ = [] := by simpa [base64urlFrom, Nat.mod_one] using h
    rfl
  | [c], _, _, h => by simp [base64urlFrom] at h
  | [c₁, c₂], _, _, h => by
    simp [base64urlFrom, Option.bind_eq_some_iff, sextet_eq_some_iff] at h
    obtain ⟨v₁, ⟨hlt₁, rfl⟩, v₂, ⟨hlt₂, rfl⟩, hleft, rfl⟩ := h
    simp only [base64url, UInt8.toNat_ofNat']
    congr! <;> omega
  | [c₁, c₂, c₃], _, _, h => by
    simp [base64urlFrom, Option.bind_eq_some_iff, sextet_eq_some_iff] at h
    obtain ⟨v₁, ⟨hlt₁, rfl⟩, v₂, ⟨hlt₂, rfl⟩, v₃, ⟨hlt₃, rfl⟩, hleft, rfl⟩ := h
    simp only [base64url, UInt8.toNat_ofNat']
    congr! <;> omega
  | c₁ :: c₂ :: c₃ :: c₄ :: s, _, _, h => by
    simp [base64urlFrom, Option.bind_eq_some_iff, sextet_eq_some_iff] at h
    obtain ⟨v₁, ⟨hlt₁, rfl⟩, v₂, ⟨hlt₂, rfl⟩, v₃, ⟨hlt₃, rfl⟩, v₄, ⟨hlt₄, rfl⟩, b, hrest, rfl⟩ := h
    rw [eq_base64url hrest]
    simp only [base64url, UInt8.toNat_ofNat']
    congr! <;> omega

theorem symbol_ne_pad (v : ℕ) : symbol v ≠ '=' := by
  by_cases hv : v < 64
  · exact (by decide : ∀ v < 64, symbol v ≠ '=') v hv
  · rw [symbol, if_neg (by omega), if_neg (by omega), if_neg (by omega), if_neg (by omega)]
    decide

theorem pad_notMem_base64url (b : Bytes) : '=' ∉ base64url b := by
  fun_induction base64url b with
  | case1 => exact not_mem_nil
  | case2 | case3 => simp [(symbol_ne_pad _).symm]
  | case4 a b c rest ih => simp [(symbol_ne_pad _).symm, ih]

/-- The decoder gives back what was encoded, and accepts, up to padding, nothing else; so no two
unpadded texts are decoded to the same bytes. -/
theorem base64url_decode_exact :
    (∀ b, base64urlDecode (base64url b) = some b) ∧
    (∀ s b, base64urlDecode s = some b → trimEndMatches '=' s = base64url b) ∧
    ∀ s t b, trimEndMatches '=' s = s → trimEndMatches '=' t = t →
      base64urlDecode s = some b → base64urlDecode t = some b → s = t := by
  refine ⟨fun b => ?_, fun s b h => eq_base64url h, fun s t b hs ht hsb htb => ?_⟩
  · have htrim : trimEndMatches '=' (base64url b) = base64url b :=
      rdropWhile_eq_self_iff.mpr fun hne hlast =>
        pad_notMem_base64url b (beq_iff_eq.mp hlast ▸ getLast_mem hne)
    rw [base64urlDecode, htrim, base64urlFrom_base64url]
  · rw [← hs, ← ht, eq_base64url hsb, eq_base64url htb]

end Stamp
end Resolver
end TortaCore
