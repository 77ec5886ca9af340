import Mathlib.Algebra.Group.Nat.Defs
import Mathlib.Data.List.Basic

/-!
# Fixed-width integers and byte cursors

Unsigned integers as bytes of a fixed width, in both byte orders, and the
bounds-checked reads that take a prefix off the bytes that are left.

## Main definitions

* `leBytes`, `leNat`, `beBytes`, `beNat`: `to_le_bytes` and its companions.

## Main results

* `leNat_leBytes`, `beNat_beBytes`: writing and reading back, modulo the width.
* `takeBytes_append`, `readBe_append`: a read takes back what was written.
* `beNat_lt`: what a width can hold.
-/

namespace TortaCore
namespace Wire

open List Option

/-- The lowest `w` base-256 digits of `n`, lowest first. -/
def leBytes : ℕ → ℕ → List UInt8
  | 0, _ => []
  | w + 1, n => UInt8.ofNat n :: leBytes w (n / 256)

def leNat : List UInt8 → ℕ
  | [] => 0
  | b :: bs => b.toNat + 256 * leNat bs

def beBytes (w n : ℕ) : List UInt8 := (leBytes w n).reverse

def beNat (bs : List UInt8) : ℕ := leNat bs.reverse

@[simp] theorem length_leBytes (w n : ℕ) : (leBytes w n).length = w := by
  induction w generalizing n with
  | zero => rfl
  | succ w ih => rw [leBytes, length_cons, ih]

@[simp] theorem length_beBytes (w n : ℕ) : (beBytes w n).length = w := by
  rw [beBytes, length_reverse, length_leBytes]

/-- Writing keeps the value modulo what the width holds. -/
theorem leNat_leBytes (w n : ℕ) : leNat (leBytes w n) = n % 256 ^ w := by
  induction w generalizing n with
  | zero => simp [leBytes, leNat, Nat.mod_one]
  | succ w ih =>
    rw [leBytes, leNat, ih, Nat.pow_succ, Nat.mul_comm (256 ^ w), Nat.mod_mul]
    simp

theorem beNat_beBytes (w n : ℕ) : beNat (beBytes w n) = n % 256 ^ w := by
  rw [beNat, beBytes, reverse_reverse, leNat_leBytes]

theorem beNat_beBytes_of_lt {w n : ℕ} (h : n < 256 ^ w) : beNat (beBytes w n) = n := by
  rw [beNat_beBytes, Nat.mod_eq_of_lt h]

theorem leNat_lt : ∀ bs : List UInt8, leNat bs < 256 ^ bs.length := by
  intro bs
  induction bs with
  | nil => exact Nat.one_pos
  | cons b bs ih =>
    have hb := b.toNat_lt
    rw [leNat, length_cons, Nat.pow_succ, Nat.mul_comm (256 ^ bs.length)]
    omega

theorem beNat_lt (bs : List UInt8) : beNat bs < 256 ^ bs.length := by
  have h := leNat_lt bs.reverse
  rwa [length_reverse] at h

theorem leBytes_leNat : ∀ bs : List UInt8, leBytes bs.length (leNat bs) = bs := by
  intro bs
  induction bs with
  | nil => rfl
  | cons b bs ih =>
    have hb := b.toNat_lt
    have hdiv : (b.toNat + 256 * leNat bs) / 256 = leNat bs := by omega
    have hmod : UInt8.ofNat (b.toNat + 256 * leNat bs) = b := by
      apply UInt8.toNat_inj.mp
      rw [UInt8.toNat_ofNat']
      omega
    rw [length_cons, leBytes, leNat, hdiv, hmod, ih]

theorem beBytes_beNat (bs : List UInt8) : beBytes bs.length (beNat bs) = bs := by
  have h := leBytes_leNat bs.reverse
  rw [length_reverse] at h
  rw [beBytes, beNat, h, reverse_reverse]

/-- A property of all bytes is checked value by value. -/
theorem forall_byte {P : UInt8 → Prop} (h : ∀ n < 256, P (UInt8.ofNat n)) (b : UInt8) : P b := by
  have hb := h b.toNat b.toNat_lt
  rwa [UInt8.ofNat_toNat] at hb

/-! ### Reads -/

/-- Take `n` bytes off the front, if that many are left. -/
def takeBytes (n : ℕ) (bs : List UInt8) : Option (List UInt8 × List UInt8) :=
  if bs.length < n then none else some (bs.take n, bs.drop n)

/-- Read a big-endian integer of width `w` off the front. -/
def readBe (w : ℕ) (bs : List UInt8) : Option (ℕ × List UInt8) :=
  (takeBytes w bs).map fun r => (beNat r.1, r.2)

/-- Read a little-endian integer of width `w` off the front. -/
def readLe (w : ℕ) (bs : List UInt8) : Option (ℕ × List UInt8) :=
  (takeBytes w bs).map fun r => (leNat r.1, r.2)

theorem takeBytes_append (a b : List UInt8) : takeBytes a.length (a ++ b) = some (a, b) := by
  rw [takeBytes, if_neg (by simp), take_left, drop_left]

theorem takeBytes_eq_some {n : ℕ} {bs a b : List UInt8} (h : takeBytes n bs = some (a, b)) :
    bs = a ++ b ∧ a.length = n := by
  rw [takeBytes] at h
  split at h
  · cases h
  · next hlen =>
    cases h
    exact ⟨(take_append_drop n bs).symm, length_take_of_le (by omega)⟩

theorem readBe_append (w n : ℕ) (bs : List UInt8) :
    readBe w (beBytes w n ++ bs) = some (n % 256 ^ w, bs) := by
  have h := takeBytes_append (beBytes w n) bs
  rw [length_beBytes] at h
  rw [readBe, h, map_some, beNat_beBytes]

theorem readLe_append (w n : ℕ) (bs : List UInt8) :
    readLe w (leBytes w n ++ bs) = some (n % 256 ^ w, bs) := by
  have h := takeBytes_append (leBytes w n) bs
  rw [length_leBytes] at h
  rw [readLe, h, map_some, leNat_leBytes]

/-! ### Bytes at an offset -/

/-- `bs[p..p + n]`. -/
def bytesAt (bs : List UInt8) (p n : ℕ) : List UInt8 := (bs.drop p).take n

/-- The `n` bytes at `p` of one buffer stand at `q` of the other. -/
def Copied (src : List UInt8) (p : ℕ) (dst : List UInt8) (q n : ℕ) : Prop :=
  ∀ i < n, dst[q + i]? = src[p + i]?

theorem getElem?_bytesAt (bs : List UInt8) (p n i : ℕ) :
    (bytesAt bs p n)[i]? = if i < n then bs[p + i]? else none := by
  rw [bytesAt, getElem?_take, getElem?_drop]

theorem length_bytesAt {bs : List UInt8} {p n : ℕ} (h : p + n ≤ bs.length) :
    (bytesAt bs p n).length = n := by
  rw [bytesAt, length_take, length_drop]
  omega

theorem bytesAt_of_prefix {a bs : List UInt8} {p : ℕ} (h : a <+: bs.drop p) :
    bytesAt bs p a.length = a := (prefix_iff_eq_take.mp h).symm

theorem Copied.bytesAt_eq {src dst : List UInt8} {p q n : ℕ} (h : Copied src p dst q n) :
    bytesAt dst q n = bytesAt src p n := by
  apply ext_getElem?
  intro i
  rw [getElem?_bytesAt, getElem?_bytesAt]
  split
  · next hi => exact h i hi
  · rfl

/-- What stands from an offset on decides what is read there. -/
theorem bytesAt_of_drop_eq {buf buf' : List UInt8} {q p : ℕ} (h : buf.drop q = buf'.drop q)
    (hp : q ≤ p) (n : ℕ) : bytesAt buf p n = bytesAt buf' p n := by
  have hdrop := congrArg (drop (p - q)) h
  rw [drop_drop, drop_drop, Nat.add_sub_cancel' hp] at hdrop
  rw [bytesAt, bytesAt, hdrop]

theorem bytesAt_add (bs : List UInt8) (p m n : ℕ) :
    bytesAt bs p (m + n) = bytesAt bs p m ++ bytesAt bs (p + m) n := by
  rw [bytesAt, bytesAt, bytesAt, take_add, drop_drop]

/-- A run that was written somewhere is copied there. -/
theorem copied_of_prefix {src dst : List UInt8} {p q n : ℕ} (hsrc : p + n ≤ src.length)
    (h : bytesAt src p n <+: dst.drop q) : Copied src p dst q n := by
  intro i hi
  obtain ⟨rest, hrest⟩ := h
  have hin : i < (bytesAt src p n).length := by rwa [length_bytesAt hsrc]
  rw [← getElem?_drop, ← hrest, getElem?_append_left hin, getElem?_bytesAt, if_pos hi]

theorem Copied.sub {src dst : List UInt8} {p q n : ℕ} (h : Copied src p dst q n) {k m : ℕ}
    (hk : k + m ≤ n) : Copied src (p + k) dst (q + k) m := by
  intro i hi
  rw [Nat.add_assoc, Nat.add_assoc]
  exact h (k + i) (by omega)

theorem Copied.within {src dst : List UInt8} {p q n a m : ℕ} (h : Copied src p dst q n)
    (ha : p ≤ a) (hm : a + m ≤ p + n) : Copied src a dst (q + (a - p)) m := by
  have hsub := h.sub (k := a - p) (m := m) (by omega)
  rwa [Nat.add_sub_cancel' ha] at hsub

/-- A copied run that lies inside the source lies inside the target. -/
theorem Copied.le_length {src dst : List UInt8} {p q n : ℕ} (h : Copied src p dst q n)
    (hsrc : p + n ≤ src.length) (hn : 0 < n) : q + n ≤ dst.length := by
  have hlast := h (n - 1) (by omega)
  rw [List.getElem?_eq_getElem (l := src) (by omega)] at hlast
  obtain ⟨hlt, -⟩ := List.getElem?_eq_some_iff.mp hlast
  omega

end Wire
end TortaCore
