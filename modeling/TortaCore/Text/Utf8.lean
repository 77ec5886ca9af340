import Mathlib.Data.List.Forall2
import TortaCore.Text.Casing

/-!
# UTF-8

Encoding, strict decoding and lossy decoding of byte strings.  Both decoders take
one step at a time: `utf8Step` reads the character a byte starts, or reports the
maximal ill-formed prefix, which the lossy decoder replaces by one `U+FFFD`.

## Main results

* `fromUtf8_utf8`, `fromUtf8Lossy_utf8` — decoding an encoded string gives it back.
* `forall₂_asciiLower_of_toLowercase_eq` — two byte strings that differ in ASCII
  bytes only, and whose lossy decodings agree in lowercase, agree up to ASCII
  letter case.
-/

namespace TortaCore
namespace Text

open List Option

/-- A byte string. -/
abbrev Bytes := List UInt8

/-- The UTF-8 encoding of a string. -/
def utf8 (s : Str) : Bytes := s.flatMap String.utf8EncodeChar

@[simp] theorem utf8_nil : utf8 [] = [] := rfl

@[simp] theorem utf8_cons (c : Char) (s : Str) :
    utf8 (c :: s) = String.utf8EncodeChar c ++ utf8 s := rfl

theorem utf8_append (s t : Str) : utf8 (s ++ t) = utf8 s ++ utf8 t := flatMap_append

/-! ### One decoding step -/

/-- Take the next byte if it passes the test. -/
def nextIf (ok : ℕ → Bool) : Bytes → Option (UInt8 × Bytes)
  | [] => none
  | b :: bs => if ok b.toNat then some (b, bs) else none

/-- A continuation byte. -/
def isCont (v : ℕ) : Bool := 0x80 ≤ v && v ≤ 0xBF

/-- The bytes that may follow the first byte `v` of a three-byte character. -/
def second3 (v w : ℕ) : Bool :=
  if v = 0xE0 then 0xA0 ≤ w && w ≤ 0xBF
  else if v = 0xED then 0x80 ≤ w && w ≤ 0x9F
  else isCont w

/-- The bytes that may follow the first byte `v` of a four-byte character. -/
def second4 (v w : ℕ) : Bool :=
  if v = 0xF0 then 0x90 ≤ w && w ≤ 0xBF
  else if v = 0xF4 then 0x80 ≤ w && w ≤ 0x8F
  else isCont w

/-- The character that starts with `b`, or `none` where the bytes are ill formed,
and what is left: after an ill-formed prefix, the first byte that does not extend
it. -/
def utf8Step (b : UInt8) (bs : Bytes) : Option Char × Bytes :=
  let v := b.toNat
  if v < 0x80 then (some (Char.ofNat v), bs)
  else if 0xC2 ≤ v ∧ v ≤ 0xDF then
    match nextIf isCont bs with
    | none => (none, bs)
    | some (c, bs₁) => (some (Char.ofNat ((v - 0xC0) * 64 + (c.toNat - 0x80))), bs₁)
  else if 0xE0 ≤ v ∧ v ≤ 0xEF then
    match nextIf (second3 v) bs with
    | none => (none, bs)
    | some (c, bs₁) =>
      match nextIf isCont bs₁ with
      | none => (none, bs₁)
      | some (d, bs₂) =>
        (some (Char.ofNat
          ((v - 0xE0) * 4096 + (c.toNat - 0x80) * 64 + (d.toNat - 0x80))), bs₂)
  else if 0xF0 ≤ v ∧ v ≤ 0xF4 then
    match nextIf (second4 v) bs with
    | none => (none, bs)
    | some (c, bs₁) =>
      match nextIf isCont bs₁ with
      | none => (none, bs₁)
      | some (d, bs₂) =>
        match nextIf isCont bs₂ with
        | none => (none, bs₂)
        | some (e, bs₃) =>
          (some (Char.ofNat ((v - 0xF0) * 262144 + (c.toNat - 0x80) * 4096 +
            (d.toNat - 0x80) * 64 + (e.toNat - 0x80))), bs₃)
  else (none, bs)

variable {b : UInt8} {bs bs' : Bytes} {ok : ℕ → Bool} {c : Char}

theorem nextIf_length (h : nextIf ok bs = some (b, bs')) : bs = b :: bs' ∧ ok b.toNat = true := by
  cases bs with
  | nil => simp [nextIf] at h
  | cons c bs =>
    rw [nextIf] at h
    split at h
    · next hok =>
      obtain ⟨rfl, rfl⟩ := h
      exact ⟨rfl, hok⟩
    · simp at h

/-- Equal, or both ASCII. -/
def SameOutsideAscii (a b : UInt8) : Prop := a = b ∨ (a.toNat < 0x80 ∧ b.toNat < 0x80)

theorem nextIf_cons (bs : Bytes) (h : ok b.toNat = true) :
    nextIf ok (b :: bs) = some (b, bs) := by
  rw [nextIf, if_pos h]

/-- A test that only bytes outside ASCII pass treats two byte strings alike. -/
theorem nextIf_sameOutsideAscii (hok : ∀ v < 0x80, ok v = false) {bs cs : Bytes}
    (h : List.Forall₂ SameOutsideAscii bs cs) :
    (nextIf ok bs = none ∧ nextIf ok cs = none) ∨
      ∃ b bs' cs', bs = b :: bs' ∧ cs = b :: cs' ∧ nextIf ok bs = some (b, bs') ∧
        nextIf ok cs = some (b, cs') ∧ List.Forall₂ SameOutsideAscii bs' cs' := by
  cases h with
  | nil => exact Or.inl ⟨rfl, rfl⟩
  | @cons b c bs cs hbc h =>
    rcases hbc with rfl | ⟨hb, hc⟩
    · cases hk : ok b.toNat with
      | true => exact Or.inr ⟨b, bs, cs, rfl, rfl, nextIf_cons _ hk, nextIf_cons _ hk, h⟩
      | false => exact Or.inl ⟨by simp [nextIf, hk], by simp [nextIf, hk]⟩
    · exact Or.inl ⟨by simp [nextIf, hok _ hb], by simp [nextIf, hok _ hc]⟩

theorem isCont_ascii (v : ℕ) (h : v < 0x80) : isCont v = false := by
  simp [isCont]; omega

/-- The common shape of `second3` and `second4`: all continuation bytes, but for two first bytes. -/
theorem second_iff {a z lo hi v w : ℕ} (h : 0x80 ≤ lo ∧ hi ≤ 0xBF ∧ a ≠ z) :
    (if v = a then lo ≤ w && w ≤ 0xBF else if v = z then 0x80 ≤ w && w ≤ hi else isCont w) = true ↔
      (v = a → lo ≤ w) ∧ (v = z → w ≤ hi) ∧ 0x80 ≤ w ∧ w ≤ 0xBF := by
  unfold isCont
  split <;> try split
  all_goals simp only [Bool.and_eq_true, decide_eq_true_eq]; omega

theorem second3_iff (v w : ℕ) : second3 v w = true ↔
    (v = 0xE0 → 0xA0 ≤ w) ∧ (v = 0xED → w ≤ 0x9F) ∧ 0x80 ≤ w ∧ w ≤ 0xBF :=
  second_iff (by decide)

theorem second4_iff (v w : ℕ) : second4 v w = true ↔
    (v = 0xF0 → 0x90 ≤ w) ∧ (v = 0xF4 → w ≤ 0x8F) ∧ 0x80 ≤ w ∧ w ≤ 0xBF :=
  second_iff (by decide)

theorem second3_ascii (v w : ℕ) (h : w < 0x80) : second3 v w = false := by
  rw [Bool.eq_false_iff, ne_eq, second3_iff]
  omega

theorem second4_ascii (v w : ℕ) (h : w < 0x80) : second4 v w = false := by
  rw [Bool.eq_false_iff, ne_eq, second4_iff]
  omega

/-- A scan takes the same bytes from two strings that differ in ASCII only, with the same result. -/
def Synchronous (scan : Bytes → Option Char × Bytes) : Prop :=
  ∀ bs cs, List.Forall₂ SameOutsideAscii bs cs → ∃ pre bs' cs' r, bs = pre ++ bs' ∧
    cs = pre ++ cs' ∧ scan bs = (r, bs') ∧ scan cs = (r, cs') ∧
    List.Forall₂ SameOutsideAscii bs' cs'

theorem Synchronous.stop (r : Option Char) : Synchronous fun bs => (r, bs) :=
  fun bs cs h => ⟨[], bs, cs, r, rfl, rfl, rfl, rfl, h⟩

theorem Synchronous.next {scan : UInt8 → Bytes → Option Char × Bytes}
    (hok : ∀ v < 0x80, ok v = false) (hscan : ∀ c, Synchronous (scan c)) :
    Synchronous fun bs =>
      match nextIf ok bs with
      | none => (none, bs)
      | some (c, bs₁) => scan c bs₁ := by
  intro bs cs h
  dsimp only
  rcases nextIf_sameOutsideAscii hok h with ⟨h1, h2⟩ | ⟨c, bs₁, cs₁, rfl, rfl, h1, h2, h₁⟩
  · exact ⟨[], bs, cs, none, rfl, rfl, by rw [h1], by rw [h2], h⟩
  · obtain ⟨pre, bs', cs', r, rfl, rfl, hb, hc, h'⟩ := hscan c _ _ h₁
    exact ⟨c :: pre, bs', cs', r, rfl, rfl, by rw [h1]; exact hb, by rw [h2]; exact hc, h'⟩

/-- From a byte outside ASCII: at every width a continuation byte is outside ASCII, so both strings
have it or neither has. -/
theorem synchronous_utf8Step (hb : 0x80 ≤ b.toNat) : Synchronous (utf8Step b) := by
  have h0 : ¬ b.toNat < 0x80 := by omega
  unfold utf8Step
  simp only [if_neg h0]
  by_cases hw2 : 0xC2 ≤ b.toNat ∧ b.toNat ≤ 0xDF
  · simp only [if_pos hw2]
    exact .next isCont_ascii fun c => .stop _
  by_cases hw3 : 0xE0 ≤ b.toNat ∧ b.toNat ≤ 0xEF
  · simp only [if_neg hw2, if_pos hw3]
    exact .next (second3_ascii b.toNat) fun c => .next isCont_ascii fun d => .stop _
  by_cases hw4 : 0xF0 ≤ b.toNat ∧ b.toNat ≤ 0xF4
  · simp only [if_neg hw2, if_neg hw3, if_pos hw4]
    exact .next (second4_ascii b.toNat) fun c => .next isCont_ascii fun d =>
      .next isCont_ascii fun e => .stop _
  · simp only [if_neg hw2, if_neg hw3, if_neg hw4]
    exact .stop none

theorem length_utf8Step_le (b : UInt8) (bs : Bytes) : (utf8Step b bs).2.length ≤ bs.length := by
  by_cases hb : b.toNat < 0x80
  · simp [utf8Step, hb]
  · obtain ⟨pre, bs', -, r, hbs, -, hstep, -⟩ :=
      synchronous_utf8Step (Nat.le_of_not_lt hb) _ _ (forall₂_same.mpr fun _ _ => .inl rfl)
    rw [hstep, hbs, length_append]
    exact Nat.le_add_left _ _

/-! ### The decoders -/

/-- Decode, replacing every ill-formed prefix; the first argument bounds the number
of steps. -/
def lossyFrom : ℕ → Bytes → Str
  | 0, _ => []
  | _ + 1, [] => []
  | n + 1, b :: bs => (utf8Step b bs).1.getD '�' :: lossyFrom n (utf8Step b bs).2

/-- `String::from_utf8_lossy`. -/
def fromUtf8Lossy (bs : Bytes) : Str := lossyFrom bs.length bs

/-- Decode, refusing ill-formed bytes; the first argument bounds the number of
steps. -/
def strictFrom : ℕ → Bytes → Option Str
  | _, [] => some []
  | 0, _ :: _ => none
  | n + 1, b :: bs =>
    match utf8Step b bs with
    | (none, _) => none
    | (some c, bs') => (strictFrom n bs').map (c :: ·)

/-- `std::str::from_utf8`. -/
def fromUtf8 (bs : Bytes) : Option Str := strictFrom bs.length bs

theorem lossyFrom_eq {n m : ℕ} {bs : Bytes} (hn : bs.length ≤ n) (hm : bs.length ≤ m) :
    lossyFrom n bs = lossyFrom m bs := by
  induction n generalizing m bs with
  | zero =>
    have : bs = [] := length_eq_zero_iff.mp (by omega)
    subst this
    cases m <;> rfl
  | succ n ih =>
    cases bs with
    | nil => cases m <;> rfl
    | cons b bs =>
      rw [length_cons] at hn hm
      have hle := length_utf8Step_le b bs
      match m with
      | m + 1 =>
        rw [lossyFrom, lossyFrom, ih (m := m) (by omega) (by omega)]

theorem fromUtf8Lossy_nil : fromUtf8Lossy [] = [] := rfl

theorem fromUtf8Lossy_cons (b : UInt8) (bs : Bytes) :
    fromUtf8Lossy (b :: bs) =
      (utf8Step b bs).1.getD '�' :: fromUtf8Lossy (utf8Step b bs).2 := by
  have hle := length_utf8Step_le b bs
  rw [fromUtf8Lossy, length_cons, lossyFrom, fromUtf8Lossy,
    lossyFrom_eq (m := (utf8Step b bs).2.length) hle (Nat.le_refl _)]

/-! ### Round trips -/

theorem isCont_encoded (w : ℕ) : isCont (w % 64 + 0x80) = true := by
  simp only [isCont, Bool.and_eq_true, decide_eq_true_eq]
  omega

/-- The second byte of three: the bounds after E0 and ED are those that leave out the
overlong encodings and the surrogates. -/
theorem second3_encoded {v : ℕ} (hlow : 0x7FF < v) (hhigh : v ≤ 0xFFFF)
    (hval : v < 0xD800 ∨ 0xDFFF < v) :
    second3 (v / 4096 % 16 + 0xE0) (v / 64 % 64 + 0x80) = true := by
  rw [second3_iff]
  omega

/-- The second byte of four: the bounds after F0 and F4 are those of the planes above the
first. -/
theorem second4_encoded {v : ℕ} (hlow : 0xFFFF < v) (hhigh : v < 0x110000) :
    second4 (v / 262144 % 8 + 0xF0) (v / 4096 % 64 + 0x80) = true := by
  rw [second4_iff]
  omega

/-- A step on an encoded character reads the character.  The four cases are the four
lengths of an encoding. -/
theorem utf8Step_utf8EncodeChar (c : Char) (bs : Bytes) :
    ∃ b cs, String.utf8EncodeChar c = b :: cs ∧ utf8Step b (cs ++ bs) = (some c, bs) := by
  have hval : c.val.toNat < 0xD800 ∨ 0xDFFF < c.val.toNat ∧ c.val.toNat < 0x110000 := c.valid
  have hc : Char.ofNat c.val.toNat = c := Char.ofNat_toNat c
  have hbyte : ∀ n, n < 256 → (UInt8.ofNat n).toNat = n := by
    intro n hn
    simpa using hn
  unfold String.utf8EncodeChar
  dsimp only
  generalize hv : c.val.toNat = v at *
  split
  · refine ⟨_, _, rfl, ?_⟩
    rw [utf8Step, hbyte v (by omega), if_pos (by omega), hc]
    rfl
  split
  · refine ⟨_, _, rfl, ?_⟩
    have h1 := hbyte (v / 64 % 32 + 0xC0) (by omega)
    have h2 := hbyte (v % 64 + 0x80) (by omega)
    rw [utf8Step, h1, if_neg (by omega), if_pos (by omega), singleton_append,
      nextIf_cons _ (by rw [h2]; exact isCont_encoded v)]
    dsimp only
    rw [h2]
    have : (v / 64 % 32 + 0xC0 - 0xC0) * 64 + (v % 64 + 0x80 - 0x80) = v := by omega
    rw [this, hc]
  split
  · refine ⟨_, _, rfl, ?_⟩
    have h1 := hbyte (v / 4096 % 16 + 0xE0) (by omega)
    have h2 := hbyte (v / 64 % 64 + 0x80) (by omega)
    have h3 := hbyte (v % 64 + 0x80) (by omega)
    have hs := second3_encoded (show 0x7FF < v by omega) (by omega) (by omega)
    rw [utf8Step, h1, if_neg (by omega), if_neg (by omega), if_pos (by omega), cons_append,
      nextIf_cons _ (by rw [h2]; exact hs)]
    dsimp only
    rw [singleton_append, nextIf_cons _ (by rw [h3]; exact isCont_encoded v)]
    dsimp only
    rw [h2, h3]
    have : (v / 4096 % 16 + 0xE0 - 0xE0) * 4096 + (v / 64 % 64 + 0x80 - 0x80) * 64 +
        (v % 64 + 0x80 - 0x80) = v := by omega
    rw [this, hc]
  · refine ⟨_, _, rfl, ?_⟩
    have h1 := hbyte (v / 262144 % 8 + 0xF0) (by omega)
    have h2 := hbyte (v / 4096 % 64 + 0x80) (by omega)
    have h3 := hbyte (v / 64 % 64 + 0x80) (by omega)
    have h4 := hbyte (v % 64 + 0x80) (by omega)
    have hs := second4_encoded (show 0xFFFF < v by omega) (by omega)
    rw [utf8Step, h1, if_neg (by omega), if_neg (by omega), if_neg (by omega),
      if_pos (by omega), cons_append, nextIf_cons _ (by rw [h2]; exact hs)]
    dsimp only
    rw [cons_append, nextIf_cons _ (by rw [h3]; exact isCont_encoded _)]
    dsimp only
    rw [singleton_append, nextIf_cons _ (by rw [h4]; exact isCont_encoded v)]
    dsimp only
    rw [h2, h3, h4]
    have : (v / 262144 % 8 + 0xF0 - 0xF0) * 262144 + (v / 4096 % 64 + 0x80 - 0x80) * 4096 +
        (v / 64 % 64 + 0x80 - 0x80) * 64 + (v % 64 + 0x80 - 0x80) = v := by omega
    rw [this, hc]

theorem fromUtf8Lossy_utf8_append (s : Str) (bs : Bytes) :
    fromUtf8Lossy (utf8 s ++ bs) = s ++ fromUtf8Lossy bs := by
  induction s with
  | nil => rfl
  | cons c s ih =>
    obtain ⟨b, cs, he, hstep⟩ := utf8Step_utf8EncodeChar c (utf8 s ++ bs)
    rw [utf8_cons, he, append_assoc, cons_append, fromUtf8Lossy_cons, hstep, ih]
    rfl

theorem fromUtf8Lossy_utf8 (s : Str) : fromUtf8Lossy (utf8 s) = s := by
  have h := fromUtf8Lossy_utf8_append s []
  rwa [append_nil, fromUtf8Lossy_nil, append_nil] at h

theorem strictFrom_utf8 (s : Str) (n : ℕ) (hn : (utf8 s).length ≤ n) :
    strictFrom n (utf8 s) = some s := by
  induction s generalizing n with
  | nil => cases n <;> rfl
  | cons c s ih =>
    obtain ⟨b, cs, he, hstep⟩ := utf8Step_utf8EncodeChar c (utf8 s)
    rw [utf8_cons, he, cons_append] at hn ⊢
    rw [length_cons, length_append] at hn
    match n with
    | n + 1 =>
      rw [strictFrom, hstep]
      dsimp only
      rw [ih n (by omega)]
      rfl

theorem fromUtf8_utf8 (s : Str) : fromUtf8 (utf8 s) = some s := strictFrom_utf8 s _ (Nat.le_refl _)

theorem nextIf_isCont (h : nextIf isCont bs = some (b, bs')) :
    bs = b :: bs' ∧ 0x80 ≤ b.toNat ∧ b.toNat ≤ 0xBF := by
  obtain ⟨hbs, hok⟩ := nextIf_length h
  simp only [isCont, Bool.and_eq_true, decide_eq_true_eq] at hok
  exact ⟨hbs, hok⟩

/-- The bytes of a character of which only the number is known. -/
theorem utf8EncodeChar_ofNat {n : ℕ} (h : n.isValidChar) :
    String.utf8EncodeChar (Char.ofNat n) =
      if n ≤ 0x7F then [UInt8.ofNat n]
      else if n ≤ 0x7FF then [UInt8.ofNat (n / 64 % 32 + 0xC0), UInt8.ofNat (n % 64 + 0x80)]
      else if n ≤ 0xFFFF then
        [UInt8.ofNat (n / 4096 % 16 + 0xE0), UInt8.ofNat (n / 64 % 64 + 0x80),
          UInt8.ofNat (n % 64 + 0x80)]
      else
        [UInt8.ofNat (n / 262144 % 8 + 0xF0), UInt8.ofNat (n / 4096 % 64 + 0x80),
          UInt8.ofNat (n / 64 % 64 + 0x80), UInt8.ofNat (n % 64 + 0x80)] := by
  have hn : (Char.ofNat n).val.toNat = n := toNat_ofNat_of_valid h
  rw [String.utf8EncodeChar, hn]

theorem utf8EncodeChar_of_utf8Step
    (h : utf8Step b bs = (some c, bs')) : b :: bs = String.utf8EncodeChar c ++ bs' := by
  have hbyte : ∀ {x : UInt8} {n : ℕ}, n = x.toNat → UInt8.ofNat n = x := by
    rintro x n rfl
    exact UInt8.ofNat_toNat
  revert h
  fun_cases utf8Step with
  | case1 =>
    rintro ⟨rfl, rfl⟩
    rw [utf8EncodeChar_ofNat (Or.inl (by omega)), if_pos (by omega), hbyte rfl]
    rfl
  | case3 v _ _ x xs hx =>
    rw [Prod.mk.injEq, some.injEq]
    rintro ⟨rfl, rfl⟩
    obtain ⟨rfl, hlo, hhi⟩ := nextIf_isCont hx
    rw [utf8EncodeChar_ofNat (Or.inl (by omega)), if_neg (by omega), if_pos (by omega),
      hbyte (x := b) (by omega), hbyte (x := x) (by omega)]
    rfl
  | case6 v _ _ _ x xs hx y ys hy =>
    rw [Prod.mk.injEq, some.injEq]
    rintro ⟨rfl, rfl⟩
    obtain ⟨rfl, hylo, hyhi⟩ := nextIf_isCont hy
    obtain ⟨rfl, hsecond⟩ := nextIf_length hx
    rw [second3_iff] at hsecond
    have hv : Nat.isValidChar ((b.toNat - 0xE0) * 4096 + (x.toNat - 0x80) * 64 +
        (y.toNat - 0x80)) := by
      omega
    rw [utf8EncodeChar_ofNat hv, if_neg (by omega), if_neg (by omega), if_pos (by omega),
      hbyte (x := b) (by omega), hbyte (x := x) (by omega), hbyte (x := y) (by omega)]
    rfl
  | case10 v _ _ _ _ x xs hx y ys hy z zs hz =>
    rw [Prod.mk.injEq, some.injEq]
    rintro ⟨rfl, rfl⟩
    obtain ⟨rfl, hzlo, hzhi⟩ := nextIf_isCont hz
    obtain ⟨rfl, hylo, hyhi⟩ := nextIf_isCont hy
    obtain ⟨rfl, hsecond⟩ := nextIf_length hx
    rw [second4_iff] at hsecond
    have hv : Nat.isValidChar ((b.toNat - 0xF0) * 262144 + (x.toNat - 0x80) * 4096 +
        (y.toNat - 0x80) * 64 + (z.toNat - 0x80)) := by
      omega
    rw [utf8EncodeChar_ofNat hv, if_neg (by omega), if_neg (by omega), if_neg (by omega),
      hbyte (x := b) (by omega), hbyte (x := x) (by omega), hbyte (x := y) (by omega),
      hbyte (x := z) (by omega)]
    rfl
  | case2 | case4 | case5 | case7 | case8 | case9 | case11 => exact fun h => by cases h

theorem utf8_of_strictFrom (n : ℕ) {bs : Bytes} {s : Str} (h : strictFrom n bs = some s) :
    utf8 s = bs := by
  fun_induction strictFrom generalizing s with
  | case1 => cases h; rfl
  | case2 | case3 => cases h
  | case4 n b bs c bs' hstep ih =>
    obtain ⟨t, ht, rfl⟩ := map_eq_some_iff.mp h
    rw [utf8_cons, ih ht, utf8EncodeChar_of_utf8Step hstep]

/-- What is decoded is the text that the bytes encode. -/
theorem fromUtf8_eq_some_iff {bs : Bytes} {s : Str} : fromUtf8 bs = some s ↔ bs = utf8 s :=
  ⟨fun h => (utf8_of_strictFrom _ h).symm, fun h => h ▸ fromUtf8_utf8 s⟩

/-- Well-formed bytes are decoded the same either way. -/
theorem fromUtf8Lossy_of_fromUtf8 {bs : Bytes} {s : Str} (h : fromUtf8 bs = some s) :
    fromUtf8Lossy bs = s := by
  rw [fromUtf8_eq_some_iff.mp h, fromUtf8Lossy_utf8]

theorem utf8_injective : Function.Injective utf8 := by
  intro s t h
  rw [← fromUtf8Lossy_utf8 s, h, fromUtf8Lossy_utf8]

/-- A character takes between one and four bytes. -/
theorem length_utf8_bounds (s : Str) :
    s.length ≤ (utf8 s).length ∧ (utf8 s).length ≤ 4 * s.length := by
  induction s with
  | nil => simp
  | cons c s ih =>
    have hpos := c.utf8Size_pos
    have hle := c.utf8Size_le_four
    rw [utf8_cons, length_append, String.length_utf8EncodeChar, length_cons]
    omega

/-! ### What lossy, case-insensitive comparison sees

Lossy decoding and lowercasing are applied before names are compared.  Between two
byte strings whose bytes outside ASCII are the same, the comparison decides ASCII
case-insensitive equality: an ASCII byte ends every multi-byte sequence, so the two
decodings run in step. -/

/-- The ASCII lowercase of a byte. -/
def asciiLowerByte (b : UInt8) : UInt8 :=
  if 0x41 ≤ b.toNat ∧ b.toNat ≤ 0x5A then UInt8.ofNat (b.toNat + 32) else b

theorem toNat_asciiLowerByte (b : UInt8) : (asciiLowerByte b).toNat =
    if 0x41 ≤ b.toNat ∧ b.toNat ≤ 0x5A then b.toNat + 32 else b.toNat := by
  unfold asciiLowerByte
  split
  · rw [UInt8.toNat_ofNat', Nat.mod_eq_of_lt (by omega)]
  · rfl

theorem utf8Step_ascii (h : b.toNat < 0x80) (bs : Bytes) :
    utf8Step b bs = (some (Char.ofNat b.toNat), bs) := by
  rw [utf8Step, if_pos h]

/-- A character whose first byte is below 0x80 is that byte. -/
theorem toNat_eq_of_head_ascii {P : UInt8 → Bool}
    (h : (String.utf8EncodeChar c).all P = true) (hP : ∀ b, P b = true → b.toNat < 0x80) :
    c.toNat < 0x80 ∧ P (UInt8.ofNat c.toNat) = true := by
  obtain ⟨b, cs, henc, hstep⟩ := utf8Step_utf8EncodeChar c []
  have hb : P b = true := by
    rw [henc, all_cons, Bool.and_eq_true] at h
    exact h.1
  have hlt := hP b hb
  rw [utf8Step_ascii hlt, Prod.mk.injEq, some.injEq] at hstep
  have hc : c.toNat = b.toNat := by
    rw [← hstep.1]
    exact toNat_ofNat_of_valid (.inl (by omega))
  exact ⟨by omega, by rwa [hc, UInt8.ofNat_toNat]⟩

/-- Only an ASCII character is encoded with a byte below 0x80, which it is then. -/
theorem utf8EncodeChar_of_mem_ascii (hb : b ∈ String.utf8EncodeChar c)
    (hlt : b.toNat < 0x80) : String.utf8EncodeChar c = [b] ∧ c.toNat = b.toNat := by
  have hbyte : ∀ n, n < 256 → (UInt8.ofNat n).toNat = n := fun n hn => by simpa using hn
  unfold String.utf8EncodeChar at hb ⊢
  dsimp only at hb ⊢
  change _ ∧ c.val.toNat = b.toNat
  generalize c.val.toNat = v at *
  split at hb
  · next hv =>
    rw [if_pos hv]
    obtain rfl := mem_singleton.mp hb
    exact ⟨rfl, (hbyte v (by omega)).symm⟩
  · split at hb
    · rcases mem_cons.mp hb with rfl | hb
      · rw [hbyte _ (by omega)] at hlt
        omega
      · rw [mem_singleton.mp hb, hbyte _ (by omega)] at hlt
        omega
    split at hb
    · simp only [mem_cons, not_mem_nil, or_false] at hb
      rcases hb with rfl | rfl | rfl <;> rw [hbyte _ (by omega)] at hlt <;> omega
    · simp only [mem_cons, not_mem_nil, or_false] at hb
      rcases hb with rfl | rfl | rfl | rfl <;> rw [hbyte _ (by omega)] at hlt <;> omega

theorem utf8_of_ascii {s : Str} (h : ∀ c ∈ s, c.toNat < 0x80) :
    utf8 s = s.map fun c => UInt8.ofNat c.toNat := by
  induction s with
  | nil => rfl
  | cons c s ih =>
    obtain ⟨hc, hs⟩ := forall_mem_cons.mp h
    have hle : c.val.toNat ≤ 0x7F := Nat.le_of_lt_succ hc
    rw [utf8_cons, ih hs, String.utf8EncodeChar, if_pos hle]
    rfl

theorem splitOn_append_of_notMem {α : Type*} [BEq α] [LawfulBEq α] {a : α} :
    ∀ {l : List α}, a ∉ l → ∀ r : List α,
      (l ++ r).splitOn a = (r.splitOn a).modifyHead (l ++ ·) := by
  intro l
  induction l with
  | nil =>
    intro _ r
    change r.splitOn a = (r.splitOn a).modifyHead id
    rw [modifyHead_id, id_eq]
  | cons x l ih =>
    intro h r
    obtain ⟨hx, hl⟩ := not_or.mp (mem_cons.not.mp h)
    rw [cons_append, splitOn_cons_eq_if_modifyHead,
      if_neg (fun heq => hx (eq_of_beq heq).symm), ih hl, modifyHead_modifyHead]
    rfl

/-- Cutting the bytes of a text at an ASCII character cuts the text there. -/
theorem splitOn_utf8 (hc : c.toNat < 0x80) : ∀ s : Str,
    (utf8 s).splitOn (UInt8.ofNat c.toNat) = (s.splitOn c).map utf8 := by
  intro s
  have hbyte : (UInt8.ofNat c.toNat).toNat = c.toNat := by
    rw [UInt8.toNat_ofNat']
    omega
  induction s with
  | nil => rfl
  | cons x s ih =>
    rw [utf8_cons, splitOn_cons_eq_if_modifyHead]
    by_cases hx : x = c
    · subst hx
      have hself : String.utf8EncodeChar x = [UInt8.ofNat x.toNat] := by
        have hsingle := utf8_of_ascii (s := [x]) (by simpa using hc)
        rwa [utf8_cons, utf8_nil, append_nil] at hsingle
      rw [hself, singleton_append, splitOn_cons_eq_if_modifyHead, if_pos (by simp),
        if_pos (by simp), ih]
      rfl
    · have hnot : UInt8.ofNat c.toNat ∉ String.utf8EncodeChar x := by
        intro hmem
        have heq := (utf8EncodeChar_of_mem_ascii hmem (by rw [hbyte]; exact hc)).2
        rw [hbyte] at heq
        exact hx (Char.toNat_inj.mp heq)
      rw [splitOn_append_of_notMem hnot, ih, if_neg (by simpa using hx)]
      cases s.splitOn c with
      | nil => rfl
      | cons l ls => rfl

theorem lowerAt_ascii (hc : c.toNat < 0x80) (b a : Str) :
    lowerAt b c a = [asciiLower c] := by
  have hs : c ≠ 'Σ' := by
    rintro rfl
    exact absurd hc (by decide)
  rw [lowerAt, if_neg hs, toLower_of_ascii hc]

theorem asciiLower_ofNat : ∀ n < 0x80,
    (asciiLower (Char.ofNat n)).toNat = if 0x41 ≤ n ∧ n ≤ 0x5A then n + 32 else n := by
  decide +kernel

theorem asciiLowerByte_eq_of_asciiLower_eq {x y : UInt8} (hx : x.toNat < 0x80) (hy : y.toNat < 0x80)
    (h : asciiLower (Char.ofNat x.toNat) = asciiLower (Char.ofNat y.toNat)) :
    asciiLowerByte x = asciiLowerByte y := by
  apply UInt8.toNat_inj.mp
  rw [toNat_asciiLowerByte, toNat_asciiLowerByte, ← asciiLower_ofNat _ hx,
    ← asciiLower_ofNat _ hy, h]

/-- **Lossy case-insensitive comparison decides ASCII case-insensitive equality of
byte strings with the same bytes outside ASCII**, in any pair of contexts.  The
induction is on the length, since a step may consume several bytes. -/
theorem forall₂_asciiLower_of_lowerIn_eq : ∀ (n : ℕ) {bs cs : Bytes}, bs.length ≤ n →
    List.Forall₂ SameOutsideAscii bs cs → ∀ {b a b' a' : Str},
    lowerIn b (fromUtf8Lossy bs) a = lowerIn b' (fromUtf8Lossy cs) a' →
    List.Forall₂ (fun x y => asciiLowerByte x = asciiLowerByte y) bs cs := by
  intro n
  induction n with
  | zero =>
    intro bs cs hn h b a b' a' _
    have : bs = [] := length_eq_zero_iff.mp (by omega)
    subst this
    cases h
    exact .nil
  | succ n ih =>
    intro bs cs hn h b a b' a' heq
    cases h with
    | nil => exact .nil
    | @cons x y bs cs hxy h =>
      rw [length_cons] at hn
      by_cases hasc : x.toNat < 0x80 ∧ y.toNat < 0x80
      · -- an ASCII byte is a character of its own, lowercased without a look at its context
        obtain ⟨hx, hy⟩ := hasc
        rw [fromUtf8Lossy_cons, fromUtf8Lossy_cons, utf8Step_ascii hx, utf8Step_ascii hy,
          getD_some, getD_some, lowerIn_cons, lowerIn_cons,
          lowerAt_ascii (by rw [toNat_ofNat_of_valid (Or.inl (by omega))]; exact hx),
          lowerAt_ascii (by rw [toNat_ofNat_of_valid (Or.inl (by omega))]; exact hy)] at heq
        obtain ⟨hhead, htail⟩ := append_inj heq rfl
        rw [cons.injEq] at hhead
        exact .cons (asciiLowerByte_eq_of_asciiLower_eq hx hy hhead.1) (ih (by omega) h htail)
      · -- otherwise both sides take the same step, over a run of equal bytes
        have hxy : x = y := hxy.resolve_right hasc
        subst hxy
        have hx : 0x80 ≤ x.toNat := by omega
        obtain ⟨pre, bs', cs', r, rfl, rfl, h1, h2, h'⟩ := synchronous_utf8Step hx _ _ h
        rw [fromUtf8Lossy_cons, fromUtf8Lossy_cons, h1, h2, lowerIn_cons, lowerIn_cons] at heq
        obtain ⟨-, htail⟩ := append_inj heq (length_lowerAt _ _ _ _ _)
        rw [length_append] at hn
        exact .cons rfl (rel_append (forall₂_refl pre) (ih (by omega) h' htail))

theorem forall₂_asciiLower_of_toLowercase_eq {bs cs : Bytes}
    (h : List.Forall₂ SameOutsideAscii bs cs)
    (heq : toLowercase (fromUtf8Lossy bs) = toLowercase (fromUtf8Lossy cs)) :
    List.Forall₂ (fun x y => asciiLowerByte x = asciiLowerByte y) bs cs :=
  forall₂_asciiLower_of_lowerIn_eq bs.length (Nat.le_refl _) h heq

end Text
end TortaCore
