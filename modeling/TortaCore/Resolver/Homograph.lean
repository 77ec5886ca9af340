import TortaCore.Text.Punycode

/-!
# The Punycode decoder of the homograph test

`punycode_decode` of `resolver/rebind.rs`, with the arithmetic of `u32`: a checked operation that
does not fit rejects the input, a plain one that does not fit is an overflow, which the source must
avoid.  It is compared with the procedure of the standard.

## Main definitions

* `punycodeAdapt`, `punycodeDigit`, `punycodeDecode`: the functions of the source.
-/

namespace TortaCore
namespace Resolver
namespace Homograph

open Text List Option Punycode

/-! ### Arithmetic -/

/-- Why there is no result: the input is refused, or a plain operation does not fit. -/
inductive Halt where
  | reject
  | overflow
  deriving DecidableEq

def u32Limit : ℕ := 2 ^ 32

/-- `checked_add` and `checked_mul`, followed by `?`. -/
def checked (v : ℕ) : Except Halt ℕ := if v < u32Limit then .ok v else .error .reject

/-- A plain sum or product. -/
def plain (v : ℕ) : Except Halt ℕ := if v < u32Limit then .ok v else .error .overflow

/-- A plain difference. -/
def minus (a b : ℕ) : Except Halt ℕ := if b ≤ a then .ok (a - b) else .error .overflow

def saturating (v : ℕ) : ℕ := min v (u32Limit - 1)

/-- An optional value, followed by `?`. -/
def orReject {α : Type} : Option α → Except Halt α
  | none => .error .reject
  | some a => .ok a

variable {v : ℕ} {α β : Type} {input : Str}

theorem checked_of_lt (h : v < u32Limit) : checked v = .ok v := if_pos h

theorem checked_of_le (h : u32Limit ≤ v) : checked v = .error .reject :=
  if_neg (Nat.not_lt.mpr h)

theorem plain_of_lt (h : v < u32Limit) : plain v = .ok v := if_pos h

theorem minus_of_le {a b : ℕ} (h : b ≤ a) : minus a b = .ok (a - b) := if_pos h

theorem saturating_of_lt (h : v < u32Limit) : saturating v = v :=
  Nat.min_eq_left (Nat.le_sub_one_of_lt h)

@[simp] theorem ok_bind (a : α) (f : α → Except Halt β) :
    (Except.ok a >>= f) = f a := rfl

theorem of_bind_eq_ok {x : Except Halt α} {f : α → Except Halt β} {b : β}
    (h : x >>= f = .ok b) : ∃ a, x = .ok a ∧ f a = .ok b := by
  cases x with
  | error e => cases h
  | ok a => exact ⟨a, rfl, h⟩

/-! ### The decoder -/

def punyBase : ℕ := 36
def punyTmin : ℕ := 1
def punyTmax : ℕ := 26
def punySkew : ℕ := 38
def punyDamp : ℕ := 700
def punyInitialBias : ℕ := 72
def punyInitialN : ℕ := 128
def maxPunycodeOut : ℕ := 256

/-- The loop of `punycode_adapt`. -/
def adaptLoop (delta k : ℕ) : ℕ × ℕ :=
  if ((punyBase - punyTmin) * punyTmax) / 2 < delta then
    adaptLoop (delta / (punyBase - punyTmin)) (saturating (k + punyBase))
  else (delta, k)
termination_by delta
decreasing_by exact Nat.div_lt_self (by omega) (by decide)

def punycodeAdapt (delta numPoints : ℕ) (firstTime : Bool) : Except Halt ℕ := do
  let delta := if firstTime then delta / punyDamp else delta / 2
  let delta := saturating (delta + delta / max numPoints 1)
  let (delta, k) := adaptLoop delta 0
  let scaled ← plain ((punyBase - punyTmin + 1) * delta)
  let skewed ← plain (delta + punySkew)
  return saturating (k + scaled / skewed)

def punycodeDigit (cp : Char) : Option ℕ :=
  if '0' ≤ cp ∧ cp ≤ '9' then some (cp.toNat - '0'.toNat + 26)
  else if 'A' ≤ cp ∧ cp ≤ 'Z' then some (cp.toNat - 'A'.toNat)
  else if 'a' ≤ cp ∧ cp ≤ 'z' then some (cp.toNat - 'a'.toNat)
  else none

/-- The threshold at position `k`. -/
def punycodeThreshold (k bias : ℕ) : Except Halt ℕ := do
  let low ← plain (bias + punyTmin)
  if k ≤ low then return punyTmin
  let high ← plain (bias + punyTmax)
  if high ≤ k then return punyTmax
  minus k bias

/-- The inner loop, on the bytes that are left. -/
def readDigits (bias : ℕ) : Str → ℕ → ℕ → ℕ → Except Halt (ℕ × Str)
  | [], _, _, _ => .error .reject
  | c :: rest, i, w, k => do
    let d ← orReject (punycodeDigit c)
    let i ← checked (i + (← checked (d * w)))
    let t ← punycodeThreshold k bias
    if d < t then return (i, rest)
    let w ← checked (w * (← minus punyBase t))
    let k ← checked (k + punyBase)
    readDigits bias rest i w k

theorem length_readDigits {bias : ℕ} : ∀ {s : Str} {i w k j : ℕ} {rest : Str},
    readDigits bias s i w k = .ok (j, rest) → rest.length < s.length := by
  intro s
  induction s with
  | nil => intro i w k j rest h; cases h
  | cons c s ih =>
    intro i w k j rest h
    obtain ⟨d, -, h⟩ := of_bind_eq_ok h
    obtain ⟨dw, -, h⟩ := of_bind_eq_ok h
    obtain ⟨i', -, h⟩ := of_bind_eq_ok h
    obtain ⟨t, -, h⟩ := of_bind_eq_ok h
    split at h
    next =>
      cases h
      exact Nat.lt_succ_self _
    next =>
      obtain ⟨u, -, h⟩ := of_bind_eq_ok h
      obtain ⟨w', -, h⟩ := of_bind_eq_ok h
      obtain ⟨k', -, h⟩ := of_bind_eq_ok h
      exact Nat.lt_succ_of_lt (ih h)

/-- The variables of the outer loop. -/
structure Decoder where
  n : ℕ
  i : ℕ
  bias : ℕ
  output : List ℕ

/-- One round of the outer loop after the inner one, which has moved `i` to `j`. -/
def insertPoint (st : Decoder) (j : ℕ) : Except Halt Decoder := do
  let outLen ← plain (st.output.length + 1)
  let delta ← minus j st.i
  let bias ← punycodeAdapt delta outLen (st.i == 0)
  let n ← checked (st.n + j / outLen)
  let i := j % outLen
  if n < 0x80 then throw .reject
  if st.output.length < i then throw .reject
  let next ← checked (i + 1)
  return ⟨n, next, bias, st.output.insertIdx i n⟩

/-- The outer loop, on the bytes that are left. -/
def decodeLoop (st : Decoder) (input : Str) : Except Halt (List ℕ) :=
  match input with
  | [] => .ok st.output
  | c :: input =>
    if maxPunycodeOut ≤ st.output.length then .error .reject
    else
      match _hread : readDigits st.bias (c :: input) st.i 1 punyBase with
      | .error e => .error e
      | .ok (j, rest) =>
        match insertPoint st j with
        | .error e => .error e
        | .ok st => decodeLoop st rest
termination_by input.length
decreasing_by exact length_readDigits _hread

/-- `char::from_u32`. -/
def charFromU32 (cp : ℕ) : Option Char := if cp.isValidChar then some (Char.ofNat cp) else none

def punycodeDecode (input : Str) : Except Halt Str := do
  if !(input.all fun c => c.toNat < 0x80) then throw .reject
  -- the basic code points are everything up to the last hyphen
  let basicPart := Punycode.basicPart input
  let rest := input.rtakeWhile (· != '-')
  if !(basicPart.all fun c => c.toNat < 0x80) then throw .reject
  let output ← decodeLoop ⟨punyInitialN, 0, punyInitialBias, basicPart.map Char.toNat⟩ rest
  orReject (output.mapM charFromU32)

/-! ### The integers -/

theorem punycodeDigit_eq (c : Char) : punycodeDigit c = Punycode.digitValue c := by
  unfold punycodeDigit digitValue
  have hdisjoint : ∀ {a b x y : Char}, b.toNat < x.toNat → a ≤ c ∧ c ≤ b → ¬ (x ≤ c ∧ c ≤ y) :=
    fun hlt hab hxy => Nat.lt_irrefl _ (Nat.lt_of_le_of_lt (Nat.le_trans hxy.1 hab.2) hlt)
  split
  next h0 =>
    rw [if_neg (hdisjoint (by decide) h0), if_neg (hdisjoint (by decide) h0)]
  next h0 =>
    split
    next hA => rw [if_neg (hdisjoint (by decide) hA)]
    next hA => rfl

theorem punycodeThreshold_eq {k bias : ℕ} (h : bias + punyTmax < u32Limit) :
    punycodeThreshold k bias = .ok (Punycode.threshold k bias) := by
  have hlow : bias + punyTmin < u32Limit := Nat.lt_of_le_of_lt (by simp [punyTmin, punyTmax]) h
  rw [punycodeThreshold, threshold, show tmin = punyTmin from rfl,
    show tmax = punyTmax from rfl, plain_of_lt hlow, ok_bind]
  by_cases h1 : k ≤ bias + punyTmin
  · rw [if_pos h1, if_pos h1]
    rfl
  rw [if_neg h1, if_neg h1, plain_of_lt h, ok_bind]
  by_cases h2 : bias + punyTmax ≤ k
  · rw [if_pos h2, if_pos h2]
    rfl
  · rw [if_neg h2, if_neg h2]
    exact minus_of_le (by omega)

/-- The reader is that of the standard: the weight has grown tenfold at every position, so that
the position cannot overflow. -/
theorem readDigits_eq {bias : ℕ} (hbias : bias + punyTmax < u32Limit) :
    ∀ (s : Str) (i w m : ℕ), 10 ^ m ≤ w → w < u32Limit →
      readDigits bias s i w (punyBase * (m + 1)) =
        orReject (Punycode.readInteger bias s i w (punyBase * (m + 1))) := by
  intro s
  induction s with
  | nil => intro i w m _ _; rfl
  | cons c s ih =>
    intro i w m hpow hw
    rw [readDigits, readInteger, punycodeDigit_eq]
    cases digitValue c with
    | none => rfl
    | some d =>
      rw [orReject, ok_bind]
      dsimp only
      by_cases hi : u32Limit ≤ i + d * w
      · rw [if_pos (show limit ≤ i + d * w from hi)]
        by_cases hdw : u32Limit ≤ d * w
        · rw [checked_of_le hdw]
          rfl
        · rw [checked_of_lt (Nat.not_le.mp hdw), ok_bind, checked_of_le hi]
          rfl
      have hi' : i + d * w < u32Limit := Nat.not_le.mp hi
      rw [if_neg (show ¬ limit ≤ i + d * w from hi), checked_of_lt (by omega), ok_bind,
        checked_of_lt hi', ok_bind, punycodeThreshold_eq hbias, ok_bind]
      by_cases hd : d < threshold (punyBase * (m + 1)) bias
      · rw [if_pos hd, if_pos hd]
        rfl
      obtain ⟨-, htmax⟩ := threshold_bounds (punyBase * (m + 1)) bias
      have hsub : threshold (punyBase * (m + 1)) bias ≤ punyBase := Nat.le_trans htmax (by decide)
      rw [if_neg hd, if_neg hd, minus_of_le hsub, ok_bind]
      by_cases hw' : u32Limit ≤ w * (punyBase - threshold (punyBase * (m + 1)) bias)
      · rw [checked_of_le hw', if_pos (show limit ≤ w * (base - _) from hw')]
        rfl
      have hw'' := Nat.not_le.mp hw'
      have hpow' : 10 ^ (m + 1) ≤
          w * (punyBase - threshold (punyBase * (m + 1)) bias) := by
        refine Nat.mul_le_mul hpow ?_
        have : threshold (punyBase * (m + 1)) bias ≤ 26 := htmax
        simp only [punyBase] at this ⊢
        omega
      have hm : m + 1 < 10 := by
        rw [← Nat.pow_lt_pow_iff_right (show 1 < 10 by decide)]
        exact Nat.lt_of_le_of_lt (Nat.le_trans hpow' hw''.le) (by decide)
      rw [checked_of_lt hw'', ok_bind, checked_of_lt (by simp only [punyBase, u32Limit]; omega),
        ok_bind, if_neg (show ¬ limit ≤ w * (base - _) from hw')]
      exact ih _ _ (m + 1) hpow' hw''

/-! ### The bias -/

theorem adaptFrom_eq : ∀ delta k : ℕ, 12 * k + delta ≤ u32Limit →
    Punycode.adaptFrom delta k = (adaptLoop delta k).2 +
      36 * (adaptLoop delta k).1 / ((adaptLoop delta k).1 + 38) ∧
    (adaptLoop delta k).1 ≤ 455 ∧ 12 * (adaptLoop delta k).2 ≤ u32Limit := by
  intro delta
  induction delta using Nat.strongRecOn with
  | ind delta ih =>
    intro k hk
    rw [adaptFrom, adaptLoop]
    by_cases hbig : ((punyBase - punyTmin) * punyTmax) / 2 < delta
    · rw [if_pos hbig, if_pos (show ((base - tmin) * tmax) / 2 < delta from hbig)]
      simp only [punyBase, punyTmin, punyTmax] at hbig
      have hsat : saturating (k + punyBase) = k + punyBase :=
        saturating_of_lt (by simp only [punyBase, u32Limit] at hk ⊢; omega)
      rw [hsat]
      refine ih (delta / 35) (Nat.div_lt_self (by omega) (by decide)) (k + 36) ?_
      omega
    · rw [if_neg hbig, if_neg (show ¬ ((base - tmin) * tmax) / 2 < delta from hbig)]
      simp only [punyBase, punyTmin, punyTmax] at hbig
      exact ⟨rfl, by omega, by omega⟩

theorem punycodeAdapt_eq {delta numPoints : ℕ} (firstTime : Bool) (hdelta : delta < u32Limit)
    (hpoints : 0 < numPoints) :
    punycodeAdapt delta numPoints firstTime = .ok (Punycode.adapt delta numPoints firstTime) := by
  have hhalf : (if firstTime then delta / punyDamp else delta / 2) ≤ delta / 2 := by
    split
    · exact Nat.div_le_div_left (by decide) (by decide)
    · exact Nat.le_refl _
  have hdiv := Nat.div_le_self (if firstTime then delta / punyDamp else delta / 2) numPoints
  rw [punycodeAdapt, adapt, Nat.max_eq_left hpoints, show damp = punyDamp from rfl]
  dsimp only
  rw [saturating_of_lt (by simp only [u32Limit] at hdelta ⊢; omega)]
  generalize (if firstTime then delta / punyDamp else delta / 2) = d at hhalf hdiv
  obtain ⟨hfrom, hsmall, hk⟩ := adaptFrom_eq (d + d / numPoints) 0
    (by simp only [u32Limit] at hdelta ⊢; omega)
  have hlast : 36 * (adaptLoop (d + d / numPoints) 0).1 /
      ((adaptLoop (d + d / numPoints) 0).1 + 38) ≤ 36 :=
    Nat.div_le_of_le_mul (by omega)
  rw [plain_of_lt (by simp only [punyBase, punyTmin, u32Limit]; omega), ok_bind,
    plain_of_lt (by simp only [punySkew, u32Limit]; omega), ok_bind, hfrom]
  refine congrArg Except.ok (saturating_of_lt ?_)
  refine Nat.lt_of_le_of_lt (Nat.add_le_add_left hlast _) ?_
  simp only [u32Limit] at hk ⊢
  omega

/-! ### The insertions -/

theorem insertPoint_eq {st : Decoder} {j : ℕ} (hi : st.i ≤ j) (hj : j < u32Limit)
    (hn : 0x80 ≤ st.n) (hlen : st.output.length < maxPunycodeOut) :
    insertPoint st j =
      if u32Limit ≤ st.n + j / (st.output.length + 1) then .error .reject
      else .ok ⟨st.n + j / (st.output.length + 1), j % (st.output.length + 1) + 1,
        Punycode.adapt (j - st.i) (st.output.length + 1) (st.i == 0),
        st.output.insertIdx (j % (st.output.length + 1)) (st.n + j / (st.output.length + 1))⟩ := by
  have hlen' : st.output.length + 1 < u32Limit := Nat.lt_of_le_of_lt hlen (by decide)
  have hmod : j % (st.output.length + 1) < st.output.length + 1 := Nat.mod_lt _ (by omega)
  rw [insertPoint, plain_of_lt hlen', ok_bind, minus_of_le hi, ok_bind,
    punycodeAdapt_eq _ (Nat.lt_of_le_of_lt (Nat.sub_le _ _) hj) (by omega), ok_bind]
  by_cases hover : u32Limit ≤ st.n + j / (st.output.length + 1)
  · rw [checked_of_le hover, if_pos hover]
    rfl
  · rw [checked_of_lt (Nat.not_le.mp hover), ok_bind, if_neg hover]
    rw [if_neg (Nat.not_lt.mpr (Nat.le_trans hn (Nat.le_add_right _ _))), if_neg (by omega),
      checked_of_lt (by omega)]
    rfl

theorem decodeLoop_nil (st : Decoder) : decodeLoop st [] = .ok st.output := by
  rw [decodeLoop]

theorem decodeLoop_of_ne_nil (st : Decoder) (h : input ≠ []) :
    decodeLoop st input =
      if maxPunycodeOut ≤ st.output.length then .error .reject
      else readDigits st.bias input st.i 1 punyBase >>= fun r =>
        insertPoint st r.1 >>= fun st => decodeLoop st r.2 := by
  cases input with
  | nil => exact absurd rfl h
  | cons c input =>
    rw [decodeLoop]
    split
    · rfl
    split
    next hread => rw [hread]; rfl
    next j rest hread =>
      rw [hread, ok_bind]
      cases insertPoint st j with
      | error e => rfl
      | ok st => rfl

/-- The output is refused when an insertion made it too long. -/
def capped (input : Str) (out : List ℕ) : Option (List ℕ) :=
  if input ≠ [] ∧ maxPunycodeOut < out.length then none else some out

/-- **The loop inserts as the standard says, and no plain operation in it overflows.** -/
theorem decodeLoop_eq {st : Decoder} (hn : 0x80 ≤ st.n) (hbias : st.bias + punyTmax < u32Limit) :
    decodeLoop st input =
      orReject ((Punycode.insertAll st.n st.i st.bias st.output input).bind (capped input)) := by
  induction hlen : input.length using Nat.strongRecOn generalizing st input with
  | ind m ih =>
    by_cases hinput : input = []
    · rw [hinput, decodeLoop_nil, insertAll_nil]
      rfl
    rw [decodeLoop_of_ne_nil st hinput]
    by_cases hcap : maxPunycodeOut ≤ st.output.length
    · -- what is inserted after this is one too many
      rw [if_pos hcap]
      cases hout : insertAll st.n st.i st.bias st.output input with
      | none => rfl
      | some out =>
        have hlong := length_le_of_insertAll hout
        rw [if_neg hinput] at hlong
        rw [bind_some, capped, if_pos ⟨hinput, by omega⟩]
        rfl
    rw [if_neg hcap, insertAll_of_ne_nil _ _ _ _ hinput]
    have hread := readDigits_eq hbias input st.i 1 0 (Nat.le_refl _) (by decide)
    rw [Nat.zero_add, Nat.mul_one] at hread
    rw [hread, show base = punyBase from rfl]
    cases hint : readInteger st.bias input st.i 1 punyBase with
    | none => rfl
    | some r =>
      obtain ⟨j, rest⟩ := r
      obtain ⟨hij, hj, -⟩ := readInteger_spec hint
      have hrest := length_readInteger hint
      have hmod : j % (st.output.length + 1) < st.output.length + 1 := Nat.mod_lt _ (by omega)
      rw [orReject, ok_bind, insertPoint_eq hij hj hn (Nat.not_le.mp hcap), bind_some]
      dsimp only
      by_cases hover : u32Limit ≤ st.n + j / (st.output.length + 1)
      · rw [if_pos hover, if_pos (show limit ≤ _ from hover)]
        rfl
      rw [if_neg hover, if_neg (show ¬ limit ≤ _ from hover), ok_bind,
        ih _ (hlen ▸ hrest) (Nat.le_trans hn (Nat.le_add_right _ _)) ?_ rfl]
      · -- the cap now and the cap before the insertion refuse the same outputs
        congr 1
        refine bind_congr fun out hout => ?_
        by_cases hend : rest = []
        · rw [hend, insertAll_nil] at hout
          cases hout
          have hshort : (st.output.insertIdx (j % (st.output.length + 1))
              (st.n + j / (st.output.length + 1))).length ≤ maxPunycodeOut := by
            rw [length_insertIdx_of_le_length (Nat.le_of_lt_succ hmod)]
            omega
          rw [capped, capped, if_neg fun h => h.1 hend, if_neg fun h => Nat.not_lt.mpr hshort h.2]
        · rw [capped, capped]
          simp only [ne_eq, hend, hinput, not_false_eq_true, true_and]
      · have hdelta : j - st.i < limit := Nat.lt_of_le_of_lt (Nat.sub_le _ _) hj
        have hadapt := adapt_le (st.output.length + 1) (st.i == 0) hdelta
        simp only [limit, base, punyTmax, u32Limit] at hadapt ⊢
        omega

/-! ### The whole input -/

/-- The procedure of the standard within the limits of the decoder: an output that an insertion made
too long and one with a code point that is no scalar value are refused. -/
def rfcDecode (input : Str) : Option Str :=
  (Punycode.decode input).bind fun out =>
    if (Punycode.basicPart input).length < out.length ∧ maxPunycodeOut < out.length then none
    else out.mapM charFromU32

/-- Insert the code points of `rest` into `basic`, within the limits. -/
def tailDecode (basic rest : Str) : Option Str :=
  ((Punycode.insertAll punyInitialN 0 punyInitialBias (basic.map Char.toNat) rest).bind
    (capped rest)).bind fun out => out.mapM charFromU32

theorem ascii_basicPart (h : ∀ c ∈ input, c.toNat < 0x80) : ∀ c ∈ basicPart input, c.toNat < 0x80 :=
  fun c hc => h c ((List.rdropWhile_prefix _ _).subset (dropLast_subset _ hc))

theorem punycodeDecode_eq (h : ∀ c ∈ input, c.toNat < 0x80) :
    punycodeDecode input =
      orReject (tailDecode (Punycode.basicPart input) (input.rtakeWhile (· != '-'))) := by
  have hn : 0x80 ≤ punyInitialN := by decide
  have hbias : punyInitialBias + punyTmax < u32Limit := by decide
  have hloop : decodeLoop
      ⟨punyInitialN, 0, punyInitialBias, (basicPart input).map Char.toNat⟩
      (input.rtakeWhile (· != '-')) = _ := decodeLoop_eq hn hbias
  rw [punycodeDecode, if_neg (by simpa using h)]
  rw [if_neg (by simpa using ascii_basicPart h), hloop, tailDecode]
  cases (insertAll punyInitialN 0 punyInitialBias
    ((basicPart input).map Char.toNat) (input.rtakeWhile (· != '-'))).bind
      (capped (input.rtakeWhile (· != '-'))) with
  | none => rfl
  | some out => rfl

theorem punycodeDecode_of_not_ascii (h : ¬ ∀ c ∈ input, c.toNat < 0x80) :
    punycodeDecode input = .error .reject := by
  rw [punycodeDecode, if_pos (by simpa using h)]
  rfl

/-- The cap as the number of code points before the insertions shows it. -/
theorem bind_capped (basic rest : Str) :
    tailDecode basic rest =
      (Punycode.insertAll punyInitialN 0 punyInitialBias (basic.map Char.toNat) rest).bind
        fun out => if basic.length < out.length ∧ maxPunycodeOut < out.length then none
          else out.mapM charFromU32 := by
  rw [tailDecode, bind_assoc]
  refine bind_congr fun out hout => ?_
  have hlen := length_le_of_insertAll hout
  rw [length_map] at hlen
  have hcap : (rest ≠ [] ∧ maxPunycodeOut < out.length) ↔
      (basic.length < out.length ∧ maxPunycodeOut < out.length) := by
    refine and_congr_left fun _ => ⟨fun hne => ?_, fun hlt hnil => ?_⟩
    · rw [if_neg hne] at hlen
      exact hlen
    · rw [hnil, insertAll_nil] at hout
      cases hout
      rw [length_map] at hlt
      exact Nat.lt_irrefl _ hlt
  simp only [capped, hcap]
  split
  · rfl
  · rfl

theorem ascii_of_tailDecode {basic rest s : Str} (h : tailDecode basic rest = some s) :
    ∀ c ∈ rest, c.toNat < 0x80 := by
  rw [bind_capped] at h
  obtain ⟨out, hout, -⟩ := bind_eq_some_iff.mp h
  exact ascii_of_insertAll hout

theorem rfcDecode_eq (input : Str) : rfcDecode input =
    if (Punycode.basicPart input).all fun c => c.toNat < 0x80 then
      tailDecode (Punycode.basicPart input) (if (Punycode.basicPart input).isEmpty then input
        else input.drop ((Punycode.basicPart input).length + 1))
    else none := by
  rw [rfcDecode, decode]
  by_cases h : (basicPart input).all fun c => c.toNat < 0x80
  · rw [if_pos h, if_pos h, bind_capped]
    rfl
  · rw [if_neg h, if_neg h]
    rfl

/-! ### The last delimiter -/

theorem bne_of_notMem (h : '-' ∉ input) : ∀ c ∈ input, (c != '-') = true := by
  intro c hc
  rw [bne_iff_ne]
  rintro rfl
  exact h hc

theorem basicPart_of_notMem (h : '-' ∉ input) :
    Punycode.basicPart input = [] ∧ input.rtakeWhile (· != '-') = input := by
  refine ⟨?_, rtakeWhile_eq_self_iff.mpr (bne_of_notMem h)⟩
  rw [basicPart, rdropWhile_eq_nil_iff.mpr (bne_of_notMem h)]
  rfl

theorem basicPart_append (basic : Str) {rest : Str} (h : '-' ∉ rest) :
    Punycode.basicPart (basic ++ '-' :: rest) = basic ∧
      (basic ++ '-' :: rest).rtakeWhile (· != '-') = rest := by
  have hall := bne_of_notMem (mt mem_reverse.mp h)
  have hrev : (basic ++ '-' :: rest).reverse = rest.reverse ++ '-' :: basic.reverse := by simp
  constructor
  · rw [basicPart, rdropWhile, hrev, dropWhile_append_of_pos hall]
    simp
  · rw [rtakeWhile, hrev, takeWhile_append_of_pos hall]
    simp

theorem exists_last_delimiter (h : '-' ∈ input) :
    ∃ basic rest, input = basic ++ '-' :: rest ∧ '-' ∉ rest := by
  obtain ⟨post, pre, hsplit, hpost⟩ := eq_append_cons_of_mem (mem_reverse.mpr h)
  refine ⟨pre.reverse, post.reverse, ?_, fun hmem => hpost (mem_reverse.mp hmem)⟩
  rw [← reverse_inj, hsplit]
  simp

theorem digitValue_delimiter : Punycode.digitValue '-' = none := by decide

/-- The standard reads a leading delimiter as a digit, and fails. -/
theorem rfcDecode_delimiter {rest : Str} (h : '-' ∉ rest) : rfcDecode ('-' :: rest) = none := by
  have hbasic : basicPart ('-' :: rest) = [] := (basicPart_append [] h).1
  rw [rfcDecode_eq, hbasic, all_nil, isEmpty_nil, if_pos rfl, if_pos rfl, bind_capped,
    insertAll_of_ne_nil _ _ _ _ (by simp), readInteger, digitValue_delimiter]
  rfl

theorem mem_parts {c : Char} (h : c ∈ input) :
    c ∈ Punycode.basicPart input ∨ c = '-' ∨ c ∈ input.rtakeWhile (· != '-') := by
  by_cases hmem : '-' ∈ input
  · obtain ⟨basic, rest, rfl, hnot⟩ := exists_last_delimiter hmem
    obtain ⟨hbasic, htake⟩ := basicPart_append basic hnot
    rw [hbasic, htake]
    simpa using h
  · rw [(basicPart_of_notMem hmem).2]
    exact .inr (.inr h)

/-- Where the decoder and the standard cut the input alike, they agree. -/
theorem punycodeDecode_eq_rfcDecode (h : ∀ rest, input = '-' :: rest → '-' ∈ rest) :
    punycodeDecode input = orReject (rfcDecode input) := by
  -- the rest of the input as both of them see it
  have hrest : (if (basicPart input).isEmpty then input
      else input.drop ((basicPart input).length + 1)) =
        input.rtakeWhile (· != '-') := by
    by_cases hmem : '-' ∈ input
    · obtain ⟨basic, rest, rfl, hnot⟩ := exists_last_delimiter hmem
      obtain ⟨hbasic, htake⟩ := basicPart_append basic hnot
      rw [hbasic, htake]
      cases basic with
      | nil => exact absurd (h rest rfl) hnot
      | cons c basic => simp
    · obtain ⟨hbasic, htake⟩ := basicPart_of_notMem hmem
      rw [hbasic, htake, isEmpty_nil, if_pos rfl]
  rw [rfcDecode_eq, hrest]
  by_cases hascii : ∀ c ∈ input, c.toNat < 0x80
  · rw [punycodeDecode_eq hascii, if_pos (by simpa using ascii_basicPart hascii)]
  rw [punycodeDecode_of_not_ascii hascii]
  split
  next hbasic =>
    cases htail : tailDecode (basicPart input) (input.rtakeWhile (· != '-')) with
    | none => rfl
    | some s =>
      refine absurd (fun c hc => ?_) hascii
      rcases mem_parts hc with hc | rfl | hc
      · simpa using all_eq_true.mp hbasic c hc
      · decide
      · exact ascii_of_tailDecode htail c hc
  next => rfl

theorem punycodeDecode_delimiter {rest : Str} (h : '-' ∉ rest) :
    punycodeDecode ('-' :: rest) = orReject (rfcDecode rest) := by
  have hskip : punycodeDecode ('-' :: rest) = punycodeDecode rest := by
    by_cases hascii : ∀ c ∈ rest, c.toNat < 0x80
    · have hascii' : ∀ c ∈ '-' :: rest, c.toNat < 0x80 := forall_mem_cons.mpr ⟨by decide, hascii⟩
      obtain ⟨hbasic, htake⟩ := basicPart_append [] h
      obtain ⟨hbasic', htake'⟩ := basicPart_of_notMem h
      rw [nil_append] at hbasic htake
      rw [punycodeDecode_eq hascii', punycodeDecode_eq hascii, hbasic, htake, hbasic', htake']
    · rw [punycodeDecode_of_not_ascii hascii, punycodeDecode_of_not_ascii fun hall =>
        hascii fun c hc => hall c (mem_cons_of_mem _ hc)]
  rw [hskip, punycodeDecode_eq_rfcDecode]
  rintro rest' rfl
  exact absurd mem_cons_self h

theorem orReject_ne_overflow {α : Type} (o : Option α) : orReject o ≠ .error .overflow := by
  cases o with
  | none => exact fun h => by cases h
  | some a => exact fun h => by cases h

theorem eq_of_orReject_eq {α : Type} {o o' : Option α} (h : orReject o = orReject o') : o = o' := by
  cases o with
  | none =>
    cases o' with
    | none => rfl
    | some b => cases h
  | some a =>
    cases o' with
    | none => cases h
    | some b => cases h; rfl

/-- **The decoder never overflows, and it is the procedure of the standard on every input but those
whose last delimiter comes first**: there the source skips the delimiter, which the standard does
not, and the two agree only when the rest is refused as well. -/
theorem punycode_decode_iff (input : Str) :
    punycodeDecode input ≠ .error .overflow ∧
      (punycodeDecode input = orReject (rfcDecode input) ↔
        ∀ rest, input = '-' :: rest → '-' ∉ rest → rfcDecode rest = none) := by
  by_cases hlead : ∃ rest, input = '-' :: rest ∧ '-' ∉ rest
  · obtain ⟨rest, rfl, hnot⟩ := hlead
    rw [punycodeDecode_delimiter hnot, rfcDecode_delimiter hnot]
    refine ⟨orReject_ne_overflow _, fun h rest' heq _ => ?_, fun h => ?_⟩
    · cases heq
      exact eq_of_orReject_eq h
    · rw [h rest rfl hnot]
  · have hlead' : ∀ rest, input = '-' :: rest → '-' ∈ rest := fun rest heq =>
      by_contra fun hnot => hlead ⟨rest, heq, hnot⟩
    rw [punycodeDecode_eq_rfcDecode hlead']
    exact ⟨orReject_ne_overflow _, fun _ rest heq hnot => absurd (hlead' rest heq) hnot,
      fun _ => rfl⟩

/-- The payload of the label `xn--tda`, with one more delimiter in front, still decodes to `ü`; the
standard refuses it. -/
theorem leading_delimiter_is_skipped :
    punycodeDecode "-tda".toList = .ok ['ü'] ∧ rfcDecode "-tda".toList = none := by
  decide +kernel

end Homograph
end Resolver
end TortaCore
