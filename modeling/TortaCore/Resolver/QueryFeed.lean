import Mathlib.Data.List.Lex
import Mathlib.Tactic.IntervalCases

/-!
# The date of a row of the query log

`civil_from_unix` of `resolver/query_feed.rs` turns a count of seconds into a date and a time of
day.  It counts years from March in eras of 400 years and finds the year and the month by linear
formulas.  Its arithmetic is that of ℤ as long as its `i64` steps stay in range.  The calendar is
stated by the lengths of its months.

## Main definitions

* `Civil.Valid`, `Civil.unix`: the dates there are, and the seconds from the epoch to one.
-/

namespace TortaCore
namespace Resolver
namespace QueryFeed

structure Civil where
  year : ℤ
  month : ℕ
  day : ℕ
  hour : ℕ
  minute : ℕ
  second : ℕ

/-- `as u32`. -/
def asU32 (v : ℤ) : ℕ := (v % 2 ^ 32).toNat

/-- `/` and `%` are `div_euclid` and `rem_euclid` here, `tdiv` and `tmod` the operators. -/
def civilFromUnix (secs : ℤ) : Civil :=
  let days := secs / 86400
  let sod := secs % 86400
  let z := days + 719468
  let era := z / 146097
  let doe := z % 146097
  let yoe := (doe - doe.tdiv 1460 + doe.tdiv 36524 - doe.tdiv 146096).tdiv 365
  let y := yoe + era * 400
  let doy := doe - (365 * yoe + yoe.tdiv 4 - yoe.tdiv 100)
  let mp := (5 * doy + 2).tdiv 153
  let d := asU32 (doy - (153 * mp + 2).tdiv 5 + 1)
  let m := asU32 (if mp < 10 then mp + 3 else mp - 9)
  ⟨if m ≤ 2 then y + 1 else y, m, d, asU32 (sod.tdiv 3600), asU32 ((sod.tmod 3600).tdiv 60),
    asU32 (sod.tmod 60)⟩

/-! ### The calendar -/

abbrev IsLeap (y : ℤ) : Prop := y % 4 = 0 ∧ (y % 100 ≠ 0 ∨ y % 400 = 0)

def daysInMonth (y : ℤ) : ℕ → ℕ
  | 2 => if IsLeap y then 29 else 28
  | 4 | 6 | 9 | 11 => 30
  | _ => 31

/-- The days of the first `m` months. -/
def daysOfMonths (y : ℤ) : ℕ → ℕ
  | 0 => 0
  | m + 1 => daysOfMonths y m + daysInMonth y (m + 1)

/-- The days from the epoch to the start of a year, as `daysBeforeYear_succ` says. -/
def daysBeforeYear (y : ℤ) : ℤ :=
  365 * (y - 1970) + ((y - 1) / 4 - (y - 1) / 100 + (y - 1) / 400 - 477)

theorem daysBeforeYear_succ (y : ℤ) : daysBeforeYear 1970 = 0 ∧
    daysBeforeYear (y + 1) = daysBeforeYear y + daysOfMonths y 12 := by
  refine ⟨rfl, ?_⟩
  simp only [daysBeforeYear, daysOfMonths, daysInMonth]
  split <;> omega

structure Civil.Valid (c : Civil) : Prop where
  month : 1 ≤ c.month ∧ c.month ≤ 12
  day : 1 ≤ c.day ∧ c.day ≤ daysInMonth c.year c.month
  hour : c.hour < 24
  minute : c.minute < 60
  second : c.second < 60

/-- The seconds from the epoch. -/
def Civil.unix (c : Civil) : ℤ :=
  86400 * (daysBeforeYear c.year + daysOfMonths c.year (c.month - 1) + (c.day - 1)) +
    3600 * c.hour + 60 * c.minute + c.second

def Civil.fields (c : Civil) : List ℤ := [c.year, c.month, c.day, c.hour, c.minute, c.second]

theorem daysOfMonths_mono (y : ℤ) : Monotone (daysOfMonths y) :=
  monotone_nat_of_le_succ fun _ => Nat.le_add_right _ _

theorem daysBeforeYear_mono {y z : ℤ} (h : y ≤ z) : daysBeforeYear y ≤ daysBeforeYear z := by
  refine monotone_int_of_le_succ (fun y => ?_) h
  rw [(daysBeforeYear_succ y).2]
  omega

theorem Civil.unix_lt {c d : Civil} (hc : c.Valid) (hd : d.Valid) (h : c.fields < d.fields) :
    c.unix < d.unix := by
  obtain ⟨⟨hm1, hm12⟩, hday, hhour, hminute, hsecond⟩ := hc
  have hin : daysOfMonths c.year (c.month - 1) + c.day ≤ daysOfMonths c.year c.month := by
    obtain ⟨m, hm⟩ := Nat.exists_eq_add_of_le' hm1
    rw [hm, Nat.add_sub_cancel, daysOfMonths, ← hm]
    exact Nat.add_le_add_left hday.2 _
  have hday' := hd.day.1
  unfold unix
  simp only [fields, List.cons_lt_cons_iff, Nat.cast_lt, Nat.cast_inj, List.not_lt_nil, and_false,
    or_false] at h
  obtain hyear | ⟨hyear, hmonth | ⟨hmonth, h⟩⟩ := h
  · have hnext := daysBeforeYear_mono (Int.add_one_le_of_lt hyear)
    rw [(daysBeforeYear_succ _).2] at hnext
    have hlast := daysOfMonths_mono c.year hm12
    omega
  · have hnext := daysOfMonths_mono c.year (Nat.le_sub_one_of_lt hmonth)
    rw [hyear] at hin hnext ⊢
    omega
  · rw [hyear, hmonth]
    omega

/-! ### The formulas -/

/-- The year within an era and the day of that year, which has 366 days only if its last one is
a 29th of February. -/
theorem year_of_era {doe : ℤ} (h0 : 0 ≤ doe) (h1 : doe < 146097) :
    let yoe := (doe - doe / 1460 + doe / 36524 - doe / 146096) / 365
    let doy := doe - (365 * yoe + yoe / 4 - yoe / 100)
    (0 ≤ yoe ∧ yoe < 400) ∧ (0 ≤ doy ∧ doy < 366) ∧ (doy = 365 → IsLeap (yoe + 1)) := by
  by_cases hlast : doe = 146096
  · subst hlast
    decide
  -- centuries, fours of years in the century, days in the four years
  obtain ⟨c, q, s, rfl, hc, hs, hq⟩ : ∃ c q s : ℤ, doe = 36524 * c + 1461 * q + s ∧
      (0 ≤ c ∧ c < 4) ∧ (0 ≤ s ∧ s < 1461) ∧ 0 ≤ q ∧ 1461 * q + s < 36524 :=
    ⟨doe / 36524, doe % 36524 / 1461, doe % 36524 % 1461, by omega⟩
  obtain ⟨e, he⟩ : ∃ e, (24 * c + q + s) / 1460 = e := ⟨_, rfl⟩
  obtain ⟨k, hk⟩ : ∃ k, (s - e) / 365 = k := ⟨_, rfl⟩
  have hcut : e = 0 ∧ s < 1460 ∨ e = 1 ∧ 1300 ≤ s := by omega
  have hfour : (36524 * c + 1461 * q + s) / 1460 = 25 * c + q + e := by omega
  have hcentury : (36524 * c + 1461 * q + s) / 36524 = c := by omega
  have hera : (36524 * c + 1461 * q + s) / 146096 = 0 := by omega
  have hyoe : (36524 * c + 1461 * q + s - (25 * c + q + e) + c - 0) / 365 =
      100 * c + 4 * q + k := by omega
  have hyear : 365 * k ≤ s ∧ (k < 3 → s < 365 * (k + 1)) ∧ 0 ≤ k ∧ k < 4 := by omega
  dsimp only
  rw [hfour, hcentury, hera, hyoe]
  clear he hfour hcentury hera hk hcut hyoe
  have h4 : (100 * c + 4 * q + k) / 4 = 25 * c + q := by omega
  have h100 : (100 * c + 4 * q + k) / 100 = c := by omega
  rw [h4, h100]
  refine ⟨by omega, by omega, fun hlast => ?_⟩
  omega

/-- The month of a year from March on, and where its days stand in the calendar. -/
theorem month_of_year {y doy mp Y : ℤ} {m d : ℕ} (hdoy : 0 ≤ doy ∧ doy < 366)
    (hleap : doy = 365 → IsLeap (y + 1)) (hmp : (5 * doy + 2) / 153 = mp)
    (hm : mp < 10 ∧ (m : ℤ) = mp + 3 ∧ Y = y ∨ 10 ≤ mp ∧ (m : ℤ) = mp - 9 ∧ Y = y + 1)
    (hd : (d : ℤ) = doy - (153 * mp + 2) / 5 + 1) :
    (1 ≤ m ∧ m ≤ 12) ∧ (1 ≤ d ∧ d ≤ daysInMonth Y m) ∧
      daysBeforeYear Y + daysOfMonths Y (m - 1) + (d - 1) =
        365 * y + y / 4 - y / 100 + y / 400 + doy - 719468 := by
  have hstart : daysBeforeYear (y + 1) = 365 * y + y / 4 - y / 100 + y / 400 - 719162 := by
    rw [daysBeforeYear, add_sub_cancel_right]
    omega
  obtain ⟨hlt, hm, rfl⟩ | ⟨hge, hm, rfl⟩ := hm
  · rw [(daysBeforeYear_succ Y).2] at hstart
    obtain ⟨hlo, hhi⟩ : 3 ≤ m ∧ m ≤ 12 := by omega
    interval_cases m
    all_goals
      simp only [daysOfMonths, daysInMonth, Nat.reduceSub] at hstart ⊢
      omega
  · obtain rfl | rfl : m = 1 ∨ m = 2 := by omega
    · simp only [daysOfMonths, daysInMonth, Nat.reduceSub, hstart]
      omega
    · simp only [daysOfMonths, daysInMonth, Nat.reduceSub, hstart]
      split <;> omega

/-- The date is a valid one, and `n` seconds away. -/
theorem civilFromUnix_spec (n : ℤ) : (civilFromUnix n).Valid ∧ (civilFromUnix n).unix = n := by
  unfold civilFromUnix
  dsimp only
  generalize hera : (n / 86400 + 719468) / 146097 = era
  generalize hdoe : (n / 86400 + 719468) % 146097 = doe
  have h0 : 0 ≤ doe := by omega
  have hsum : 0 ≤ doe - doe / 1460 + doe / 36524 - doe / 146096 := by omega
  have hsod : 0 ≤ n % 86400 := by omega
  obtain ⟨hyoe, hdoy, hleap⟩ := year_of_era h0 (by omega)
  simp only [Int.tdiv_eq_ediv_of_nonneg h0, Int.tdiv_eq_ediv_of_nonneg hsum]
  generalize (doe - doe / 1460 + doe / 36524 - doe / 146096) / 365 = yoe at hyoe hdoy hleap ⊢
  simp only [Int.tdiv_eq_ediv_of_nonneg hyoe.1]
  generalize hday : doe - (365 * yoe + yoe / 4 - yoe / 100) = doy at hdoy hleap ⊢
  rw [Int.tdiv_eq_ediv_of_nonneg (show 0 ≤ 5 * doy + 2 by omega)]
  generalize hmp : (5 * doy + 2) / 153 = mp
  rw [Int.tdiv_eq_ediv_of_nonneg (show 0 ≤ 153 * mp + 2 by omega)]
  generalize hd : asU32 (doy - (153 * mp + 2) / 5 + 1) = d
  generalize hm : asU32 (if mp < 10 then mp + 3 else mp - 9) = m
  generalize hy : (if m ≤ 2 then yoe + era * 400 + 1 else yoe + era * 400) = Y
  simp only [Int.tdiv_eq_ediv_of_nonneg hsod, Int.tmod_eq_emod_of_nonneg hsod]
  rw [Int.tdiv_eq_ediv_of_nonneg (by omega)]
  unfold asU32 at *
  have hleap' : doy = 365 → IsLeap (yoe + era * 400 + 1) := by
    intro h
    have hleap := hleap h
    omega
  obtain ⟨hmonth, hin, hdays⟩ := month_of_year (Y := Y) (m := m) (d := d) hdoy hleap' hmp
    (by split at hm <;> split at hy <;> omega) (by omega)
  clear hy hm hd hmp hleap hleap'
  refine ⟨⟨hmonth, hin, by dsimp only; omega, by dsimp only; omega, by dsimp only; omega⟩, ?_⟩
  have h4 : (yoe + era * 400) / 4 = yoe / 4 + 100 * era := by omega
  have h100 : (yoe + era * 400) / 100 = yoe / 100 + 4 * era := by omega
  have h400 : (yoe + era * 400) / 400 = era := by omega
  simp only [Civil.unix, hdays, h4, h100, h400]
  clear hdays hin hmonth h4 h100 h400
  omega

/-- **Every count of seconds gives the valid date and time that many seconds from the epoch**, so
that the fields of later ones are later. -/
theorem civil_from_unix_exact : (∀ n, (civilFromUnix n).Valid ∧ (civilFromUnix n).unix = n) ∧
    ∀ n k, n < k → (civilFromUnix n).fields < (civilFromUnix k).fields := by
  refine ⟨civilFromUnix_spec, fun n k hlt => ?_⟩
  obtain ⟨hn, hnu⟩ := civilFromUnix_spec n
  obtain ⟨hk, hku⟩ := civilFromUnix_spec k
  obtain h | h | h := lt_trichotomy (civilFromUnix n).fields (civilFromUnix k).fields
  · exact h
  · have heq : (civilFromUnix n).unix = (civilFromUnix k).unix := by
      simp only [Civil.fields, List.cons.injEq, Nat.cast_inj] at h
      simp only [Civil.unix, h]
    omega
  · have hback := Civil.unix_lt hk hn h
    omega

end QueryFeed
end Resolver
end TortaCore
