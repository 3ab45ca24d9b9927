/-
  Dates of UNIX seconds (`unix_to_ymdhms`).

  The conversion counts days from March of year 0 in eras of 400 years. Within an era the year is
  read off with corrections at the end of each leap cycle, century and era (`exists_yearOfEra`),
  and from March on months are fifths of 153 days (`exists_date`). The calendar itself is written
  down by year and month lengths; `unixToYmdhms_exact` says that the conversion is its inverse.

  Differences are checked, all other numbers stay far below 64 bits, and only the year is cut to
  32.
-/
import Mathlib.Algebra.BigOperators.Intervals
import Mathlib.Algebra.Order.BigOperators.Group.Finset
import Mathlib.Tactic.IntervalCases

namespace Blut.Jobs

structure Ymdhms where
  year : Nat
  month : Nat
  day : Nat
  hour : Nat
  minute : Nat
  second : Nat
  deriving DecidableEq

/-- A difference of unsigned numbers; `none` is an underflow. -/
def checkedSub (a b : Nat) : Option Nat := if b ≤ a then some (a - b) else none

def unixToYmdhms (secs : Nat) : Option Ymdhms := do
  let days := secs / 86400
  let rem := secs % 86400
  -- civil from days
  let z := days + 719468
  let era := z / 146097
  let doe ← checkedSub z (era * 146097)
  let yoe := (← checkedSub ((← checkedSub doe (doe / 1460)) + doe / 36524) (doe / 146096)) / 365
  let y := yoe + era * 400
  let doy ← checkedSub doe (← checkedSub (365 * yoe + yoe / 4) (yoe / 100))
  let mp := (5 * doy + 2) / 153
  let d := (← checkedSub doy ((153 * mp + 2) / 5)) + 1
  let month := if mp < 10 then some (mp + 3) else checkedSub mp 9
  let m ← month
  let y := if m ≤ 2 then y + 1 else y
  return ⟨y % 2 ^ 32, m, d, rem / 3600, rem % 3600 / 60, rem % 60⟩

/-! ## The calendar -/

abbrev isLeap (y : Nat) : Prop := y % 4 = 0 ∧ (y % 100 ≠ 0 ∨ y % 400 = 0)

def yearLength (y : Nat) : Nat := if isLeap y then 366 else 365

def monthLength (y m : Nat) : Nat :=
  if m = 2 then if isLeap y then 29 else 28 else if m ∈ [4, 6, 9, 11] then 30 else 31

def daysBeforeYear (y : Nat) : Nat := ∑ k ∈ Finset.Ico 1970 y, yearLength k

def daysBeforeMonth (y m : Nat) : Nat := ∑ k ∈ Finset.Ico 1 m, monthLength y k

/-- A date and time of the calendar, from 1970 on. -/
structure Ymdhms.Valid (t : Ymdhms) : Prop where
  year : 1970 ≤ t.year
  month : 1 ≤ t.month ∧ t.month ≤ 12
  day : 1 ≤ t.day ∧ t.day ≤ monthLength t.year t.month
  hour : t.hour < 24
  minute : t.minute < 60
  second : t.second < 60

/-- Days from 1970-01-01 by year and month lengths, times 86400, plus the time of day. -/
def Ymdhms.toUnix (t : Ymdhms) : Nat :=
  (daysBeforeYear t.year + daysBeforeMonth t.year t.month + (t.day - 1)) * 86400
    + (t.hour * 3600 + t.minute * 60 + t.second)

/-- Compared in lexicographic order. -/
def Ymdhms.key (t : Ymdhms) : List Nat := [t.year, t.month, t.day, t.hour, t.minute, t.second]

/-- The part `r` of item `i` ends before item `j` begins. -/
theorem sum_add_lt {f : Nat → Nat} {a i j r : Nat} (ha : a ≤ i) (hij : i < j) (hr : r < f i) :
    ∑ k ∈ Finset.Ico a i, f k + r < ∑ k ∈ Finset.Ico a j, f k :=
  calc ∑ k ∈ Finset.Ico a i, f k + r < ∑ k ∈ Finset.Ico a (i + 1), f k := by
        rw [Finset.sum_Ico_succ_top ha]; omega
    _ ≤ ∑ k ∈ Finset.Ico a j, f k :=
        Finset.sum_le_sum_of_subset (Finset.Ico_subset_Ico_right hij)

theorem daysBeforeMonth_end (y : Nat) : daysBeforeMonth y 13 = yearLength y := by
  simp [daysBeforeMonth, yearLength, monthLength, Finset.sum_Ico_succ_top]
  split_ifs <;> rfl

/-- From March on, months are counted in fifths of 153 days. -/
theorem daysBeforeMonth_march (y : Nat) {mp : Nat} (h : mp < 10) :
    daysBeforeMonth y (mp + 3) + 306 = (153 * mp + 2) / 5 + yearLength y := by
  interval_cases mp <;>
    simp [daysBeforeMonth, yearLength, monthLength, Finset.sum_Ico_succ_top] <;>
    split_ifs <;> rfl

/-- The year begins 306 days after March of the year before. -/
theorem daysBeforeYear_eq {y : Nat} (h : 1969 ≤ y) :
    daysBeforeYear (y + 1) + 719468 = 365 * y + y / 4 - y / 100 + y / 400 + 306 := by
  induction y, h using Nat.le_induction with
  | base => rfl
  | succ y h ih =>
    rw [daysBeforeYear, Finset.sum_Ico_succ_top (by omega), ← daysBeforeYear, yearLength]
    split_ifs <;> omega

theorem Ymdhms.toUnix_lt {t u : Ymdhms} (ht : t.Valid) (hu : u.Valid) (h : t.key < u.key) :
    t.toUnix < u.toUnix := by
  obtain ⟨y, m, d, hh, mi, se⟩ := t
  obtain ⟨y', m', d', hh', mi', se'⟩ := u
  obtain ⟨hy, ⟨hm, hm'⟩, ⟨hd, hd'⟩, hhour, hmin, hsec⟩ := ht
  obtain ⟨-, -, ⟨hud, -⟩, -, -, -⟩ := hu
  simp only [Ymdhms.key, List.cons_lt_cons_iff, Ymdhms.toUnix] at *
  have hmonth {j : Nat} (hj : m < j) : daysBeforeMonth y m + (d - 1) < daysBeforeMonth y j :=
    sum_add_lt hm hj (by omega)
  have hyear {j : Nat} (hj : y < j) :
      daysBeforeYear y + (daysBeforeMonth y m + (d - 1)) < daysBeforeYear j :=
    sum_add_lt hy hj (daysBeforeMonth_end y ▸ hmonth (by omega))
  rcases h with h | ⟨rfl, h | ⟨rfl, h | ⟨rfl, h | ⟨rfl, h | ⟨rfl, h | ⟨_, h⟩⟩⟩⟩⟩⟩
  · have := hyear h
    omega
  · have := hmonth h
    omega
  all_goals first | omega | exact absurd h (by simp)

theorem Ymdhms.year_lt {t : Ymdhms} {limit : Nat} (h : t.toUnix / 86400 < daysBeforeYear limit) :
    t.year < limit := by
  by_contra hge
  have hle : daysBeforeYear limit ≤ daysBeforeYear t.year :=
    Finset.sum_le_sum_of_subset (Finset.Ico_subset_Ico_right (not_lt.mp hge))
  rw [Ymdhms.toUnix] at h
  omega

/-! ## Civil from days -/

/-- Day `doe` of era `e` is day `s` of the year that begins in March of year `yoe` of the era. -/
theorem exists_yearOfEra {doe : Nat} (h : doe < 146097) (e : Nat) : ∃ yoe y s,
    doe / 146096 ≤ doe - doe / 1460 + doe / 36524 ∧
    (doe - doe / 1460 + doe / 36524 - doe / 146096) / 365 = yoe ∧ yoe + e * 400 = y ∧
    365 * yoe + yoe / 4 = yoe / 100 + (doe - s) ∧ doe = doe - s + s ∧
    e * 146097 + doe = 365 * y + y / 4 - y / 100 + y / 400 + s ∧
    (s < 365 ∨ s = 365 ∧ isLeap (y + 1)) := by
  -- by century, leap cycle and year, of which the last of each kind is the longer one
  obtain ⟨c, q, r, s, hdoe, hc, hq, hr, hs⟩ : ∃ c q r s,
      doe = 36524 * c + 1461 * q + 365 * r + s ∧ c < 4 ∧ q < 25 ∧ r < 4 ∧
        (s < 365 ∨ s = 365 ∧ r = 3 ∧ (q < 24 ∨ c = 3)) := by
    obtain ⟨c, hc⟩ : ∃ c, c = min (doe / 36524) 3 := ⟨_, rfl⟩
    obtain ⟨q, hq⟩ : ∃ q, q = min ((doe - 36524 * c) / 1461) 24 := ⟨_, rfl⟩
    obtain ⟨r, hr⟩ : ∃ r, r = min ((doe - 36524 * c - 1461 * q) / 365) 3 := ⟨_, rfl⟩
    exact ⟨c, q, r, doe - 36524 * c - 1461 * q - 365 * r, by omega, by omega, by omega, by omega,
      by omega⟩
  have hlast : 1461 * q + 365 * r + s < 36524 ∨ doe = 146096 ∧ c = 3 := by omega
  have hcentury : doe / 36524 = c + doe / 146096 := by
    rcases hlast with hlast | ⟨rfl, rfl⟩ <;> omega
  have hcycle : doe / 1460 = 25 * c + q ∨ s ≠ 0 ∧ doe / 1460 = 25 * c + q + 1 := by omega
  have hleap : s = 365 → doe / 1460 = 25 * c + q + 1 := by omega
  have hquot : doe / 146096 ≤ doe - doe / 1460 + doe / 36524 ∧
      (doe - doe / 1460 + doe / 36524 - doe / 146096) / 365 = 100 * c + 4 * q + r := by omega
  clear hlast hcentury hcycle hleap
  obtain ⟨yoe, hyoe⟩ : ∃ yoe, yoe = 100 * c + 4 * q + r := ⟨_, rfl⟩
  have hyears : yoe / 4 = 25 * c + q ∧ yoe / 100 = c := by omega
  obtain ⟨y, hy⟩ : ∃ y, yoe + e * 400 = y := ⟨_, rfl⟩
  have hera : y / 4 = yoe / 4 + e * 100 ∧ y / 100 = yoe / 100 + e * 4 ∧ y / 400 = e := by omega
  exact ⟨yoe, y, s, hquot.1, hquot.2.trans hyoe.symm, hy, by omega, by omega, by omega,
    hs.imp_right fun h => ⟨h.1, by clear hs hquot hdoe hyears; omega⟩⟩

/-- Day `s` of the year that begins in March of `y` is day `d` behind the first of month `m`. -/
theorem exists_date {z y s mp : Nat} (hmp : mp = (5 * s + 2) / 153)
    (hz : z + 719468 = 365 * y + y / 4 - y / 100 + y / 400 + s)
    (hs : s < 365 ∨ s = 365 ∧ isLeap (y + 1)) :
    ∃ year m d, (if mp < 10 then some (mp + 3) else checkedSub mp 9) = some m ∧
      (if m ≤ 2 then y + 1 else y) = year ∧ checkedSub s ((153 * mp + 2) / 5) = some d ∧
      1970 ≤ year ∧ 1 ≤ m ∧ m ≤ 12 ∧ d < monthLength year m ∧
      daysBeforeYear year + daysBeforeMonth year m + d = z := by
  have hd : checkedSub s ((153 * mp + 2) / 5) = some (s - (153 * mp + 2) / 5) := if_pos (by omega)
  by_cases hlt : mp < 10
  · have hyear : 1970 ≤ y := by
      obtain rfl | hy : y = 1969 ∨ y ≠ 1969 := by omega
      · omega
      · omega
    have hmarch := daysBeforeMonth_march y hlt
    have hdays := daysBeforeYear_eq (y := y) (by omega)
    rw [daysBeforeYear, Finset.sum_Ico_succ_top hyear, ← daysBeforeYear] at hdays
    refine ⟨y, mp + 3, _, if_pos hlt, if_neg (by omega), hd, hyear, by omega, by omega, ?_, ?_⟩
    · interval_cases mp <;> simp [monthLength] <;> omega
    · omega
  · have hdays := daysBeforeYear_eq (y := y) (by omega)
    refine ⟨y + 1, mp - 9, _, (if_neg hlt).trans (if_pos (by omega)), if_pos (by omega), hd,
      by omega, by omega, by omega, ?_, ?_⟩
    · obtain rfl | rfl : mp = 10 ∨ mp = 11 := by omega
      · simp [monthLength]
        omega
      · rcases hs with hs | ⟨rfl, hleap⟩
        · simp only [monthLength]
          split_ifs <;> omega
        · simp only [monthLength, if_pos hleap]
          decide
    · obtain rfl | rfl : mp = 10 ∨ mp = 11 := by omega
      all_goals simp [daysBeforeMonth, monthLength]; omega

theorem checkedSub_eq_some {a b c : Nat} (h : a = b + c) : checkedSub a b = some c := by
  simp [checkedSub, h]

theorem exists_unixToYmdhms (secs : Nat) : ∃ t : Ymdhms,
    unixToYmdhms secs = some { t with year := t.year % 2 ^ 32 } ∧ t.Valid ∧ t.toUnix = secs := by
  have htime : secs / 86400 * 86400 + (secs % 86400 / 3600 * 3600 + secs % 86400 % 3600 / 60 * 60
      + secs % 86400 % 60) = secs := by omega
  obtain ⟨z, hz⟩ : ∃ z, secs / 86400 + 719468 = z := ⟨_, rfl⟩
  obtain ⟨doe, hdoe, hlt⟩ : ∃ doe, z = z / 146097 * 146097 + doe ∧ doe < 146097 :=
    ⟨z % 146097, by omega, by omega⟩
  obtain ⟨yoe, y, s, hle, hyoe, hy, hsum, hdoy, hday, hs⟩ := exists_yearOfEra hlt (z / 146097)
  obtain ⟨year, m, d, hm, hyear, hd, hlow, hmonth, hmonth', hlast, hback⟩ :=
    exists_date rfl (hz.trans (hdoe.trans hday)) hs
  refine ⟨⟨year, m, d + 1, secs % 86400 / 3600, secs % 86400 % 3600 / 60, secs % 86400 % 60⟩,
    ?_, ?_, ?_⟩
  · have hcycles := checkedSub_eq_some (Nat.add_sub_of_le (Nat.div_le_self doe 1460)).symm
    have heras := checkedSub_eq_some (Nat.add_sub_of_le hle).symm
    simp only [unixToYmdhms, hz, checkedSub_eq_some hdoe, hcycles, heras, hyoe,
      checkedSub_eq_some hsum, checkedSub_eq_some hdoy, hd, hm, hy, hyear, Option.bind_eq_bind,
      Option.bind_some, Option.pure_def]
  · exact ⟨hlow, ⟨hmonth, hmonth'⟩, ⟨Nat.succ_pos d, hlast⟩, by dsimp only; omega,
      by dsimp only; omega, by dsimp only; omega⟩
  · rw [Ymdhms.toUnix, Nat.add_sub_cancel, hback, htime]

/-- Seconds before year `2 ^ 32` convert to their date and time, without an underflow and in
    order. -/
theorem unixToYmdhms_exact :
    (∀ secs, secs / 86400 < daysBeforeYear (2 ^ 32) →
      ∃ t, unixToYmdhms secs = some t ∧ t.Valid ∧ t.toUnix = secs) ∧
    ∀ secs secs' t t', secs / 86400 < daysBeforeYear (2 ^ 32) →
      secs' / 86400 < daysBeforeYear (2 ^ 32) →
      unixToYmdhms secs = some t → unixToYmdhms secs' = some t' →
      (t = t' → secs = secs') ∧ (secs < secs' → t.key < t'.key) := by
  have hexact (secs : Nat) (h : secs / 86400 < daysBeforeYear (2 ^ 32)) :
      ∃ t, unixToYmdhms secs = some t ∧ t.Valid ∧ t.toUnix = secs := by
    obtain ⟨t, hrun, hvalid, hback⟩ := exists_unixToYmdhms secs
    have hyear := Ymdhms.year_lt (hback.symm ▸ h)
    exact ⟨t, by rw [hrun, Nat.mod_eq_of_lt hyear], hvalid, hback⟩
  refine ⟨hexact, fun secs secs' t t' h h' ht ht' => ?_⟩
  obtain ⟨_, hrun, hvalid, hback⟩ := hexact secs h
  obtain ⟨_, hrun', hvalid', hback'⟩ := hexact secs' h'
  cases ht.symm.trans hrun
  cases ht'.symm.trans hrun'
  refine ⟨fun heq => by rw [← hback, ← hback', heq], fun hlt => ?_⟩
  rcases lt_trichotomy t.key t'.key with hkey | hkey | hkey
  · exact hkey
  · obtain ⟨_, _, _, _, _, _⟩ := t
    obtain ⟨_, _, _, _, _, _⟩ := t'
    cases hkey
    omega
  · have := Ymdhms.toUnix_lt hvalid' hvalid hkey
    omega

example : unixToYmdhms 951782399 = some ⟨2000, 2, 28, 23, 59, 59⟩ := by decide

end Blut.Jobs
