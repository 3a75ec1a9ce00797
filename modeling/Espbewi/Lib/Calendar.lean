import Mathlib.Algebra.BigOperators.Intervals
import Mathlib.Algebra.Order.BigOperators.Group.Finset
import Mathlib.Tactic.IntervalCases

/-! The proleptic Gregorian calendar, and the arithmetic that finds a date from its day number. -/

namespace Lib.Calendar

def isLeap (y : Nat) : Bool := y % 4 == 0 && (y % 100 != 0 || y % 400 == 0)

def daysInYear (y : Nat) : Nat := if isLeap y then 366 else 365

/-- The length of a month, counted from January as 0. -/
def daysInMonth (y : Nat) : Nat → Nat
  | 1 => if isLeap y then 29 else 28
  | 3 | 5 | 8 | 10 => 30
  | _ => 31

theorem daysInMonth_le (y month : Nat) : daysInMonth y month ≤ 31 := by
  unfold daysInMonth
  split <;> [split; skip; skip; skip; skip; skip] <;> decide

/-- The days of the months before `month`. -/
def daysOfMonths (y month : Nat) : Nat := ∑ k ∈ Finset.range month, daysInMonth y k

/-- The days of the years 1 to `n`. -/
def elapsed (n : Nat) : Nat := 365 * n + n / 4 - n / 100 + n / 400

theorem daysInYear_le (y : Nat) : daysInYear y ≤ 366 := by
  unfold daysInYear
  split <;> decide

theorem isLeap_iff (y : Nat) : isLeap y = true ↔ 4 ∣ y ∧ (¬ 100 ∣ y ∨ 400 ∣ y) := by
  simp [isLeap, Nat.dvd_iff_mod_eq_zero]

theorem elapsed_succ (n : Nat) : elapsed (n + 1) = elapsed n + daysInYear (n + 1) := by
  have hle : n / 100 ≤ n / 4 := Nat.div_le_div_left (by decide) (by decide)
  have h400 : 400 ∣ n + 1 → 100 ∣ n + 1 := Dvd.dvd.trans (by decide)
  have h100 : 100 ∣ n + 1 → 4 ∣ n + 1 := Dvd.dvd.trans (by decide)
  simp only [elapsed, daysInYear, isLeap_iff, Nat.succ_div]
  split_ifs <;> omega

theorem elapsed_mono {m n : Nat} (h : m ≤ n) : elapsed m ≤ elapsed n := by
  induction n, h using Nat.le_induction with
  | base => exact Nat.le_refl _
  | succ n h ih =>
    rw [elapsed_succ]
    omega

/-- The days of the years after `a` up to `b`. -/
theorem sum_daysInYear {a b : Nat} (h : a ≤ b) :
    elapsed a + ∑ y ∈ Finset.Ico (a + 1) (b + 1), daysInYear y = elapsed b := by
  induction b, h using Nat.le_induction with
  | base => simp
  | succ b h ih => rw [Finset.sum_Ico_succ_top (by omega), ← Nat.add_assoc, ih, elapsed_succ]

/-! ### Dates -/

/-- A date; months count from January as 0, days of the month from 1. -/
structure Date where
  year : Nat
  month : Nat
  day : Nat
  deriving DecidableEq

structure Date.Valid (d : Date) : Prop where
  year : 1 ≤ d.year
  month : d.month < 12
  day : 1 ≤ d.day ∧ d.day ≤ daysInMonth d.year d.month

/-- The days from 1 January of year 1 to the date. -/
def Date.number (d : Date) : Nat := elapsed (d.year - 1) + (daysOfMonths d.year d.month + (d.day - 1))

theorem daysOfMonths_succ (y month : Nat) :
    daysOfMonths y (month + 1) = daysOfMonths y month + daysInMonth y month := Finset.sum_range_succ ..

theorem daysInMonth_february (y : Nat) : daysInMonth y 1 = 28 + if isLeap y then 1 else 0 := by
  show (if isLeap y then 29 else 28) = _
  split
  · rfl
  · rfl

theorem daysInMonth_congr (y y' : Nat) {month : Nat} (h : month ≠ 1) :
    daysInMonth y month = daysInMonth y' month := by
  unfold daysInMonth
  split
  · exact absurd rfl h
  · rfl
  · rfl
  · rfl
  · rfl
  · rfl

/-- A leap year has one day more from March on. -/
theorem daysOfMonths_leap (y month : Nat) :
    daysOfMonths y month = daysOfMonths 1 month + if isLeap y ∧ 2 ≤ month then 1 else 0 := by
  induction month with
  | zero => simp [daysOfMonths]
  | succ month ih =>
    rw [daysOfMonths_succ, daysOfMonths_succ, ih]
    by_cases hfeb : month = 1
    · subst hfeb
      have hcommon : daysInMonth 1 1 = 28 := rfl
      rw [daysInMonth_february, hcommon]
      cases isLeap y with
      | false => rfl
      | true => rfl
    · rw [daysInMonth_congr y 1 hfeb]
      cases isLeap y with
      | false => rfl
      | true =>
        simp only [true_and]
        split <;> split <;> omega

theorem daysOfMonths_year (y : Nat) : daysOfMonths y 12 = daysInYear y := by
  simp only [daysOfMonths, Finset.sum_range_succ, Finset.sum_range_zero, daysInMonth, daysInYear]
  split <;> rfl

/-- A date falls in its year. -/
theorem Date.Valid.number_lt {d : Date} (h : d.Valid) : d.number < elapsed d.year := by
  have hmonth : daysOfMonths d.year (d.month + 1) ≤ daysOfMonths d.year 12 :=
    Finset.sum_le_sum_of_subset (Finset.range_subset_range.mpr h.month)
  have helapsed := elapsed_succ (d.year - 1)
  rw [Nat.sub_add_cancel h.year] at helapsed
  rw [daysOfMonths_year, daysOfMonths_succ] at hmonth
  have hday := h.day
  unfold Date.number
  omega

theorem Date.Valid.year_le_iff {d : Date} (h : d.Valid) (y : Nat) :
    d.year ≤ y ↔ d.number < elapsed y := by
  constructor
  · intro hle
    exact Nat.lt_of_lt_of_le h.number_lt (elapsed_mono hle)
  · intro hlt
    by_contra hnot
    have hmono := elapsed_mono (show y ≤ d.year - 1 by omega)
    unfold Date.number at hlt
    omega

/-! ### Years that begin in March -/

/-- The year of a 400-year era that holds day `n` of it. -/
def yearOfEra (n : Nat) : Nat := (n - n / 1460 + n / 36524 - n / 146096) / 365

theorem yearOfEra_mono {m n : Nat} (h : m ≤ n) : yearOfEra m ≤ yearOfEra n := by
  induction n, h using Nat.le_induction with
  | base => exact Nat.le_refl _
  | succ n h ih =>
    refine Nat.le_trans ih (Nat.div_le_div_right ?_)
    omega

/-- The first and the last day of every year of an era. -/
theorem yearOfEra_ends : ∀ y < 400, yearOfEra (elapsed y) = y ∧ yearOfEra (elapsed (y + 1) - 1) = y := by
  decide +kernel

theorem yearOfEra_spec {n : Nat} (h : n < 146097) :
    yearOfEra n < 400 ∧ elapsed (yearOfEra n) ≤ n ∧ n < elapsed (yearOfEra n + 1) := by
  -- the year that holds day `n`
  have hyear : ∃ y < 400, elapsed y ≤ n ∧ n < elapsed (y + 1) := by
    have hbound : ∀ b, n < elapsed b → ∃ y < b, elapsed y ≤ n ∧ n < elapsed (y + 1) := by
      intro b hb
      induction b with
      | zero => exact absurd hb (Nat.not_lt_zero _)
      | succ b ih =>
        by_cases hlt : n < elapsed b
        · obtain ⟨y, hy, hin⟩ := ih hlt
          exact ⟨y, by omega, hin⟩
        · exact ⟨b, Nat.lt_succ_self b, by omega, hb⟩
    exact hbound 400 h
  obtain ⟨y, hy, hlo, hhi⟩ := hyear
  obtain ⟨hfirst, hlast⟩ := yearOfEra_ends y hy
  have heq : yearOfEra n = y := by
    have hle := yearOfEra_mono hlo
    have hge := yearOfEra_mono (show n ≤ elapsed (y + 1) - 1 by omega)
    omega
  rw [heq]
  exact ⟨hy, hlo, hhi⟩

def monthFromMarch (day : Nat) : Nat := (5 * day + 2) / 153

/-- The days of the months before `month`, counted from March. -/
def daysFromMarch (month : Nat) : Nat := (153 * month + 2) / 5

theorem monthFromMarch_spec {day : Nat} (h : day < 366) : monthFromMarch day < 12 ∧
    daysFromMarch (monthFromMarch day) ≤ day ∧ day < daysFromMarch (monthFromMarch day + 1) := by
  unfold monthFromMarch daysFromMarch
  omega

/-- The date of day `day` of the year that begins on 1 March of `y`. -/
def ofMarch (y day : Nat) : Date :=
  let month := monthFromMarch day
  { year := if month < 10 then y else y + 1
    month := if month < 10 then month + 2 else month - 10
    day := day - daysFromMarch month + 1 }

theorem daysFromMarch_succ (y : Nat) {month : Nat} (h : month < 10) :
    daysFromMarch (month + 1) = daysFromMarch month + daysInMonth y (month + 2) := by
  interval_cases month <;> rfl

/-- From March on. -/
theorem daysOfMonths_march (y : Nat) {month : Nat} (h : month < 10) :
    daysOfMonths y (month + 2) + 306 = daysInYear y + daysFromMarch month := by
  induction month with
  | zero =>
    simp only [daysOfMonths, Finset.sum_range_succ, Finset.sum_range_zero, daysInMonth, daysInYear,
      daysFromMarch]
    split <;> rfl
  | succ month ih =>
    have hmonths := ih (by omega)
    rw [daysOfMonths_succ, daysFromMarch_succ y (by omega)]
    omega

/-- January and February of the next year. -/
theorem daysOfMonths_january (y : Nat) {month : Nat} (hlo : 10 ≤ month) (h : month < 12) :
    daysOfMonths y (month - 10) + 306 = daysFromMarch month := by
  interval_cases month <;> rfl

theorem ofMarch_valid {y day : Nat} (hy : 1 ≤ y) (h : day < daysInYear (y + 1)) :
    (ofMarch y day).Valid := by
  have hday : day < 366 := by
    unfold daysInYear at h
    split at h <;> omega
  obtain ⟨hmonth, hlo, hhi⟩ := monthFromMarch_spec hday
  unfold ofMarch
  generalize monthFromMarch day = month at hmonth hlo hhi
  by_cases hm : month < 10
  · have hnext := daysFromMarch_succ y hm
    simp only [if_pos hm]
    exact ⟨hy, show month + 2 < 12 by omega, Nat.le_add_left .., by simp only; omega⟩
  · simp only [if_neg hm]
    refine ⟨Nat.le_add_left .., show month - 10 < 12 by omega, Nat.le_add_left .., ?_⟩
    obtain rfl | rfl : month = 10 ∨ month = 11 := by omega
    · show day - daysFromMarch 10 + 1 ≤ 31
      simp only [daysFromMarch] at *
      omega
    · show day - daysFromMarch 11 + 1 ≤ if isLeap (y + 1) then 29 else 28
      unfold daysInYear at h
      simp only [daysFromMarch] at *
      split at h
      · next hleap =>
        rw [if_pos hleap]
        omega
      · next hleap =>
        rw [if_neg hleap]
        omega

theorem ofMarch_number {y day : Nat} (hy : 1 ≤ y) (h : day < daysInYear (y + 1)) :
    (ofMarch y day).number + 306 = elapsed y + day := by
  have hday : day < 366 := by
    unfold daysInYear at h
    split at h <;> omega
  obtain ⟨hmonth, hlo, -⟩ := monthFromMarch_spec hday
  unfold ofMarch Date.number
  generalize monthFromMarch day = month at hmonth hlo
  by_cases hm : month < 10
  · have hmonths := daysOfMonths_march y hm
    have helapsed := elapsed_succ (y - 1)
    rw [Nat.sub_add_cancel hy] at helapsed
    simp only [if_pos hm]
    omega
  · have hmonths := daysOfMonths_january (y + 1) (show 10 ≤ month by omega) hmonth
    simp only [if_neg hm, Nat.add_sub_cancel]
    omega

/-! ### From day numbers to dates -/

/-- The date of day `n`, counted from 1 March of year 0. -/
def ofDay (n : Nat) : Date :=
  let era := n / 146097
  let year := yearOfEra (n % 146097)
  ofMarch (year + era * 400) (n % 146097 - elapsed year)

theorem elapsed_era (era y : Nat) : elapsed (y + era * 400) = elapsed y + era * 146097 := by
  unfold elapsed
  omega

/-- `ofDay` finds the date with the day's number. -/
theorem ofDay_spec {n : Nat} (h : 366 ≤ n) : (ofDay n).Valid ∧ (ofDay n).number + 306 = n := by
  have hdiv := Nat.div_add_mod n 146097
  obtain ⟨-, hlo, hhi⟩ := yearOfEra_spec (Nat.mod_lt n (show 0 < 146097 by decide))
  unfold ofDay
  generalize n / 146097 = era at hdiv
  generalize n % 146097 = day at hdiv hlo hhi
  generalize yearOfEra day = year at hlo hhi
  have helapsed := elapsed_era era year
  have hnext : elapsed (year + era * 400 + 1) = elapsed (year + 1) + era * 146097 := by
    rw [← elapsed_era, Nat.add_right_comm]
  have hyear := elapsed_succ (year + era * 400)
  have hpos : 1 ≤ year + era * 400 := by
    by_contra hzero
    have hyear : year = 0 := by omega
    subst hyear
    have : elapsed (0 + 1) = 365 := rfl
    omega
  have hday : day - elapsed year < daysInYear (year + era * 400 + 1) := by omega
  refine ⟨ofMarch_valid hpos hday, ?_⟩
  simp only
  rw [ofMarch_number hpos hday]
  omega

end Lib.Calendar
