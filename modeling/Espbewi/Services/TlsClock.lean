import Espbewi.Lib.Calendar
import Mathlib.Data.UInt

/-! `espbewi-tls`: epoch seconds as broken-down time. -/

namespace Espbewi.Tls

open Lib Calendar

/-- `mbedtls_rs::sys::tm`. -/
structure Tm where
  sec : Int
  min : Int
  hour : Int
  mday : Int
  mon : Int
  year : Int
  wday : Int
  yday : Int
  isdst : Int
  deriving DecidableEq

def CUMULATIVE : List Int := [0, 31, 59, 90, 120, 151, 181, 212, 243, 273, 304, 334]

/-- Year, month and day of a day since the epoch; the first half of `epoch_to_tm`. Divisions of
`i64` truncate (`tdiv`), `div_euclid` and `rem_euclid` are `/` and `%`. -/
def civil (days : Int) : Int × Int × Int :=
  let z := days + 719468
  let era := z / 146097
  let doe := z % 146097
  let yoe := (doe - doe.tdiv 1460 + doe.tdiv 36524 - doe.tdiv 146096).tdiv 365
  let doy := doe - (365 * yoe + yoe.tdiv 4 - yoe.tdiv 100)
  let mp := (5 * doy + 2).tdiv 153
  let day := doy - (153 * mp + 2).tdiv 5 + 1
  let month := if mp < 10 then mp + 3 else mp - 9
  let year := yoe + era * 400 + if month ≤ 2 then 1 else 0
  (year, month, day)

def leap (year : Int) : Bool := year.tmod 4 == 0 && (year.tmod 100 != 0 || year.tmod 400 == 0)

def ydayOf (year month day : Int) : Int :=
  CUMULATIVE.getD (month - 1).toNat 0 + day - 1 + if leap year ∧ month > 2 then 1 else 0

/-- `i64::try_from(x).ok()`. -/
def tryI64 (x : Nat) : Option Int := if x < 2 ^ 63 then some x else none

def epochToTm (epoch : UInt64) : Option Tm := do
  let days ← tryI64 (epoch / 86400).toNat
  let secs : Int := (epoch % 86400).toNat
  let (year, month, day) := civil days
  if ¬ (1970 ≤ year ∧ year ≤ 9999) then none
  return {
    sec := secs.tmod 60
    min := (secs.tdiv 60).tmod 60
    hour := secs.tdiv 3600
    mday := day
    mon := month - 1
    year := year - 1900
    wday := (days + 4) % 7
    yday := ydayOf year month day
    isdst := 0 }

/-! ### With explicit panics -/

/-- An `i64`, if it does not overflow. -/
def i64 (x : Int) : Option Int := if -2 ^ 63 ≤ x ∧ x < 2 ^ 63 then some x else none

/-- An `i32`, if it neither overflows nor is truncated by a cast. -/
def i32 (x : Int) : Option Int := if -2 ^ 31 ≤ x ∧ x < 2 ^ 31 then some x else none

/-- `CUMULATIVE[(month - 1) as usize]`. -/
def cumulative (month : Int) : Option Int := do
  let i ← i32 (month - 1)
  if 0 ≤ i then CUMULATIVE[i.toNat]? else none

def civilOrPanic (days : Int) : Option (Int × Int × Int) := do
  let z ← i64 (days + 719468)
  let era := z / 146097
  let doe := z % 146097
  let a ← i64 (doe - doe.tdiv 1460)
  let b ← i64 (a + doe.tdiv 36524)
  let c ← i64 (b - doe.tdiv 146096)
  let yoe := c.tdiv 365
  let d ← i64 (365 * yoe)
  let e ← i64 (d + yoe.tdiv 4)
  let f ← i64 (e - yoe.tdiv 100)
  let doy ← i64 (doe - f)
  let g ← i64 (5 * doy)
  let h ← i64 (g + 2)
  let mp := h.tdiv 153
  let k ← i64 (153 * mp)
  let l ← i64 (k + 2)
  let m ← i64 (doy - l.tdiv 5)
  let n ← i64 (m + 1)
  let day ← i32 n
  let p ← i64 (if mp < 10 then mp + 3 else mp - 9)
  let month ← i32 p
  let q ← i64 (era * 400)
  let r ← i64 (yoe + q)
  let year ← i64 (r + if month ≤ 2 then 1 else 0)
  return (year, month, day)

def ydayOrPanic (year month day : Int) : Option Int := do
  let before ← cumulative month
  let a ← i32 (before + day)
  let b ← i32 (a - 1)
  i32 (b + if leap year ∧ month > 2 then 1 else 0)

/-- `none` is a panic or a truncated cast, `some` what the function returns. -/
def epochToTmOrPanic (epoch : UInt64) : Option (Option Tm) :=
  match tryI64 (epoch / 86400).toNat with
  | none => some none
  | some days => do
    let secs ← i32 (epoch % 86400).toNat
    let (year, month, day) ← civilOrPanic days
    if ¬ (1970 ≤ year ∧ year ≤ 9999) then return none
    let yday ← ydayOrPanic year month day
    let mon ← i32 (month - 1)
    let since1900 ← i64 (year - 1900)
    let tmYear ← i32 since1900
    let shifted ← i64 (days + 4)
    let wday ← i32 (shifted % 7)
    return some {
      sec := secs.tmod 60
      min := (secs.tdiv 60).tmod 60
      hour := secs.tdiv 3600
      mday := day
      mon
      year := tmYear
      wday
      yday
      isdst := 0 }

/-! ### The civil date -/

theorem tryI64_eq {x : Nat} (h : x < 2 ^ 63) : tryI64 x = some (x : Int) := by
  unfold tryI64
  rw [if_pos h]

theorem yoe_eq (doe : Nat) : ((doe : Int) - (doe : Int).tdiv 1460 + (doe : Int).tdiv 36524
    - (doe : Int).tdiv 146096).tdiv 365 = ((yearOfEra doe : Nat) : Int) := by
  have hsum : (doe : Int) - (doe : Int).tdiv 1460 + (doe : Int).tdiv 36524
      - (doe : Int).tdiv 146096 = ((doe - doe / 1460 + doe / 36524 - doe / 146096 : Nat) : Int) := by
    have h1460 : (doe : Int).tdiv 1460 = ((doe / 1460 : Nat) : Int) := rfl
    have h36524 : (doe : Int).tdiv 36524 = ((doe / 36524 : Nat) : Int) := rfl
    have h146096 : (doe : Int).tdiv 146096 = ((doe / 146096 : Nat) : Int) := rfl
    omega
  rw [hsum]
  rfl

theorem doy_eq {doe yoe : Nat} (hlow : yoe < 400) (h : elapsed yoe ≤ doe) :
    (doe : Int) - (365 * (yoe : Int) + (yoe : Int).tdiv 4 - (yoe : Int).tdiv 100)
      = ((doe - elapsed yoe : Nat) : Int) := by
  have h4 : (yoe : Int).tdiv 4 = ((yoe / 4 : Nat) : Int) := rfl
  have h100 : (yoe : Int).tdiv 100 = ((yoe / 100 : Nat) : Int) := rfl
  unfold elapsed at *
  omega

/-- The date of a day since the epoch. -/
def dateOf (days : Nat) : Date := ofDay (days + 719468)

theorem civil_eq (days : Nat) : civil days
    = (((dateOf days).year : Int), ((dateOf days).month : Int) + 1, ((dateOf days).day : Int)) := by
  obtain ⟨hlow, hlo, hhi⟩ := yearOfEra_spec (Nat.mod_lt (days + 719468) (show 0 < 146097 by decide))
  have hz : (days : Int) + 719468 = ((days + 719468 : Nat) : Int) := by omega
  unfold civil dateOf ofDay ofMarch
  simp only [hz]
  generalize days + 719468 = z at *
  have hera : (z : Int) / 146097 = ((z / 146097 : Nat) : Int) := rfl
  have hmod : (z : Int) % 146097 = ((z % 146097 : Nat) : Int) := rfl
  simp only [hera, hmod]
  generalize z / 146097 = era
  generalize z % 146097 = doe at *
  simp only [yoe_eq]
  generalize yearOfEra doe = yoe at *
  simp only [doy_eq hlow hlo]
  have hdoy : doe - elapsed yoe < 366 := by
    have hlong := daysInYear_le (yoe + 1)
    rw [elapsed_succ] at hhi
    omega
  generalize doe - elapsed yoe = doy at *
  have hmp : (5 * (doy : Int) + 2).tdiv 153 = ((monthFromMarch doy : Nat) : Int) := rfl
  simp only [hmp]
  obtain ⟨hlast, hle, -⟩ := monthFromMarch_spec hdoy
  generalize monthFromMarch doy = mp at *
  have hday : (153 * (mp : Int) + 2).tdiv 5 = ((daysFromMarch mp : Nat) : Int) := rfl
  simp only [hday]
  refine Prod.ext ?_ (Prod.ext ?_ ?_)
  · simp only
    split_ifs <;> omega
  · simp only
    split_ifs <;> omega
  · simp only
    omega

theorem leap_natCast (year : Nat) : leap year = isLeap year := by
  have h4 : (year : Int).tmod 4 = ((year % 4 : Nat) : Int) := rfl
  have h100 : (year : Int).tmod 100 = ((year % 100 : Nat) : Int) := rfl
  have h400 : (year : Int).tmod 400 = ((year % 400 : Nat) : Int) := rfl
  rw [Bool.eq_iff_iff]
  simp only [leap, isLeap, h4, h100, h400, Bool.and_eq_true, Bool.or_eq_true, beq_iff_eq, bne_iff_ne]
  omega

theorem ydayOf_eq (year day : Nat) {month : Nat} (h : month < 12) (hday : 1 ≤ day) :
    ydayOf year ((month : Int) + 1) day = ((daysOfMonths year month + (day - 1) : Nat) : Int) := by
  have hindex : ((month : Int) + 1 - 1).toNat = month := by omega
  unfold ydayOf
  rw [leap_natCast, hindex]
  have hbefore : CUMULATIVE.getD month 0 = (daysOfMonths 1 month : Int) := by
    interval_cases month <;> rfl
  rw [hbefore, daysOfMonths_leap year]
  cases isLeap year with
  | false =>
    simp only [Bool.false_eq_true, false_and, if_false]
    omega
  | true =>
    simp only [true_and]
    split_ifs <;> omega

theorem dateOf_valid (days : Nat) : (dateOf days).Valid := (ofDay_spec (by omega)).1

theorem dateOf_number (days : Nat) : (dateOf days).number = days + 719162 := by
  have hnumber := (ofDay_spec (show 366 ≤ days + 719468 by omega)).2
  unfold dateOf
  omega

theorem since_1970 (days : Nat) : 1970 ≤ (dateOf days).year := by
  have hyear := (dateOf_valid days).year_le_iff 1969
  have helapsed : elapsed 1969 = 719162 := rfl
  rw [dateOf_number, helapsed] at hyear
  omega

theorem until_9999 (days : Nat) : (dateOf days).year ≤ 9999 ↔ days < 2932897 := by
  have helapsed : elapsed 9999 = 3652059 := rfl
  rw [(dateOf_valid days).year_le_iff, dateOf_number, helapsed]
  omega

/-! ### Overflow -/

theorem some_bind (x : α) (f : α → Option β) : (some x >>= f) = f x := rfl

theorem i64_bind {x : Int} (h : -2 ^ 63 ≤ x ∧ x < 2 ^ 63) (f : Int → Option α) :
    (i64 x >>= f) = f x := by
  unfold i64
  rw [if_pos h]
  rfl

theorem i32_bind {x : Int} (h : -2 ^ 31 ≤ x ∧ x < 2 ^ 31) (f : Int → Option α) :
    (i32 x >>= f) = f x := by
  unfold i32
  rw [if_pos h]
  rfl

theorem civilOrPanic_eq {days : Nat} (h : days < 2 ^ 48) : civilOrPanic days = some (civil days) := by
  obtain ⟨hlow, hlo, hhi⟩ := yearOfEra_spec (Nat.mod_lt (days + 719468) (show 0 < 146097 by decide))
  have hdoe := Nat.mod_lt (days + 719468) (show 146097 > 0 by decide)
  unfold civilOrPanic civil
  rw [i64_bind (by omega)]
  have hera : ((days : Int) + 719468) / 146097 = (((days + 719468) / 146097 : Nat) : Int) := rfl
  have hmod : ((days : Int) + 719468) % 146097 = (((days + 719468) % 146097 : Nat) : Int) := rfl
  simp only [hera, hmod]
  have heras : (days + 719468) / 146097 < 2 ^ 48 := by omega
  generalize (days + 719468) / 146097 = era at *
  generalize (days + 719468) % 146097 = doe at *
  have h1460 : (doe : Int).tdiv 1460 = ((doe / 1460 : Nat) : Int) := rfl
  have h36524 : (doe : Int).tdiv 36524 = ((doe / 36524 : Nat) : Int) := rfl
  have h146096 : (doe : Int).tdiv 146096 = ((doe / 146096 : Nat) : Int) := rfl
  rw [i64_bind (by omega), i64_bind (by omega), i64_bind (by omega)]
  simp only [yoe_eq]
  generalize yearOfEra doe = yoe at *
  have h4 : (yoe : Int).tdiv 4 = ((yoe / 4 : Nat) : Int) := rfl
  have h100 : (yoe : Int).tdiv 100 = ((yoe / 100 : Nat) : Int) := rfl
  rw [i64_bind (by omega), i64_bind (by omega), i64_bind (by omega), i64_bind (by omega)]
  simp only [doy_eq hlow hlo]
  have hdoy : doe - elapsed yoe ≤ 146096 := by omega
  generalize doe - elapsed yoe = doy at *
  have hmp : (5 * (doy : Int) + 2).tdiv 153 = (((5 * doy + 2) / 153 : Nat) : Int) := rfl
  rw [i64_bind (by omega), i64_bind (by omega)]
  simp only [hmp]
  have hmonth : (5 * doy + 2) / 153 ≤ 4774 := by omega
  generalize (5 * doy + 2) / 153 = mp at *
  have hday : (153 * (mp : Int) + 2).tdiv 5 = (((153 * mp + 2) / 5 : Nat) : Int) := rfl
  rw [i64_bind (by omega), i64_bind (by omega), i64_bind (by omega), i64_bind (by omega),
    i32_bind (by omega), i64_bind (by split <;> omega), i32_bind (by split <;> omega),
    i64_bind (by omega), i64_bind (by omega), i64_bind (by split_ifs <;> omega)]
  rfl

theorem cumulative_bind {month : Nat} (h : month < 12) (f : Int → Option α) :
    (cumulative ((month : Int) + 1) >>= f) = f (CUMULATIVE.getD month 0) := by
  interval_cases month <;> rfl

theorem ydayOrPanic_eq (year : Nat) {month day : Nat} (h : month < 12) (hday : day ≤ 31) :
    ydayOrPanic year ((month : Int) + 1) day = some (ydayOf year ((month : Int) + 1) day) := by
  have hindex : ((month : Int) + 1 - 1).toNat = month := by omega
  have hbefore : 0 ≤ CUMULATIVE.getD month 0 ∧ CUMULATIVE.getD month 0 ≤ 334 := by
    interval_cases month <;> decide
  unfold ydayOrPanic ydayOf
  rw [cumulative_bind h, hindex, i32_bind (by omega), i32_bind (by omega)]
  exact if_pos (by split <;> omega)

/-! ### The broken-down time -/

/-- What `epoch_to_tm` makes of a date, its day since the epoch and the second of that day. -/
def tmOf (d : Date) (days secs : Nat) : Tm where
  sec := (secs % 60 : Nat)
  min := (secs / 60 % 60 : Nat)
  hour := (secs / 3600 : Nat)
  mday := d.day
  mon := d.month
  year := d.year - 1900
  wday := ((days + 4) % 7 : Nat)
  yday := (daysOfMonths d.year d.month + (d.day - 1) : Nat)
  isdst := 0

theorem epochToTm_eq (epoch : UInt64) : epochToTm epoch =
    if epoch.toNat / 86400 < 2932897
    then some (tmOf (dateOf (epoch.toNat / 86400)) (epoch.toNat / 86400) (epoch.toNat % 86400))
    else none := by
  have hepoch := epoch.toNat_lt
  have hdays : (epoch / 86400).toNat = epoch.toNat / 86400 := UInt64.toNat_div ..
  have hsecs : (epoch % 86400).toNat = epoch.toNat % 86400 := UInt64.toNat_mod ..
  have htry := tryI64_eq (show epoch.toNat / 86400 < 2 ^ 63 by omega)
  unfold epochToTm
  rw [hdays, hsecs, htry]
  generalize epoch.toNat / 86400 = days
  generalize epoch.toNat % 86400 = secs
  have hcivil := civil_eq days
  have hyday := ydayOf_eq (dateOf days).year (dateOf days).day (dateOf_valid days).month
    (dateOf_valid days).day.1
  have hfrom := since_1970 days
  have huntil := until_9999 days
  generalize dateOf days = d at *
  have hmonth : (d.month : Int) + 1 - 1 = d.month := by omega
  rw [some_bind, hcivil]
  by_cases hlate : days < 2932897
  · simp only
    rw [if_neg (by omega), if_pos hlate, hyday, hmonth]
    rfl
  · simp only
    rw [if_pos (by omega), if_neg hlate]
    rfl

theorem epochToTmOrPanic_eq (epoch : UInt64) : epochToTmOrPanic epoch = some (epochToTm epoch) := by
  have hepoch := epoch.toNat_lt
  have hdays : (epoch / 86400).toNat = epoch.toNat / 86400 := UInt64.toNat_div ..
  have hsecs : (epoch % 86400).toNat = epoch.toNat % 86400 := UInt64.toNat_mod ..
  have htry := tryI64_eq (show epoch.toNat / 86400 < 2 ^ 63 by omega)
  have hsmall : epoch.toNat / 86400 < 2 ^ 48 := by omega
  have hsec : epoch.toNat % 86400 < 86400 := Nat.mod_lt _ (by decide)
  unfold epochToTmOrPanic
  rw [epochToTm_eq, hdays, hsecs, htry]
  generalize epoch.toNat / 86400 = days at hsmall ⊢
  generalize epoch.toNat % 86400 = secs at hsec ⊢
  have hcivil := civilOrPanic_eq hsmall
  rw [civil_eq] at hcivil
  obtain ⟨-, hmonth, hday⟩ := dateOf_valid days
  have hlong := daysInMonth_le (dateOf days).year (dateOf days).month
  have hyday := ydayOrPanic_eq (dateOf days).year hmonth (Nat.le_trans hday.2 hlong)
  rw [ydayOf_eq (dateOf days).year (dateOf days).day hmonth hday.1] at hyday
  have hfrom := since_1970 days
  have huntil := until_9999 days
  generalize dateOf days = d at *
  simp only
  rw [i32_bind (by omega), hcivil, some_bind]
  by_cases hlate : days < 2932897
  · simp only
    rw [if_neg (by omega), if_pos hlate, hyday, some_bind,
      i32_bind (by omega), i64_bind (by omega), i32_bind (by omega), i64_bind (by omega),
      i32_bind (by omega), show (d.month : Int) + 1 - 1 = d.month by omega]
    rfl
  · simp only
    rw [if_pos (by omega), if_neg hlate]
    rfl

/-- `tm` tells the time `epoch` on the date `d`. -/
structure Tm.Tells (tm : Tm) (epoch : Nat) (d : Date) : Prop where
  valid : d.Valid
  since : 1970 ≤ d.year
  year : tm.year = d.year - 1900
  month : tm.mon = d.month
  day : tm.mday = d.day
  hour : 0 ≤ tm.hour ∧ tm.hour < 24
  minute : 0 ≤ tm.min ∧ tm.min < 60
  second : 0 ≤ tm.sec ∧ tm.sec < 60
  time : ((∑ y ∈ Finset.Ico 1970 d.year, daysInYear y + daysOfMonths d.year d.month
    + (d.day - 1) : Nat) : Int) * 86400 + tm.hour * 3600 + tm.min * 60 + tm.sec = epoch
  yday : tm.yday = (daysOfMonths d.year d.month + (d.day - 1) : Nat)
  wday : tm.wday = ((4 + epoch / 86400) % 7 : Nat)
  isdst : tm.isdst = 0

theorem tmOf_tells (epoch : Nat) :
    (tmOf (dateOf (epoch / 86400)) (epoch / 86400) (epoch % 86400)).Tells epoch (dateOf (epoch / 86400)) where
  valid := dateOf_valid _
  since := since_1970 _
  year := rfl
  month := rfl
  day := rfl
  hour := by
    simp only [tmOf]
    omega
  minute := by
    simp only [tmOf]
    omega
  second := by
    simp only [tmOf]
    omega
  time := by
    have hnumber := dateOf_number (epoch / 86400)
    have hfrom := since_1970 (epoch / 86400)
    have hsum := sum_daysInYear (show 1969 ≤ (dateOf (epoch / 86400)).year - 1 by omega)
    rw [show (dateOf (epoch / 86400)).year - 1 + 1 = (dateOf (epoch / 86400)).year by omega,
      show 1969 + 1 = 1970 from rfl] at hsum
    have helapsed : elapsed 1969 = 719162 := rfl
    unfold Date.number at hnumber
    simp only [tmOf]
    omega
  yday := rfl
  wday := by
    simp only [tmOf]
    omega
  isdst := rfl

/-- `epoch_to_tm` is the Gregorian calendar up to the year 9999, and no step of it overflows,
truncates or leaves the table. -/
theorem epochToTm_calendar (epoch : UInt64) :
    epochToTmOrPanic epoch = some (epochToTm epoch)
      ∧ (epochToTm epoch = none ↔ 253402300800 ≤ epoch.toNat)
      ∧ ∀ tm, epochToTm epoch = some tm → ∃ d : Date, tm.Tells epoch.toNat d := by
  refine ⟨epochToTmOrPanic_eq epoch, ?_, ?_⟩
  · rw [epochToTm_eq]
    split
    · simp only [reduceCtorEq, false_iff]
      omega
    · simp only [true_iff]
      omega
  · intro tm h
    rw [epochToTm_eq] at h
    split at h
    · cases h
      exact ⟨_, tmOf_tells _⟩
    · cases h

end Espbewi.Tls
