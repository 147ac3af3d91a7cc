import Mathlib.Data.Prod.Lex
import Hadris.Checked
import Hadris.Date

namespace Hadris

namespace Checked

variable {ε : Type}

def i64 (n : Int) : Checked ε Int := if -2 ^ 63 ≤ n ∧ n < 2 ^ 63 then pure n else overflow

theorem i64_of_fits {n : Int} (hlow : -2 ^ 63 ≤ n) (hhigh : n < 2 ^ 63) :
    (i64 n : Checked ε Int) = pure n :=
  if_pos ⟨hlow, hhigh⟩

def asU8 (n : Int) : Nat := (n % 256).toNat

def asI32 (n : Int) : Int := n.bmod (2 ^ 32)

theorem asI32_of_fits {n : Int} (hlow : -2 ^ 31 ≤ n) (hhigh : n < 2 ^ 31) : asI32 n = n :=
  Int.bmod_eq_of_le (by omega) (by omega)

end Checked

/-- Why a date or time value was rejected. -/
inductive DateTimeError where
  | invalidNanoseconds
  | invalidOffset
  | invalidCivil
  | outOfRange
deriving DecidableEq, Repr

namespace Instant

open Checked Civil

section

variable {ε : Type}

def secsPerDay : Int := 86400

def daysFromCivil (year : Int) (month day : Nat) : Checked ε Int := do
  let m : Int := month
  let d : Int := day
  let y ← (if m ≤ 2 then i64 (year - 1) else pure year)
  let era := y / 400
  let yoe ← i64 (y - (← i64 (era * 400)))
  let mp ← (if 2 < m then i64 (m - 3) else i64 (m + 9))
  let doy ← i64 ((← i64 (((← i64 ((← i64 (153 * mp)) + 2)).tdiv 5) + d)) - 1)
  let doe ← i64 ((← i64 ((← i64 ((← i64 (yoe * 365)) + yoe.tdiv 4)) - yoe.tdiv 100)) + doy)
  i64 ((← i64 ((← i64 (era * 146097)) + doe)) - 719468)

def civilFromDays (days : Int) : Checked ε (Int × Nat × Nat) := do
  let z ← i64 (days + 719468)
  let era := z / 146097
  let doe ← i64 (z - (← i64 (era * 146097)))
  let yoe :=
    (← i64 ((← i64 ((← i64 (doe - doe.tdiv 1460)) + doe.tdiv 36524)) - doe.tdiv 146096)).tdiv 365
  let doy ← i64 (doe - (← i64 ((← i64 ((← i64 (365 * yoe)) + yoe.tdiv 4)) - yoe.tdiv 100)))
  let mp := (← i64 ((← i64 (5 * doy)) + 2)).tdiv 153
  let day := asU8 (← i64 ((← i64 (doy - (← i64 ((← i64 (153 * mp)) + 2)).tdiv 5)) + 1))
  let month := asU8 (← (if mp < 10 then i64 (mp + 3) else i64 (mp - 9)))
  let year ← i64 ((← i64 (yoe + (← i64 (era * 400)))) + if month ≤ 2 then 1 else 0)
  pure (year, month, day)

/-- The earliest and the latest supported second. -/
example : (do i64 ((← daysFromCivil (-32768) 1 1) * secsPerDay) : Checked Unit Int) =
    pure DateTime.minSeconds := rfl

example :
    (do i64 ((← i64 ((← i64 ((← daysFromCivil 32767 12 31) * secsPerDay)) + secsPerDay)) -
      1) : Checked Unit Int) =
    pure DateTime.maxSeconds := rfl

end

end Instant

/-- The order of dates and times is that of their fields. -/
instance : LT CivilDate :=
  ⟨fun a b => a.year < b.year ∨ a.year = b.year ∧
    (a.month < b.month ∨ a.month = b.month ∧ a.day < b.day)⟩

instance : LT CivilTime :=
  ⟨fun a b => a.hour < b.hour ∨ a.hour = b.hour ∧
    (a.minute < b.minute ∨ a.minute = b.minute ∧ a.second < b.second)⟩

/-- The fields of a date and a time, whatever they hold. -/
structure CivilFields where
  year : Int
  month : Nat
  day : Nat
  hour : Nat
  minute : Nat
  second : Nat
deriving DecidableEq, Repr

def CivilFields.of (date : CivilDate) (time : CivilTime) : CivilFields :=
  ⟨date.year, date.month, date.day, time.hour, time.minute, time.second⟩

namespace Instant

open Checked Civil

def new (seconds : Int) (nanoseconds : Nat) : Except DateTimeError ZonedDateTime :=
  if 1000000000 ≤ nanoseconds then .error .invalidNanoseconds
  else match ZonedDateTime.new seconds nanoseconds with
    | some time => .ok time
    | none => .error .outOfRange

def secondsOfDay {ε : Type} (time : CivilTime) : Checked ε Int := do
  i64 ((← i64 ((← i64 (time.hour * 3600)) + (← i64 (time.minute * 60)))) + time.second)

def fromCivil (date : CivilDate) (time : CivilTime) (offsetMinutes : Option Int) :
    Checked DateTimeError ZonedDateTime :=
  if h : checkOffset offsetMinutes = true then do
    let offset := offsetMinutes.getD 0
    let shown ← i64 ((← i64 ((← daysFromCivil date.year date.month date.day) * secsPerDay)) +
      (← secondsOfDay time))
    let seconds ← i64 (shown - (← i64 (offset * 60)))
    let value ← lift (new seconds 0)
    pure { value with offsetMinutes := offsetMinutes, checked := h }
  else lift (.error .invalidOffset)

def toCivil {ε : Type} (time : ZonedDateTime) : Checked ε CivilFields := do
  let offset := time.offsetMinutes.getD 0
  let shown ← i64 (time.unixSeconds + (← i64 (offset * 60)))
  let days := shown / secsPerDay
  let secs := shown % secsPerDay
  let date ← civilFromDays days
  pure ⟨asI32 date.1, date.2.1, date.2.2, asU8 (secs.tdiv 3600), asU8 ((secs.tdiv 60).tmod 60),
    asU8 (secs.tmod 60)⟩

end Instant

namespace Civil

open Calendar

def civilOfDays (days : Int) : Int × Nat × Nat :=
  let doe := ((days + 719468) % 146097).toNat
  let yoe := yearOf doe
  let doy := doe - yearStart yoe
  let month := if monthOf doy < 10 then monthOf doy + 3 else monthOf doy - 9
  (yoe + (days + 719468) / 146097 * 400 + if month ≤ 2 then 1 else 0, month,
    doy - monthStart (monthOf doy) + 1)

theorem exists_yearOf {doe : Nat} (h : doe < 146097) :
    ∃ doy, doe = yearStart (yearOf doe) + doy ∧ yearOf doe < 400 ∧ doy ≤ 365 := by
  obtain ⟨yoe, doy, hyoe, hin, rfl⟩ := exists_year h
  rw [yearOf_eq hyoe hin]
  refine ⟨doy, rfl, hyoe, ?_⟩
  rw [InYear] at hin
  omega

theorem daysInMonth_le (year : Int) (month : Nat) : daysInMonth year month ≤ 31 := by
  unfold daysInMonth
  split <;> first | decide | (split <;> decide)

end Civil

namespace Instant

open Checked Civil Calendar

variable {ε : Type} {days : Int}

theorem yearOf_cast (doe : Nat) :
    ((doe : Int) - doe / 1460 + doe / 36524 - doe / 146096) / 365 = yearOf doe := by
  rw [yearOf]
  omega

theorem yearStart_cast (yoe : Nat) : (365 * yoe + yoe / 4 - yoe / 100 : Int) = yearStart yoe := by
  rw [yearStart]
  omega

theorem monthOf_cast (doy : Nat) : (5 * doy + 2 : Int) / 153 = monthOf doy := by
  rw [monthOf]
  omega

theorem monthStart_cast (month : Nat) : (153 * month + 2 : Int) / 5 = monthStart month := by
  rw [monthStart]
  omega

theorem monthStart_succ_le (month : Nat) : monthStart (month + 1) ≤ monthStart month + 31 := by
  rw [monthStart, monthStart]
  omega

theorem monthOf_le {doy : Nat} (h : doy ≤ 365) : monthOf doy ≤ 11 := by
  rw [monthOf]
  omega

theorem month_cast (mp : Nat) :
    (if (mp : Int) < 10 then pure (mp + 3) else pure (mp - 9) : Checked ε Int) =
    pure (if (mp : Int) < 10 then (mp : Int) + 3 else mp - 9) := by
  split <;> rfl

theorem asU8_month {mp : Nat} (h : mp ≤ 11) :
    asU8 (if (mp : Int) < 10 then (mp : Int) + 3 else mp - 9) =
    if mp < 10 then mp + 3 else mp - 9 := by
  rw [asU8]
  split <;> split <;> omega

theorem civilFromDays_eq (hlow : -2 ^ 62 ≤ days) (hhigh : days < 2 ^ 62) :
    (civilFromDays days : Checked ε _) = pure (civilOfDays days) := by
  have hera := Int.mul_ediv_add_emod (days + 719468) 146097
  obtain ⟨doe, hdoe⟩ : ∃ doe : Nat, (days + 719468) % 146097 = doe :=
    Int.eq_ofNat_of_zero_le (Int.emod_nonneg _ (by decide))
  have hlt : doe < 146097 := by omega
  rw [civilOfDays, hdoe, Int.toNat_natCast]
  rw [hdoe] at hera
  rw [civilFromDays, i64_of_fits (by omega) (by omega), pure_bind]
  clear hdoe
  generalize (days + 719468) / 146097 = era at hera ⊢
  obtain ⟨doy, hdoy, hyoe, hle⟩ := exists_yearOf hlt
  have hmonth := monthOf_le hle
  obtain ⟨hstart, hstop⟩ := monthStart_monthOf doy
  have hlength := monthStart_succ_le (monthOf doy)
  have hera' : days + 719468 - era * 146097 = doe := by omega
  have hback : doe - yearStart (yearOf doe) = doy := by omega
  have hdoy' : (doe : Int) - yearStart (yearOf doe) = doy := by omega
  have hday : asU8 ((doy : Int) - monthStart (monthOf doy) + 1) = doy - monthStart
      (monthOf doy) + 1 := by
    rw [asU8]
    omega
  rw [hback]
  clear hback hstop hlength
  simp (disch := omega) only [i64_of_fits, pure_bind, Int.tdiv_eq_ediv_of_nonneg, hera',
    yearOf_cast, yearStart_cast, hdoy',
    monthOf_cast, monthStart_cast, hday, month_cast, asU8_month hmonth]

theorem daysFromCivil_eq {year : Int} {month day : Nat} (hlow : -2 ^ 31 ≤ year)
    (hhigh : year < 2 ^ 31)
    (h : IsDate year month day) : (daysFromCivil year month day : Checked ε _) =
      pure (Civil.daysFromCivil year month day) := by
  obtain ⟨hmonth, hmonth', hday, hday'⟩ := h
  have hlast := daysInMonth_le year month
  rw [daysFromCivil, Civil.daysFromCivil]
  dsimp only
  have hmarch : (if (2 : Int) < month then i64 (month - 3) else i64 (month + 9) : Checked ε Int) =
      pure (((if 2 < month then month - 3 else month + 9 : Nat)) : Int) := by
    split
    · rw [i64_of_fits (by omega) (by omega), if_pos (by omega)]
      congr 1
      omega
    · rw [i64_of_fits (by omega) (by omega), if_neg (by omega)]
      rfl
  have hyear : (if (month : Int) ≤ 2 then i64 (year - 1) else pure year : Checked ε Int) =
      pure (if month ≤ 2 then year - 1 else year) := by
    split
    · rw [i64_of_fits (by omega) (by omega), if_pos (by omega)]
    · rw [if_neg (by omega)]
  have hy : -2 ^ 32 ≤ (if month ≤ 2 then year - 1 else year) ∧
      (if month ≤ 2 then year - 1 else year) < 2 ^ 31 := by
    split <;> omega
  have hmp : (if 2 < month then month - 3 else month + 9) ≤ 11 := by
    split <;> omega
  rw [hyear, hmarch, pure_bind]
  generalize (if month ≤ 2 then year - 1 else year) = y at hy ⊢
  generalize (if 2 < month then month - 3 else month + 9) = mp at hmp ⊢
  have hyoe : ((y - y / 400 * 400).toNat : Int) = y - y / 400 * 400 := by omega
  generalize (y - y / 400 * 400).toNat = yoe at hyoe ⊢
  simp (disch := omega) only [i64_of_fits, pure_bind, Int.tdiv_eq_ediv_of_nonneg, ← hyoe]
  congr 1
  omega

end Instant

namespace Civil

open Calendar

variable {year : Int} {month day : Nat}

theorem isLeapYear_shift (year k : Int) : isLeapYear (year + 400 * k) = isLeapYear year := by
  rw [Bool.eq_iff_iff, isLeapYear_iff, isLeapYear_iff]
  omega

theorem isDate_shift (k : Int) : IsDate (year + 400 * k) month day ↔ IsDate year month day := by
  simp only [IsDate, daysInMonth, isLeapYear_shift]

theorem daysFromCivil_shift (year k : Int) (month day : Nat) :
    daysFromCivil (year + 400 * k) month day = daysFromCivil year month day + 146097 * k := by
  have hyear : (if month ≤ 2 then year + 400 * k - 1 else year + 400 * k) =
      (if month ≤ 2 then year - 1 else year) + 400 * k := by
    split <;> omega
  simp only [daysFromCivil, hyear]
  generalize (if month ≤ 2 then year - 1 else year) = y
  have hera : (y + 400 * k) / 400 = y / 400 + k := by omega
  have hyoe : y + 400 * k - (y / 400 + k) * 400 = y - y / 400 * 400 := by omega
  rw [hera, hyoe]
  omega

theorem civilOfDays_shift (days k : Int) :
    civilOfDays (days + 146097 * k) = ((civilOfDays days).1 + 400 * k, (civilOfDays days).2) := by
  have hera : (days + 146097 * k + 719468) / 146097 = (days + 719468) / 146097 + k := by omega
  have hdoe : (days + 146097 * k + 719468) % 146097 = (days + 719468) % 146097 := by omega
  simp only [civilOfDays, hera, hdoe]
  refine Prod.ext ?_ rfl
  dsimp only
  omega

theorem civilOfDays_nat (days : Nat) :
    civilOfDays (days + 3652) =
      (((Date.civilFromDays days).1 : Int), (Date.civilFromDays days).2.1,
        (Date.civilFromDays days).2.2) := by
  have hera : ((days : Int) + 3652 + 719468) / 146097 =
    ((days + 723120) / 146097 : Nat) := by omega
  have hdoe : ((days : Int) + 3652 + 719468) % 146097 =
    (days + 723120 - (days + 723120) / 146097 * 146097 : Nat) := by omega
  rw [civilOfDays, Date.civilFromDays, hera, hdoe, Int.toNat_natCast]
  dsimp only
  generalize days + 723120 - (days + 723120) / 146097 * 146097 = doe
  generalize (days + 723120) / 146097 = era
  rw [← yearOf, Nat.mul_comm 365, ← yearStart]
  generalize yearOf doe = yoe
  generalize doe - yearStart yoe = doy
  rw [← monthOf, ← monthStart]
  refine Prod.ext ?_ rfl
  dsimp only
  rw [Int.natCast_add, Int.natCast_add, Int.natCast_mul, Nat.cast_ite]
  rfl

theorem exists_shift (bound n : Int) : ∃ k : Int, bound ≤ n + 400 * k ∧ bound ≤ n + 146097 * k :=
  ⟨(bound - n).toNat, by omega, by omega⟩

theorem civilOfDays_daysFromCivil (h : IsDate year month day) :
    civilOfDays (daysFromCivil year month day) = (year, month, day) := by
  obtain ⟨k, hyear, -⟩ := exists_shift 1980 year
  have hshift := (isDate_shift k).mpr h
  have hfirst := daysFromCivil_mono (by decide) hyear
  have hlow := (daysFromCivil_bounds hshift (by omega)).1
  have hepoch : daysFromCivil 1980 1 1 = 3652 := by decide
  obtain ⟨n, hn⟩ : ∃ n : Nat, daysFromCivil (year + 400 * k) month day = n + 3652 :=
    ⟨(daysFromCivil (year + 400 * k) month day - 3652).toNat, by omega⟩
  have hdate := civilOfDays_nat n
  rw [Date.civilFromDays_eq hshift (by omega) hn, ← hn, daysFromCivil_shift,
    civilOfDays_shift] at hdate
  obtain ⟨hyears, hrest⟩ := Prod.mk.inj hdate
  refine Prod.ext ?_ hrest
  dsimp only at hyears ⊢
  omega

theorem exists_civil (days : Int) : ∃ year month day, IsDate year month day ∧
    daysFromCivil year month day = days := by
  obtain ⟨k, -, hdays⟩ := exists_shift 3652 days
  obtain ⟨year, month, day, hdate, -, heq⟩ := Date.exists_date (days + 146097 * k - 3652).toNat
  refine ⟨year + 400 * -k, month, day, (isDate_shift (-k)).mpr hdate, ?_⟩
  rw [daysFromCivil_shift, heq]
  omega

theorem daysFromCivil_civilOfDays (days : Int) :
    IsDate (civilOfDays days).1 (civilOfDays days).2.1 (civilOfDays days).2.2 ∧
      daysFromCivil (civilOfDays days).1 (civilOfDays days).2.1 (civilOfDays days).2.2 =
        days := by
  obtain ⟨year, month, day, hdate, rfl⟩ := exists_civil days
  rw [civilOfDays_daysFromCivil hdate]
  exact ⟨hdate, rfl⟩

theorem daysInMonth_pos (year : Int) (hmonth : 1 ≤ month) (hmonth' : month ≤ 12) : 1 ≤
    daysInMonth year month := by
  interval_cases month <;>
    first | exact Nat.le_of_ble_eq_true rfl | (rw [daysInMonth]; split <;> decide)

theorem isDate_one (year : Int) (hmonth : 1 ≤ month) (hmonth' : month ≤ 12) :
    IsDate year month 1 :=
  ⟨hmonth, hmonth', le_rfl, daysInMonth_pos year hmonth hmonth'⟩

theorem daysFromCivil_day (year : Int) (month : Nat) {day : Nat} (hday : 1 ≤ day) :
    daysFromCivil year month day = daysFromCivil year month 1 + (day - 1 : Nat) := by
  simp only [daysFromCivil]
  omega

instance (y : Nat) : Decidable (IsLong y) := inferInstanceAs (Decidable (_ ∧ _))

theorem isLong_iff_dvd {y : Nat} : IsLong y ↔ 4 ∣ y + 1 ∧ (¬ 100 ∣ y + 1 ∨ 400 ∣ y + 1) := by
  simp only [IsLong, Nat.dvd_iff_mod_eq_zero, ne_eq]

theorem dayNumber_succ (y : Nat) :
    dayNumber (y + 1) 0 = dayNumber y 0 + if IsLong y then 366 else 365 := by
  have hthis := dayNumber_zero y
  have hnext := dayNumber_zero (y + 1)
  have hcenturies : 400 ∣ y + 1 → 100 ∣ y + 1 := (Dvd.intro 4 rfl : 100 ∣ 400).trans
  have hfours : 100 ∣ y + 1 → 4 ∣ y + 1 := (Dvd.intro 25 rfl : 4 ∣ 100).trans
  simp only [Nat.succ_div] at hnext
  -- A year that 400 divides is one that 100 divides, and so on: four cases are left.
  by_cases hfour : 4 ∣ y + 1
  · by_cases hhundred : 100 ∣ y + 1
    · by_cases hera : 400 ∣ y + 1
      · rw [if_pos hfour, if_pos hhundred, if_pos hera] at hnext
        rw [if_pos (isLong_iff_dvd.mpr ⟨hfour, .inr hera⟩)]
        omega
      · rw [if_pos hfour, if_pos hhundred, if_neg hera] at hnext
        rw [if_neg fun h => (isLong_iff_dvd.mp h).2.elim (· hhundred) hera]
        omega
    · rw [if_pos hfour, if_neg hhundred, if_neg (mt hcenturies hhundred)] at hnext
      rw [if_pos (isLong_iff_dvd.mpr ⟨hfour, .inl hhundred⟩)]
      omega
  · rw [if_neg hfour, if_neg (mt hfours hfour), if_neg (mt (hfours ∘ hcenturies) hfour)] at hnext
    rw [if_neg fun h => hfour (isLong_iff_dvd.mp h).1]
    omega

theorem daysFromCivil_month_succ (year : Int) (hmonth : 1 ≤ month) (hmonth' : month < 12) :
    daysFromCivil year (month + 1) 1 = daysFromCivil year month 1 + daysInMonth year month := by
  obtain ⟨k, hyear, -⟩ := exists_shift 1 year
  have hsame : daysInMonth (year + 400 * k) month = daysInMonth year month := by
    simp only [daysInMonth, isLeapYear_shift]
  have hnext := daysFromCivil_eq
    (show IsDate (year + 400 * k) (month + 1) 1 from isDate_one _
      (Nat.le_add_left 1 month) hmonth') hyear
  have hthis := daysFromCivil_eq (isDate_one (year + 400 * k) hmonth hmonth'.le) hyear
  rw [daysFromCivil_shift] at hnext hthis
  rw [← hsame]
  generalize year + 400 * k = y at *
  obtain rfl | hfeb := eq_or_ne month 2
  · have hmarch : marchYear y (2 + 1) = marchYear y 2 + 1 := by
      rw [marchYear, marchYear, if_neg (by decide), if_pos le_rfl]
      omega
    have hbefore := dayNumber_eq_add (marchYear y 2) (dayOfYear 2 1)
    have hfirst : dayOfYear 2 1 = 337 := rfl
    have hzero : dayOfYear (2 + 1) 1 = 0 := rfl
    have hleap := isLeapYear_marchYear hyear (le_refl 2)
    have hlength : daysInMonth y 2 = if isLeapYear y then 29 else 28 := rfl
    rw [hmarch, hzero] at hnext
    rw [hlength]
    split
    · rename_i hlong
      rw [dayNumber_succ, if_pos (hleap.mp hlong)] at hnext
      clear hlength
      omega
    · rename_i hshort
      rw [dayNumber_succ, if_neg (mt hleap.mpr hshort)] at hnext
      clear hlength
      omega
  · have hmarch : marchYear y (month + 1) = marchYear y month := by
      rw [marchYear, marchYear]
      split <;> split <;> omega
    have hmonths : marchMonth (month + 1) = marchMonth month + 1 := by
      rw [marchMonth, marchMonth]
      split <;> split <;> omega
    have hlength := monthStart_succ hmonth hmonth'.le hfeb y
    have hbefore := dayNumber_eq_add (marchYear y month) (dayOfYear month 1)
    have hafter := dayNumber_eq_add (marchYear y month) (dayOfYear (month + 1) 1)
    have hstart : dayOfYear month 1 = monthStart (marchMonth month) := rfl
    have hstop : dayOfYear (month + 1) 1 = monthStart (marchMonth month + 1) := by
      rw [dayOfYear, hmonths]
      rfl
    rw [hmarch] at hnext
    omega

theorem daysFromCivil_lt_month {month' : Nat} (h : IsDate year month day) (hlt : month < month')
    (hmonth' : month' ≤ 12) :
    daysFromCivil year month day < daysFromCivil year month' 1 := by
  obtain ⟨hmonth, -, hday, hday'⟩ := h
  induction hlt with
  | refl =>
    rw [daysFromCivil_month_succ year hmonth hmonth', daysFromCivil_day year month hday]
    omega
  | @step m hm ih =>
    have hlow : 1 ≤ m := hmonth.trans (Nat.le_of_succ_le hm)
    have hpos := daysInMonth_pos year hlow (Nat.le_of_succ_le hmonth')
    have hthis := ih (Nat.le_of_succ_le hmonth')
    rw [Nat.succ_eq_add_one, daysFromCivil_month_succ year hlow hmonth']
    omega

theorem daysFromCivil_lt_year {year' : Int} (h : IsDate year month day) (hlt : year < year') :
    daysFromCivil year month day < daysFromCivil year' 1 1 := by
  obtain ⟨k, hyear, -⟩ := exists_shift 1 year
  have hthis := (daysFromCivil_bounds ((isDate_shift k).mpr h) hyear).2
  have hlater := daysFromCivil_mono (by omega)
    (show year + 400 * k + 1 ≤ year' + 400 * k by omega)
  rw [daysFromCivil_shift] at hthis hlater
  omega

theorem daysFromCivil_first_le (h : IsDate year month day) :
    daysFromCivil year 1 1 ≤ daysFromCivil year month day := by
  obtain ⟨k, hyear, -⟩ := exists_shift 1 year
  have hthis := (daysFromCivil_bounds ((isDate_shift k).mpr h) hyear).1
  rw [daysFromCivil_shift, daysFromCivil_shift] at hthis
  omega

theorem daysFromCivil_lt {a b : CivilDate} (h : a < b) :
    daysFromCivil a.year a.month a.day < daysFromCivil b.year b.month b.day := by
  obtain hyear | ⟨hyear, hmonth | ⟨hmonth, hday⟩⟩ := h
  · exact (daysFromCivil_lt_year a.isDate hyear).trans_le (daysFromCivil_first_le b.isDate)
  · have hlt := daysFromCivil_lt_month a.isDate hmonth b.isDate.2.1
    rw [daysFromCivil_day b.year b.month b.isDate.2.2.1, ← hyear]
    omega
  · rw [daysFromCivil_day b.year b.month b.isDate.2.2.1,
      daysFromCivil_day a.year a.month a.isDate.2.2.1, hyear, hmonth]
    have hpos := a.isDate.2.2.1
    omega

theorem daysFromCivil_fits (h : IsDate year month day) (hlow : -2 ^ 31 ≤ year)
    (hhigh : year < 2 ^ 31) :
    -2 ^ 41 ≤ daysFromCivil year month day ∧ daysFromCivil year month day < 2 ^ 41 := by
  obtain ⟨hmonth, hmonth', hday, hday'⟩ := h
  have hlast := daysInMonth_le year month
  rw [daysFromCivil]
  have hmp : (if 2 < month then month - 3 else month + 9) ≤ 11 := by
    split <;> omega
  have hy : -2 ^ 32 ≤ (if month ≤ 2 then year - 1 else year) ∧
      (if month ≤ 2 then year - 1 else year) < 2 ^ 31 := by
    split <;> omega
  generalize (if month ≤ 2 then year - 1 else year) = y at hy ⊢
  generalize (if 2 < month then month - 3 else month + 9) = mp at hmp ⊢
  omega

end Civil

namespace CivilTime

theorem secondsOfDay_lt (time : CivilTime) : time.secondsOfDay < 86400 := by
  have hhour := time.hour_le
  have hminute := time.minute_le
  have hsecond := time.second_le
  rw [secondsOfDay]
  omega

theorem secondsOfDay_lt_iff {a b : CivilTime} : a < b ↔ a.secondsOfDay < b.secondsOfDay := by
  have hminute := a.minute_le
  have hsecond := a.second_le
  have hminute' := b.minute_le
  have hsecond' := b.second_le
  change (_ ∨ _) ↔ _
  rw [secondsOfDay, secondsOfDay]
  omega

def ofSeconds (secs : Nat) (h : secs < 86400) : CivilTime :=
  ⟨secs / 3600, secs / 60 % 60, secs % 60, by omega, by omega, by omega⟩

theorem secondsOfDay_ofSeconds {secs : Nat} (h : secs < 86400) :
    (ofSeconds secs h).secondsOfDay = secs := by
  change secs / 3600 * 3600 + secs / 60 % 60 * 60 + secs % 60 = secs
  omega

end CivilTime

namespace Instant

open Checked Civil

variable {ε : Type}

def shownSeconds (date : CivilDate) (time : CivilTime) : Int :=
  Civil.daysFromCivil date.year date.month date.day * 86400 + time.secondsOfDay

theorem shownSeconds_lt {date date' : CivilDate} {time time' : CivilTime}
    (h : date < date' ∨ date = date' ∧ time < time') :
    shownSeconds date time < shownSeconds date' time' := by
  have htime := time.secondsOfDay_lt
  rw [shownSeconds, shownSeconds]
  obtain hdate | ⟨rfl, hlt⟩ := h
  · have hdays := daysFromCivil_lt hdate
    omega
  · have hseconds := CivilTime.secondsOfDay_lt_iff.mp hlt
    omega

theorem date_trichotomy (a b : CivilDate) : a < b ∨ a = b ∨ b < a := by
  obtain ⟨year, month, day, hdate⟩ := a
  obtain ⟨year', month', day', hdate'⟩ := b
  change (_ ∨ _) ∨ _ ∨ (_ ∨ _)
  simp only [CivilDate.mk.injEq]
  omega

theorem time_trichotomy (a b : CivilTime) : a < b ∨ a = b ∨ b < a := by
  obtain ⟨hour, minute, second, _, _, _⟩ := a
  obtain ⟨hour', minute', second', _, _, _⟩ := b
  change (_ ∨ _) ∨ _ ∨ (_ ∨ _)
  simp only [CivilTime.mk.injEq]
  omega

theorem shownSeconds_lt_iff {date date' : CivilDate} {time time' : CivilTime} :
    shownSeconds date time < shownSeconds date' time' ↔ date < date' ∨
      date = date' ∧ time < time' := by
  refine ⟨fun h => ?_, shownSeconds_lt⟩
  obtain hdate | rfl | hdate := date_trichotomy date date'
  · exact .inl hdate
  · obtain htime | rfl | htime := time_trichotomy time time'
    · exact .inr ⟨rfl, htime⟩
    · exact absurd h (lt_irrefl _)
    · exact absurd h (shownSeconds_lt (.inr ⟨rfl, htime⟩)).asymm
  · exact absurd h (shownSeconds_lt (.inl hdate)).asymm

theorem secondsOfDay_eq (time : CivilTime) :
    (secondsOfDay time : Checked ε Int) = pure (time.secondsOfDay : Int) := by
  have hhour := time.hour_le
  have hminute := time.minute_le
  have hsecond := time.second_le
  rw [secondsOfDay, CivilTime.secondsOfDay]
  simp (disch := omega) only [i64_of_fits, pure_bind]
  rfl

theorem new_eq (seconds : Int) : new seconds 0 =
    if h : DateTime.minSeconds ≤ seconds ∧ seconds ≤ DateTime.maxSeconds then
      .ok ⟨⟨seconds, 0⟩, none, Nat.zero_lt_succ _, h.1, h.2, rfl⟩
    else .error .outOfRange := by
  rw [new, if_neg (by decide), ZonedDateTime.new]
  by_cases h : DateTime.minSeconds ≤ seconds ∧ seconds ≤ DateTime.maxSeconds
  · rw [dif_pos ⟨by decide, h⟩, dif_pos h]
  · rw [dif_neg (fun hall => h hall.2), dif_neg h]

def civilInstant (date : CivilDate) (time : CivilTime) (offsetMinutes : Option Int) :
    Except DateTimeError ZonedDateTime :=
  if h : checkOffset offsetMinutes = true then
    (new (shownSeconds date time - offsetMinutes.getD 0 * 60) 0).map fun value =>
      { value with offsetMinutes := offsetMinutes, checked := h }
  else .error .invalidOffset

theorem fromCivil_eq (date : CivilDate) (time : CivilTime) (offsetMinutes : Option Int)
    (hlow : -2 ^ 31 ≤ date.year)
    (hhigh : date.year < 2 ^ 31) :
    fromCivil date time offsetMinutes = lift (civilInstant date time offsetMinutes) := by
  rw [fromCivil, civilInstant]
  split
  · rename_i hoffset
    obtain ⟨hlow', hhigh'⟩ := checkOffset_bounds hoffset
    obtain ⟨hdays, hdays'⟩ := daysFromCivil_fits date.isDate hlow hhigh
    have htime := time.secondsOfDay_lt
    rw [daysFromCivil_eq hlow hhigh date.isDate, secondsOfDay_eq]
    simp (disch := omega) only [i64_of_fits, pure_bind, secsPerDay]
    rw [← shownSeconds]
    cases new (shownSeconds date time - offsetMinutes.getD 0 * 60) 0 with
    | ok value => rfl
    | error e => rfl
  · rfl

theorem civilInstant_ok {date : CivilDate} {time : CivilTime} {offsetMinutes : Option Int}
    {value : ZonedDateTime} :
    civilInstant date time offsetMinutes = .ok value ↔
      value.localSeconds = shownSeconds date time ∧ value.nanoseconds = 0 ∧
        value.offsetMinutes = offsetMinutes := by
  rw [civilInstant, new_eq]
  constructor
  · intro h
    split at h
    · split at h
      · cases h
        exact ⟨Int.sub_add_cancel _ _, rfl, rfl⟩
      · cases h
    · cases h
  · rintro ⟨hshown, hnanos, rfl⟩
    have hseconds : shownSeconds date time - value.offsetMinutes.getD 0 * 60 =
        value.unixSeconds := by
      rw [← hshown, ZonedDateTime.localSeconds, Int.add_sub_cancel]
    rw [dif_pos value.checked, hseconds, dif_pos ⟨value.minSeconds_le, value.le_maxSeconds⟩]
    refine congrArg Except.ok (ZonedDateTime.ext rfl hnanos.symm rfl)

theorem civilOfDays_year (days : Int) (hlow : -2 ^ 30 ≤ days) (hhigh : days < 2 ^ 30) :
    -2 ^ 31 ≤ (civilOfDays days).1 ∧ (civilOfDays days).1 < 2 ^ 31 := by
  obtain ⟨_, _, hyoe, _⟩ := exists_yearOf
    (show ((days + 719468) % 146097).toNat < 146097 by omega)
  rw [civilOfDays]
  dsimp only
  generalize Calendar.yearOf ((days + 719468) % 146097).toNat = yoe at hyoe
  split <;> omega

theorem toCivil_eq (value : ZonedDateTime) :
    ∃ date time, value.localSeconds = shownSeconds date time ∧
    (toCivil value : Checked ε _) = pure (.of date time) ∧ -2 ^ 31 ≤ date.year ∧
    date.year < 2 ^ 31 := by
  obtain ⟨hlow, hhigh⟩ := value.offset_bounds
  have hmin := value.minSeconds_le
  have hmax := value.le_maxSeconds
  rw [DateTime.minSeconds] at hmin
  rw [DateTime.maxSeconds] at hmax
  have hshown : -2 ^ 41 ≤ value.localSeconds ∧ value.localSeconds < 2 ^ 41 := by
    rw [ZonedDateTime.localSeconds]
    omega
  obtain ⟨hdate, hdays⟩ := daysFromCivil_civilOfDays (value.localSeconds / 86400)
  have hyear := civilOfDays_year (value.localSeconds / 86400) (by omega) (by omega)
  obtain ⟨secs, hsecs⟩ : ∃ secs : Nat, value.localSeconds % 86400 = secs :=
    Int.eq_ofNat_of_zero_le (Int.emod_nonneg _ (by decide))
  have hlt : secs < 86400 := by omega
  refine ⟨⟨_, _, _, hdate⟩, .ofSeconds secs hlt, ?_, ?_, hyear⟩
  · rw [shownSeconds, hdays, CivilTime.secondsOfDay_ofSeconds, ← hsecs, Int.ediv_mul_add_emod]
  · rw [toCivil]
    simp (disch := omega) only [i64_of_fits, pure_bind, secsPerDay]
    rw [← ZonedDateTime.localSeconds, civilFromDays_eq (by omega) (by omega), pure_bind, hsecs,
      asI32_of_fits hyear.1 hyear.2]
    simp (disch := omega) only [Int.tdiv_eq_ediv_of_nonneg, Int.tmod_eq_emod_of_nonneg]
    have hhour : asU8 ((secs : Int) / 3600) = secs / 3600 := by
      rw [asU8]
      omega
    have hminute : asU8 ((secs : Int) / 60 % 60) = secs / 60 % 60 := by
      rw [asU8]
      omega
    have hsecond : asU8 ((secs : Int) % 60) = secs % 60 := by
      rw [asU8]
      omega
    rw [hhour, hminute, hsecond]
    rfl

/-- What makes the conversions exact. -/
structure Exact : Prop where
  /-- The instant of the fields of an instant, at the same offset, is that second. -/
  fromTo : ∀ value : ZonedDateTime, ∃ date time back, (toCivil value : Checked DateTimeError _) =
    pure (.of date time) ∧
    fromCivil date time value.offsetMinutes = pure back ∧ back.unixSeconds = value.unixSeconds ∧
      back.offsetMinutes = value.offsetMinutes
  /-- The fields of the instant of fields, when these are accepted, are these. -/
  toFrom : ∀ (date : CivilDate) (time : CivilTime) (offsetMinutes : Option Int)
    (value : ZonedDateTime),
    -2 ^ 31 ≤ date.year → date.year < 2 ^ 31 → fromCivil date time offsetMinutes = pure value →
      (toCivil value : Checked DateTimeError _) = pure (.of date time)
  /-- Later fields are those of later instants. -/
  from_lt : ∀ (date date' : CivilDate) (time time' : CivilTime) (offsetMinutes : Option Int)
    (value value' : ZonedDateTime),
    -2 ^ 31 ≤ date.year → date.year < 2 ^ 31 → -2 ^ 31 ≤ date'.year → date'.year < 2 ^ 31 →
      fromCivil date time offsetMinutes = pure value →
        fromCivil date' time' offsetMinutes = pure value' →
        (value.unixSeconds < value'.unixSeconds ↔ date < date' ∨ date = date' ∧ time < time')
  /-- Later instants have later fields. -/
  to_lt : ∀ (value value' : ZonedDateTime) (date date' : CivilDate) (time time' : CivilTime),
    value.offsetMinutes = value'.offsetMinutes → (toCivil value : Checked DateTimeError _) =
      pure (.of date time) →
      (toCivil value' : Checked DateTimeError _) = pure (.of date' time') →
        (value.unixSeconds < value'.unixSeconds ↔ date < date' ∨ date = date' ∧ time < time')
  /-- No step overflows. -/
  fits : ∀ (date : CivilDate) (time : CivilTime) (offsetMinutes : Option Int),
    -2 ^ 31 ≤ date.year → date.year < 2 ^ 31 →
    ∃ result, fromCivil date time offsetMinutes = lift result

theorem lift_eq_pure {ε α : Type} {result : Except ε α} {a : α} (h : lift result = pure a) :
    result = .ok a := by
  have hrun := congrArg ExceptT.run h
  exact Option.some.inj hrun

theorem pure_inj {a b : CivilFields} (h : (pure a : Checked ε CivilFields) = pure b) : a = b := by
  cases h
  rfl

theorem of_inj {date date' : CivilDate} {time time' : CivilTime}
    (h : CivilFields.of date time = .of date' time') :
    date = date' ∧ time = time' := by
  obtain ⟨year, month, day, _⟩ := date
  obtain ⟨year', month', day', _⟩ := date'
  obtain ⟨hour, minute, second, _, _, _⟩ := time
  obtain ⟨hour', minute', second', _, _, _⟩ := time'
  cases h
  exact ⟨rfl, rfl⟩

theorem toCivil_iff {value : ZonedDateTime} {date : CivilDate} {time : CivilTime} :
    (toCivil value : Checked ε _) = pure (.of date time) ↔
      value.localSeconds = shownSeconds date time := by
  obtain ⟨date', time', hshown, hto, -⟩ := toCivil_eq (ε := ε) value
  rw [hto]
  constructor
  · intro h
    obtain ⟨rfl, rfl⟩ := of_inj (pure_inj h)
    exact hshown
  · intro h
    have hsame := hshown.symm.trans h
    obtain hdate | rfl | hdate := date_trichotomy date date'
    · exact absurd hsame (shownSeconds_lt (.inl hdate)).ne'
    · obtain htime | rfl | htime := time_trichotomy time time'
      · exact absurd hsame (shownSeconds_lt (.inr ⟨rfl, htime⟩)).ne'
      · rfl
      · exact absurd hsame (shownSeconds_lt (.inr ⟨rfl, htime⟩)).ne
    · exact absurd hsame (shownSeconds_lt (.inl hdate)).ne

theorem fromCivil_ok {date : CivilDate} {time : CivilTime} {offsetMinutes : Option Int}
    {value : ZonedDateTime}
    (hlow : -2 ^ 31 ≤ date.year) (hhigh : date.year < 2 ^ 31)
    (h : fromCivil date time offsetMinutes = pure value) :
    value.localSeconds = shownSeconds date time ∧ value.offsetMinutes = offsetMinutes := by
  rw [fromCivil_eq date time offsetMinutes hlow hhigh] at h
  obtain ⟨hshown, -, hoffset⟩ := civilInstant_ok.mp (lift_eq_pure h)
  exact ⟨hshown, hoffset⟩

/-- Calendar conversion is exact. -/
theorem calendar_exact : Exact where
  fromTo := by
    intro value
    obtain ⟨date, time, hshown, hto, hlow, hhigh⟩ := toCivil_eq (ε := DateTimeError) value
    have hback : civilInstant date time value.offsetMinutes =
      .ok { value with nanoseconds := 0, nanoseconds_lt := by decide } :=
      civilInstant_ok.mpr ⟨hshown, rfl, rfl⟩
    refine ⟨date, time, { value with nanoseconds := 0, nanoseconds_lt := by decide }, hto,
      ?_, rfl, rfl⟩
    rw [fromCivil_eq date time value.offsetMinutes hlow hhigh, hback]
    rfl
  toFrom := fun date time offsetMinutes value hlow hhigh h =>
    toCivil_iff.mpr (fromCivil_ok hlow hhigh h).1
  from_lt := by
    intro date date' time time' offsetMinutes value value' hlow hhigh hlow' hhigh' h h'
    obtain ⟨hshown, hoffset⟩ := fromCivil_ok hlow hhigh h
    obtain ⟨hshown', hoffset'⟩ := fromCivil_ok hlow' hhigh' h'
    rw [← shownSeconds_lt_iff, ← hshown, ← hshown', ZonedDateTime.localSeconds,
      ZonedDateTime.localSeconds, hoffset, hoffset', Int.add_lt_add_iff_right]
  to_lt := by
    intro value value' date date' time time' hoffset h h'
    rw [← shownSeconds_lt_iff, ← toCivil_iff.mp h, ← toCivil_iff.mp h',
      ZonedDateTime.localSeconds, ZonedDateTime.localSeconds, hoffset, Int.add_lt_add_iff_right]
  fits := fun date time offsetMinutes hlow hhigh =>
    ⟨_, fromCivil_eq date time offsetMinutes hlow hhigh⟩

end Instant

end Hadris
