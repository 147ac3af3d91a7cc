import Mathlib.Tactic.IntervalCases
import Hadris.Calendar
import Hadris.Meta

namespace Hadris

namespace Civil

def isLeapYear (year : Int) : Bool := year % 4 == 0 && (year % 100 != 0 || year % 400 == 0)

def daysInMonth (year : Int) (month : Nat) : Nat :=
  match month with
  | 1 | 3 | 5 | 7 | 8 | 10 | 12 => 31
  | 4 | 6 | 9 | 11 => 30
  | 2 => if isLeapYear year then 29 else 28
  | _ => 0

def IsDate (year : Int) (month day : Nat) : Prop :=
  1 ≤ month ∧ month ≤ 12 ∧ 1 ≤ day ∧ day ≤ daysInMonth year month

instance (year : Int) (month day : Nat) : Decidable (IsDate year month day) :=
  inferInstanceAs (Decidable (_ ∧ _))

def daysFromCivil (year : Int) (month day : Nat) : Int :=
  let y := if month ≤ 2 then year - 1 else year
  let era := y / 400
  let yoe := (y - era * 400).toNat
  let mp := if 2 < month then month - 3 else month + 9
  let doy := (153 * mp + 2) / 5 + day - 1
  let doe := yoe * 365 + yoe / 4 - yoe / 100 + doy
  era * 146097 + doe - 719468

end Civil

open Civil

structure CivilDate where
  year : Int
  month : Nat
  day : Nat
  isDate : IsDate year month day

def CivilDate.new (year : Int) (month day : Nat) : Option CivilDate :=
  if h : IsDate year month day then some ⟨year, month, day, h⟩ else none

structure CivilTime where
  hour : Nat
  minute : Nat
  second : Nat
  hour_le : hour ≤ 23
  minute_le : minute ≤ 59
  second_le : second ≤ 59

namespace CivilTime

def new (hour minute second : Nat) : Option CivilTime :=
  if h : hour ≤ 23 ∧ minute ≤ 59 ∧ second ≤ 59
    then some ⟨hour, minute, second, h.1, h.2.1, h.2.2⟩ else none

def secondsOfDay (time : CivilTime) : Nat := time.hour * 3600 + time.minute * 60 + time.second

end CivilTime

def checkOffset (offset : Option Int) : Bool :=
  offset.all fun minutes => decide (-1439 ≤ minutes ∧ minutes ≤ 1439)

/-- An instant with the UTC offset, in minutes, of the zone it was recorded in. -/
@[ext]
structure ZonedDateTime extends DateTime where
  offsetMinutes : Option Int
  nanoseconds_lt : nanoseconds < 1000000000
  minSeconds_le : DateTime.minSeconds ≤ unixSeconds
  le_maxSeconds : unixSeconds ≤ DateTime.maxSeconds
  checked : checkOffset offsetMinutes = true

namespace ZonedDateTime

def new (seconds : Int) (nanoseconds : Nat) : Option ZonedDateTime :=
  if h : nanoseconds < 1000000000 ∧ DateTime.minSeconds ≤ seconds ∧
    seconds ≤ DateTime.maxSeconds then
    some ⟨⟨seconds, nanoseconds⟩, none, h.1, h.2.1, h.2.2, rfl⟩
  else none

def withUtcOffsetMinutes (time : ZonedDateTime) (offset : Option Int) : Option ZonedDateTime :=
  if h : checkOffset offset = true
    then some { time with offsetMinutes := offset, checked := h } else none

def fromCivil (date : CivilDate) (time : CivilTime) : Option ZonedDateTime :=
  new (daysFromCivil date.year date.month date.day * 86400 + time.secondsOfDay) 0

def localSeconds (time : ZonedDateTime) : Int := time.unixSeconds + time.offsetMinutes.getD 0 * 60

end ZonedDateTime

namespace Date

def nanosPerTenth : Nat := 10000000
def epochSeconds : Int := 315532800
def endSeconds : Int := 4354819200

/-- The stored fields of a directory entry's time. -/
structure Stamp where
  date : UInt16
  time : UInt16
  tenths : UInt8
deriving DecidableEq

def Stamp.min : Stamp := ⟨UInt16.ofNat (1 <<< 5 ||| 1), 0, 0⟩

def Stamp.max : Stamp := 
  ⟨UInt16.ofNat (127 <<< 9 ||| 12 <<< 5 ||| 31),
    UInt16.ofNat (23 <<< 11 ||| 59 <<< 5 ||| 29), 199⟩

def pack (year month day hour minute second : Nat) : UInt16 × UInt16 :=
  let yearOffset := if year < 1980 then 0 else if 127 < year - 1980 then 127 else year - 1980
  (UInt16.ofNat (yearOffset <<< 9 ||| (month &&& 0x0F) <<< 5 ||| day &&& 0x1F),
    UInt16.ofNat ((hour &&& 0x1F) <<< 11 ||| (minute &&& 0x3F) <<< 5 ||| second / 2 &&& 0x1F))

def decode (stamp : Stamp) (zone : Option Int) : Option ZonedDateTime := do
  let date := stamp.date.toNat
  let time := stamp.time.toNat
  let civilDate ← CivilDate.new ((1980 : Int) + (date >>> 9 : Nat))
    (date >>> 5 &&& 0x0F) (date &&& 0x1F)
  let civilTime ← CivilTime.new (time >>> 11) (time >>> 5 &&& 0x3F) ((time &&& 0x1F) * 2)
  let base ← ZonedDateTime.fromCivil civilDate civilTime
  let tenths := if 199 < stamp.tenths then 0 else stamp.tenths.toNat
  let shown ← ZonedDateTime.new (base.unixSeconds + (tenths / 100 : Nat) - zone.getD 0 * 60)
    (tenths % 100 * nanosPerTenth)
  shown.withUtcOffsetMinutes zone

def civilFromDays (days : Nat) : Nat × Nat × Nat :=
  let z := days + 723120
  let era := z / 146097
  let doe := z - era * 146097
  let yoe := (doe - doe / 1460 + doe / 36524 - doe / 146096) / 365
  let doy := doe - (365 * yoe + yoe / 4 - yoe / 100)
  let mp := (5 * doy + 2) / 153
  let day := doy - (153 * mp + 2) / 5 + 1
  let month := if mp < 10 then mp + 3 else mp - 9
  let year := yoe + era * 400 + if month ≤ 2 then 1 else 0
  (year, month, day)

def encodeLocal (seconds : Int) (nanoseconds : Nat) : Stamp :=
  if seconds < epochSeconds then Stamp.min
  else if endSeconds ≤ seconds then Stamp.max
  else
    let seconds := (seconds - epochSeconds).toNat
    let clock := seconds % 86400
    let civil := civilFromDays (seconds / 86400)
    let packed := pack civil.1 civil.2.1 civil.2.2 (clock / 3600) (clock / 60 % 60) (clock % 60)
    ⟨packed.1, packed.2, UInt8.ofNat (clock % 60 % 2 * 100 + nanoseconds / nanosPerTenth)⟩

def inZone (time : ZonedDateTime) (zone : Option Int) : ZonedDateTime :=
  match zone with
  | some _ => (time.withUtcOffsetMinutes zone).getD time
  | none => time

def encode (time : ZonedDateTime) (zone : Option Int) : Stamp :=
  encodeLocal (inZone time zone).localSeconds (inZone time zone).nanoseconds

end Date

namespace Civil

open Calendar

def marchYear (year : Int) (month : Nat) : Nat := (if month ≤ 2 then year - 1 else year).toNat

def marchMonth (month : Nat) : Nat := if 2 < month then month - 3 else month + 9

def dayOfYear (month day : Nat) : Nat := monthStart (marchMonth month) + (day - 1)

variable {year : Int} {month day : Nat}

theorem isLeapYear_iff : isLeapYear year = true ↔ year % 4 = 0 ∧
    (year % 100 ≠ 0 ∨ year % 400 = 0) := by
  simp [isLeapYear]

theorem isLeapYear_marchYear (hyear : 1 ≤ year) (hmonth : month ≤ 2) :
    isLeapYear year = true ↔ IsLong (marchYear year month) := by
  rw [isLeapYear_iff, IsLong, marchYear, if_pos hmonth]
  omega

theorem monthStart_succ (hlow : 1 ≤ month) (hhigh : month ≤ 12) (hfeb : month ≠ 2) (year : Int) :
    monthStart (marchMonth month + 1) = monthStart (marchMonth month) +
      daysInMonth year month := by
  interval_cases month <;> first | rfl | exact absurd rfl hfeb

theorem daysInMonth_two_le (year : Int) : daysInMonth year 2 ≤ 29 := by
  rw [daysInMonth]
  split <;> decide

theorem dayOfYear_lt (h : IsDate year month day) :
    dayOfYear month day < monthStart (marchMonth month + 1) := by
  obtain ⟨hlow, hhigh, hpos, hle⟩ := h
  rw [dayOfYear]
  obtain rfl | hfeb := eq_or_ne month 2
  · have hlast := daysInMonth_two_le year
    have hstart : monthStart (marchMonth 2) = 337 := rfl
    have hstop : monthStart (marchMonth 2 + 1) = 367 := rfl
    omega
  · rw [monthStart_succ hlow hhigh hfeb year]
    omega

theorem monthOf_dayOfYear (h : IsDate year month day) :
    monthOf (dayOfYear month day) = marchMonth month :=
  monthOf_eq (Nat.le_add_right _ _) (dayOfYear_lt h)

theorem inYear (h : IsDate year month day) (hyear : 1 ≤ year) :
    InYear (marchYear year month) (dayOfYear month day) := by
  obtain ⟨hlow, hhigh, hpos, hle⟩ := h
  obtain rfl | hmonth : month = 2 ∨ month ≠ 2 := eq_or_ne month 2
  · rw [InYear, ← isLeapYear_marchYear hyear le_rfl]
    have hstart : dayOfYear 2 day = 337 + (day - 1) := rfl
    rw [daysInMonth] at hle
    split at hle
    · rename_i hleap
      rw [and_iff_left hleap]
      omega
    · omega
  · apply Or.inl
    have hlt := dayOfYear_lt ⟨hlow, hhigh, hpos, hle⟩
    have hmarch : marchMonth month + 1 ≤ 11 := by
      rw [marchMonth]
      split <;> omega
    have hstop : monthStart (marchMonth month + 1) ≤ 337 := by
      rw [monthStart]
      omega
    omega

theorem exists_isDate {y d : Nat} (h : InYear y d) :
    ∃ year month day, IsDate year month day ∧ 0 ≤ year ∧ marchYear year month = y ∧
      dayOfYear month day = d := by
  obtain ⟨hstart, hstop⟩ := monthStart_monthOf d
  have hd : d ≤ 365 := by
    rw [InYear] at h
    omega
  have hmonth : monthOf d ≤ 11 := by
    rw [monthOf]
    omega
  by_cases hfeb : monthOf d = 11
  · refine ⟨y + 1, 2, d - monthStart 11 + 1,
      ⟨by decide, by decide, Nat.succ_pos _, ?_⟩, by omega, ?_, ?_⟩
    · have hleap : isLeapYear (y + 1) = true ↔ IsLong y := by
        have hmarch := isLeapYear_marchYear (show 1 ≤ (y : Int) + 1 by omega) (le_refl 2)
        rwa [marchYear, if_pos le_rfl, Int.add_sub_cancel, Int.toNat_natCast] at hmarch
      have hlast : monthStart 11 = 337 := rfl
      rw [InYear, ← hleap] at h
      rw [hfeb, hlast] at hstart
      rw [hlast, daysInMonth]
      split
      · omega
      · rename_i hshort
        have hd' := h.resolve_right fun hlong => hshort hlong.2
        omega
    · rw [marchYear, if_pos le_rfl, Int.add_sub_cancel, Int.toNat_natCast]
    · rw [dayOfYear, Nat.add_sub_cancel]
      rw [hfeb] at hstart
      exact Nat.add_sub_cancel' hstart
  · obtain ⟨month, hpos, hle, hmarch, hdays⟩ : ∃ month, 1 ≤ month ∧ month ≤ 12 ∧
        marchMonth month = monthOf d ∧ ∀ year,
          monthStart (monthOf d + 1) - monthStart (monthOf d) = daysInMonth year month := by
      have hlt : monthOf d < 11 := Nat.lt_of_le_of_ne hmonth hfeb
      generalize monthOf d = m at hlt
      refine ⟨if m < 10 then m + 3 else m - 9, ?_, ?_, ?_, ?_⟩ <;> interval_cases m <;>
        first | decide | exact fun _ => rfl
    refine ⟨if month ≤ 2 then (y : Int) + 1 else y, month, d - monthStart (monthOf d) + 1,
      ⟨hpos, hle, Nat.succ_pos _, ?_⟩, ?_, ?_, ?_⟩
    · rw [← hdays]
      omega
    · split <;> omega
    · rw [marchYear]
      split <;> omega
    · rw [dayOfYear, hmarch, Nat.add_sub_cancel]
      exact Nat.add_sub_cancel' hstart

theorem daysFromCivil_eq (h : IsDate year month day) (hyear : 1 ≤ year) :
    daysFromCivil year month day = dayNumber (marchYear year month)
      (dayOfYear month day) - 719468 := by
  have hpos := h.2.2.1
  obtain ⟨y, hy⟩ : ∃ y : Nat, (if month ≤ 2 then year - 1 else year) = y := by
    apply Int.eq_ofNat_of_zero_le
    split <;> omega
  have hrest : ((y : Int) - y / 400 * 400).toNat = y % 400 := by omega
  rw [daysFromCivil, marchYear, hy, hrest, Int.toNat_natCast, dayNumber, dayOfYear, yearStart,
    marchMonth, monthStart]
  generalize (153 * (if 2 < month then month - 3 else month + 9) + 2) / 5 = before
  omega

theorem isDate_first (year : Int) : IsDate year 1 1 :=
  ⟨le_rfl, by decide, le_rfl, by simp [daysInMonth]⟩

theorem daysFromCivil_bounds (h : IsDate year month day) (hyear : 1 ≤ year) :
    daysFromCivil year 1 1 ≤ daysFromCivil year month day ∧
      daysFromCivil year month day < daysFromCivil (year + 1) 1 1 := by
  obtain ⟨y, rfl⟩ : ∃ y : Nat, year = y + 1 := ⟨(year - 1).toNat, by omega⟩
  have hday : dayOfYear 1 1 = 306 := rfl
  have hnext : marchYear ((y : Int) + 1 + 1) 1 = y + 1 := by
    rw [marchYear, if_pos (by decide)]
    omega
  have hthis : marchYear ((y : Int) + 1) 1 = y := by
    rw [marchYear, if_pos (by decide)]
    omega
  have hin := inYear h hyear
  have hmarch : marchYear (y + 1) month = y ∧ 306 ≤ dayOfYear month day ∨
      marchYear (y + 1) month = y + 1 ∧ dayOfYear month day < 306 := by
    obtain ⟨hlow, hhigh, hpos, hle⟩ := h
    have hlt := dayOfYear_lt ⟨hlow, hhigh, hpos, hle⟩
    rw [marchYear]
    split
    · apply Or.inl
      rw [dayOfYear, marchMonth, monthStart, if_neg (by omega)]
      omega
    · apply Or.inr
      rw [marchMonth, monthStart, if_pos (by omega)] at hlt
      omega
  rw [daysFromCivil_eq h hyear, daysFromCivil_eq (isDate_first _) (by omega),
    daysFromCivil_eq (isDate_first _) (by omega), hday, hnext, hthis]
  obtain ⟨hyears, hd⟩ | ⟨hyears, hd⟩ := hmarch
  · rw [hyears] at hin ⊢
    have hlt := dayNumber_lt hin
    have hsame := dayNumber_eq_add y 306
    have hother := dayNumber_eq_add y (dayOfYear month day)
    have hlast := dayNumber_eq_add (y + 1) 306
    omega
  · rw [hyears] at hin ⊢
    have hlt := dayNumber_lt (show InYear y 306 from .inl (by decide))
    have hother := dayNumber_eq_add (y + 1) (dayOfYear month day)
    have hlast := dayNumber_eq_add (y + 1) 306
    omega

theorem daysFromCivil_mono {y y' : Int} (hy : 1 ≤ y) (hle : y ≤ y') :
    daysFromCivil y 1 1 ≤ daysFromCivil y' 1 1 := by
  have hmarch (y : Int) : marchYear y 1 = (y - 1).toNat := by rw [marchYear, if_pos (by decide)]
  rw [daysFromCivil_eq (isDate_first _) hy, daysFromCivil_eq (isDate_first _) (hy.trans hle),
    hmarch, hmarch, dayNumber_eq_add, dayNumber_eq_add _ (dayOfYear 1 1)]
  have hmono := dayNumber_mono (show (y - 1).toNat ≤ (y' - 1).toNat by omega)
  dsimp only at hmono
  omega

theorem year_mem_iff (h : IsDate year month day) (hyear : 1 ≤ year) :
    1980 ≤ year ∧ year ≤ 2107 ↔ 3652 ≤ daysFromCivil year month day ∧
      daysFromCivil year month day < 50403 := by
  obtain ⟨hlow, hhigh⟩ := daysFromCivil_bounds h hyear
  have hepoch : daysFromCivil 1980 1 1 = 3652 := by decide
  have hend : daysFromCivil 2108 1 1 = 50403 := by decide
  constructor
  · rintro ⟨hfrom, hto⟩
    have hfirst := daysFromCivil_mono (by decide : (1 : Int) ≤ 1980) hfrom
    have hlast := daysFromCivil_mono (by omega) (show year + 1 ≤ 2108 by omega)
    omega
  · rintro ⟨hfrom, hto⟩
    constructor
    · by_contra hlt
      have hfirst := daysFromCivil_mono (by omega) (show year + 1 ≤ 1980 by omega)
      omega
    · by_contra hlt
      have hlast := daysFromCivil_mono (by decide) (show 2108 ≤ year by omega)
      omega

end Civil

namespace Date

open Calendar

theorem civilFromDays_eq {year : Int} {month day days : Nat} (h : IsDate year month day)
    (hyear : 1 ≤ year)
    (hdays : daysFromCivil year month day = days + 3652) :
    civilFromDays days = (year.toNat, month, day) := by
  have hin := inYear h hyear
  have hmonth := monthOf_dayOfYear h
  have hnumber : days + 723120 = dayNumber (marchYear year month) (dayOfYear month day) := by
    rw [daysFromCivil_eq h hyear] at hdays
    omega
  have hrest : dayNumber (marchYear year month) (dayOfYear month day) - marchYear year
      month / 400 * 146097 =
        yearStart (marchYear year month % 400) + dayOfYear month day := by
    rw [dayNumber, Nat.add_sub_cancel_left]
  have hyears : yearOf (yearStart (marchYear year month % 400) + dayOfYear month day) =
    marchYear year month % 400 :=
    yearOf_eq (Nat.mod_lt _ (by decide)) (inYear_mod.mpr hin)
  have hstart : 365 * (marchYear year month % 400) + marchYear year month % 400 / 4 - marchYear
      year month % 400 / 100 =
        yearStart (marchYear year month % 400) := by
    rw [yearStart, Nat.mul_comm]
  rw [yearOf] at hyears
  rw [monthOf] at hmonth
  obtain ⟨hlow, hhigh, hpos, -⟩ := h
  simp only [civilFromDays, hnumber, dayNumber_div hin, hrest, hyears, hstart,
    Nat.add_sub_cancel_left, hmonth]
  have hmonths : (if marchMonth month < 10 then marchMonth month + 3 else marchMonth month - 9) =
      month := by
    rw [marchMonth]
    split <;> split <;> omega
  rw [hmonths]
  refine Prod.ext ?_ (Prod.ext rfl ?_)
  · dsimp only
    rw [marchYear]
    split <;> omega
  · dsimp only
    rw [dayOfYear, monthStart]
    omega

theorem exists_date (days : Nat) : ∃ year month day, IsDate year month day ∧ 1 ≤ year ∧
    daysFromCivil year month day = days + 3652 := by
  obtain ⟨y, d, hin, hnumber⟩ := exists_dayNumber (days + 723120)
  obtain ⟨year, month, day, hdate, hyear, rfl, rfl⟩ := exists_isDate hin
  have hpos : 1 ≤ year := by
    by_contra hzero
    obtain rfl : year = 0 := by omega
    have hmarch : marchYear 0 month = 0 := by
      rw [marchYear]
      split <;> rfl
    rw [hmarch] at hnumber hin
    have hlt := dayNumber_lt hin
    have hone : dayNumber (0 + 1) 0 = 365 := rfl
    omega
  refine ⟨year, month, day, hdate, hpos, ?_⟩
  rw [daysFromCivil_eq hdate hpos]
  omega

def Stamp.ofFields (year month day hour minute half tenths : Nat) : Stamp :=
  ⟨UInt16.ofNat (year * 512 + month * 32 + day), UInt16.ofNat (hour * 2048 + minute * 32 + half),
    UInt8.ofNat tenths⟩

theorem or_fields {a b c i j : Nat} (hb : b < 2 ^ i) (hc : c < 2 ^ j) :
    a <<< (i + j) ||| b <<< j ||| c = a * 2 ^ (i + j) + b * 2 ^ j + c := by
  have hlow : b <<< j + c < 2 ^ (i + j) := by
    rw [Nat.shiftLeft_eq, Nat.pow_add]
    calc
      b * 2 ^ j + c < b * 2 ^ j + 2 ^ j := Nat.add_lt_add_left hc _
      _ = (b + 1) * 2 ^ j := (Nat.succ_mul b _).symm
      _ ≤ 2 ^ i * 2 ^ j := Nat.mul_le_mul_right _ hb
  rw [Nat.or_assoc, ← Nat.shiftLeft_add_eq_or_of_lt hc, ← Nat.shiftLeft_add_eq_or_of_lt hlow,
    Nat.shiftLeft_eq, Nat.shiftLeft_eq, Nat.add_assoc]

theorem pack_eq {year month day hour minute second : Nat} (hyear : year < 128)
    (hmonth : month < 16) (hday : day < 32)
    (hhour : hour < 32) (hminute : minute < 64) (hsecond : second < 64) (tenths : Nat) :
    ⟨(pack (1980 + year) month day hour minute second).1,
      (pack (1980 + year) month day hour minute second).2,
      UInt8.ofNat tenths⟩ = Stamp.ofFields year month day hour minute (second / 2) tenths := by
  have hdate := or_fields (a := year) (i := 4) (j := 5) hmonth hday
  have htime := or_fields (a := hour) (i := 6) (j := 5) hminute (show second / 2 < 2 ^ 5 by omega)
  have hmask (n k : Nat) (h : n < 2 ^ k) :
    n &&& (2 ^ k - 1) = n := by rw [Nat.and_two_pow_sub_one_eq_mod, Nat.mod_eq_of_lt h]
  have hmonth' : month &&& 0x0F = month := hmask month 4 hmonth
  have hday' : day &&& 0x1F = day := hmask day 5 hday
  have hhour' : hour &&& 0x1F = hour := hmask hour 5 hhour
  have hminute' : minute &&& 0x3F = minute := hmask minute 6 hminute
  have hsecond' : second / 2 &&& 0x1F = second / 2 := hmask (second / 2) 5 (by omega)
  rw [pack, if_neg (by omega), if_neg (by omega), Nat.add_sub_cancel_left, hmonth', hday',
    hhour', hminute', hsecond']
  exact congrArg₂ (Stamp.mk · · _) (congrArg UInt16.ofNat hdate) (congrArg UInt16.ofNat htime)

namespace Stamp

variable (stamp : Stamp)

def year : Nat := stamp.date.toNat / 512
def month : Nat := stamp.date.toNat / 32 % 16
def day : Nat := stamp.date.toNat % 32
def hour : Nat := stamp.time.toNat / 2048
def minute : Nat := stamp.time.toNat / 32 % 64
def half : Nat := stamp.time.toNat % 32

/-- The fields are those of a date and of a time of day. -/
structure Valid : Prop where
  date : IsDate (1980 + stamp.year) stamp.month stamp.day
  hour : stamp.hour ≤ 23
  minute : stamp.minute ≤ 59
  second : stamp.half * 2 ≤ 59

def shownTenths : Nat := if 199 < stamp.tenths then 0 else stamp.tenths.toNat

def seconds : Int :=
  daysFromCivil (1980 + stamp.year) stamp.month stamp.day * 86400 +
    (stamp.hour * 3600 + stamp.minute * 60 + stamp.half * 2 : Nat) +
      (stamp.shownTenths / 100 : Nat)

def nanoseconds : Nat := stamp.shownTenths % 100 * nanosPerTenth

theorem ofFields_fields : ofFields stamp.year stamp.month stamp.day stamp.hour stamp.minute
    stamp.half stamp.tenths.toNat = stamp := by
  have hdate : stamp.year * 512 + stamp.month * 32 + stamp.day = stamp.date.toNat := by
    rw [year, month, day]
    omega
  have htime : stamp.hour * 2048 + stamp.minute * 32 + stamp.half = stamp.time.toNat := by
    rw [hour, minute, half]
    clear hdate
    omega
  rw [ofFields, hdate, htime, UInt16.ofNat_toNat, UInt16.ofNat_toNat, UInt8.ofNat_toNat]

variable {stamp}

theorem Valid.year_lt (_ : stamp.Valid) : stamp.year < 128 := by
  have hlt := stamp.date.toNat_lt
  rw [year]
  omega

theorem shownTenths_le (stamp : Stamp) : stamp.shownTenths ≤ 199 := by
  rw [shownTenths]
  split
  · exact Nat.zero_le _
  · exact UInt8.le_iff_toNat_le.mp (UInt8.not_lt.mp ‹_›)

theorem shownTenths_eq (h : stamp.tenths ≤ 199) : stamp.shownTenths = stamp.tenths.toNat :=
  if_neg (UInt8.not_lt.mpr h)

theorem nanoseconds_lt (stamp : Stamp) : stamp.nanoseconds < 1000000000 := by
  rw [nanoseconds, nanosPerTenth]
  omega

theorem Valid.seconds_mem (h : stamp.Valid) :
    epochSeconds ≤ stamp.seconds ∧ stamp.seconds < endSeconds := by
  have hyear := h.year_lt
  have htenths := shownTenths_le stamp
  obtain ⟨hdate, hhour, hminute, hsecond⟩ := h
  obtain ⟨hlow, hhigh⟩ := (year_mem_iff hdate (by omega)).mp (by omega)
  rw [seconds, epochSeconds, endSeconds]
  omega

section

variable {year month day hour minute half : Nat} (tenths : Nat) (hyear : year < 128)
  (hmonth : month < 16) (hday : day < 32)
  (hhour : hour < 32) (hminute : minute < 64) (hhalf : half < 32)

include hyear hmonth hday hhour hminute hhalf

theorem fields_ofFields :
    (ofFields year month day hour minute half tenths).year = year ∧
      (ofFields year month day hour minute half tenths).month = month ∧
      (ofFields year month day hour minute half tenths).day = day ∧
      (ofFields year month day hour minute half tenths).hour = hour ∧
      (ofFields year month day hour minute half tenths).minute = minute ∧
      (ofFields year month day hour minute half tenths).half = half := by
  have hdate : (ofFields year month day hour minute half tenths).date.toNat =
    year * 512 + month * 32 + day :=
    UInt16.toNat_ofNat_of_lt' (by change _ < 65536; omega)
  have htime : (ofFields year month day hour minute half tenths).time.toNat = hour * 2048 +
    minute * 32 + half :=
    UInt16.toNat_ofNat_of_lt' (by change _ < 65536; omega)
  simp only [Stamp.year, Stamp.month, Stamp.day, Stamp.hour, Stamp.minute,
    Stamp.half, hdate, htime]
  omega

end

theorem shownTenths_ofFields {year month day hour minute half tenths : Nat} (h : tenths ≤ 199) :
    (ofFields year month day hour minute half tenths).shownTenths = tenths := by
  have htenths : (ofFields year month day hour minute half tenths).tenths.toNat = tenths :=
    UInt8.toNat_ofNat_of_lt' (by change _ < 256; omega)
  rw [shownTenths_eq (UInt8.le_iff_toNat_le.mpr (htenths.le.trans h)), htenths]

theorem decode_fields (stamp : Stamp) :
    stamp.date.toNat >>> 9 = stamp.year ∧ stamp.date.toNat >>> 5 &&& 0x0F = stamp.month ∧
      stamp.date.toNat &&& 0x1F = stamp.day ∧
      stamp.time.toNat >>> 11 = stamp.hour ∧ stamp.time.toNat >>> 5 &&& 0x3F = stamp.minute ∧
      stamp.time.toNat &&& 0x1F = stamp.half := by
  have hmask (n k : Nat) : n &&& (2 ^ k - 1) = n % 2 ^ k := Nat.and_two_pow_sub_one_eq_mod n k
  refine ⟨Nat.shiftRight_eq_div_pow _ 9, (hmask _ 4).trans ?_, hmask _ 5,
    Nat.shiftRight_eq_div_pow _ 11, (hmask _ 6).trans ?_, hmask _ 5⟩
  · rw [Nat.shiftRight_eq_div_pow]
    rfl
  · rw [Nat.shiftRight_eq_div_pow]
    rfl

end Stamp

end Date

namespace ZonedDateTime

theorem new_eq {seconds : Int} {nanoseconds : Nat} (hnanos : nanoseconds < 1000000000)
    (hlow : DateTime.minSeconds ≤ seconds) (hhigh : seconds ≤ DateTime.maxSeconds) :
    ∃ time, new seconds nanoseconds = some time ∧ time.unixSeconds = seconds ∧
      time.nanoseconds = nanoseconds :=
  ⟨_, dif_pos ⟨hnanos, hlow, hhigh⟩, rfl, rfl⟩

theorem withUtcOffsetMinutes_eq (time : ZonedDateTime) {zone : Option Int}
    (hzone : checkOffset zone = true) :
    ∃ other, time.withUtcOffsetMinutes zone = some other ∧ other.toDateTime = time.toDateTime ∧
      other.offsetMinutes = zone :=
  ⟨_, dif_pos hzone, rfl, rfl⟩

theorem withUtcOffsetMinutes_self (time : ZonedDateTime) :
    time.withUtcOffsetMinutes time.offsetMinutes = some time :=
  dif_pos time.checked

theorem offset_bounds (time : ZonedDateTime) : -1439 ≤ time.offsetMinutes.getD 0 ∧
    time.offsetMinutes.getD 0 ≤ 1439 := by
  have hchecked := time.checked
  rw [checkOffset] at hchecked
  cases hzone : time.offsetMinutes with
  | none => exact ⟨by decide, by decide⟩
  | some minutes =>
    rw [hzone] at hchecked
    exact of_decide_eq_true hchecked

end ZonedDateTime

theorem checkOffset_bounds {zone : Option Int} (h : checkOffset zone = true) :
    -1439 ≤ zone.getD 0 ∧ zone.getD 0 ≤ 1439 := by
  cases zone with
  | none => exact ⟨by decide, by decide⟩
  | some minutes => exact of_decide_eq_true h

namespace Date

variable {stamp : Stamp} {zone : Option Int}

theorem decode_of_valid (h : stamp.Valid) (hzone : checkOffset zone = true) :
    ∃ time, decode stamp zone = some time ∧ time.unixSeconds = stamp.seconds - zone.getD 0 * 60 ∧
      time.nanoseconds = stamp.nanoseconds ∧ time.offsetMinutes = zone := by
  obtain ⟨hlow, hhigh⟩ := h.seconds_mem
  obtain ⟨hzlow, hzhigh⟩ := checkOffset_bounds hzone
  rw [epochSeconds] at hlow
  rw [endSeconds] at hhigh
  obtain ⟨hyear, hmonth, hday, hhour, hminute, hhalf⟩ := Stamp.decode_fields stamp
  have hmin : DateTime.minSeconds ≤ 0 - 86400 := by
    rw [DateTime.minSeconds]
    omega
  have hmax : 4354819200 + 86400 ≤ DateTime.maxSeconds := by
    rw [DateTime.maxSeconds]
    omega
  have hdate : CivilDate.new (1980 + stamp.year) stamp.month stamp.day = some ⟨_, _, _, h.date⟩ :=
    dif_pos h.date
  have htime : CivilTime.new stamp.hour stamp.minute (stamp.half * 2) =
    some ⟨_, _, _, h.hour, h.minute, h.second⟩ :=
    dif_pos ⟨h.hour, h.minute, h.second⟩
  have htenths := Stamp.shownTenths_le stamp
  obtain ⟨base, hbase, hseconds, -⟩ := ZonedDateTime.new_eq (show 0 < 1000000000 by decide)
    (show DateTime.minSeconds ≤ stamp.seconds - (stamp.shownTenths / 100 : Nat) by omega)
    (show stamp.seconds - (stamp.shownTenths / 100 : Nat) ≤ DateTime.maxSeconds by omega)
  rw [Stamp.seconds, Int.add_sub_cancel] at hbase
  obtain ⟨shown, hshown, hshownSeconds, hnanos⟩ := ZonedDateTime.new_eq stamp.nanoseconds_lt
    (show DateTime.minSeconds ≤ stamp.seconds - zone.getD 0 * 60 by omega)
    (show stamp.seconds - zone.getD 0 * 60 ≤ DateTime.maxSeconds by omega)
  obtain ⟨time, htime', hsame, hoffset⟩ := shown.withUtcOffsetMinutes_eq hzone
  refine ⟨time, ?_, ?_, ?_, hoffset⟩
  · have hfrom : ZonedDateTime.fromCivil ⟨_, _, _, h.date⟩ ⟨_, _, _, h.hour, h.minute, h.second⟩ =
        some base := by
      simp only [ZonedDateTime.fromCivil, CivilTime.secondsOfDay]
      exact hbase
    have hsum : base.unixSeconds + (stamp.shownTenths / 100 : Nat) - zone.getD 0 * 60 =
        stamp.seconds - zone.getD 0 * 60 := by
      rw [hseconds]
      omega
    have htenths : (if 199 < stamp.tenths then 0 else stamp.tenths.toNat) =
      stamp.shownTenths := rfl
    rw [Stamp.nanoseconds] at hshown
    simp only [decode, hyear, hmonth, hday, hhour, hminute, hhalf, hdate, htime,
      Option.bind_eq_bind, Option.bind_some]
    rw [hfrom, Option.bind_some, htenths, hsum, hshown]
    exact htime'
  · rw [hsame, hshownSeconds]
  · rw [hsame, hnanos]

theorem valid_of_decode {time : ZonedDateTime} (h : decode stamp zone = some time) :
    stamp.Valid ∧ checkOffset zone = true := by
  obtain ⟨hyear, hmonth, hday, hhour, hminute, hhalf⟩ := Stamp.decode_fields stamp
  simp only [decode, hyear, hmonth, hday, hhour, hminute, hhalf, Option.bind_eq_bind,
    Option.bind_eq_some_iff] at h
  obtain ⟨civilDate, hdate, civilTime, htime, base, -, shown, -, hzone⟩ := h
  rw [CivilDate.new, Option.dite_none_right_eq_some] at hdate
  rw [CivilTime.new, Option.dite_none_right_eq_some] at htime
  rw [ZonedDateTime.withUtcOffsetMinutes, Option.dite_none_right_eq_some] at hzone
  exact ⟨⟨hdate.1, htime.1.1, htime.1.2.1, htime.1.2.2⟩, hzone.1⟩

theorem month_day_lt {year : Int} {month day : Nat} (h : IsDate year month day) :
    month < 16 ∧ day < 32 := by
  obtain ⟨hlow, hhigh, hpos, hle⟩ := h
  have hmost : daysInMonth year month ≤ 31 := by
    obtain rfl | hfeb := eq_or_ne month 2
    · exact (daysInMonth_two_le year).trans (by decide)
    · have hnext := monthStart_succ hlow hhigh hfeb year
      rw [Calendar.monthStart, Calendar.monthStart] at hnext
      omega
  omega

theorem encodeLocal_eq {year month day hour minute second : Nat} (nanoseconds : Nat)
    (hyear : year < 128)
    (hdate : IsDate (1980 + year) month day) (hhour : hour ≤ 23) (hminute : minute ≤ 59)
    (hsecond : second ≤ 59) :
    encodeLocal (daysFromCivil (1980 + year) month day * 86400 +
      (hour * 3600 + minute * 60 + second : Nat)) nanoseconds =
      Stamp.ofFields year month day hour minute (second / 2)
        (second % 2 * 100 + nanoseconds / nanosPerTenth) := by
  obtain ⟨hmonth, hday⟩ := month_day_lt hdate
  obtain ⟨hlow, hhigh⟩ := (year_mem_iff hdate (by omega)).mp (by omega)
  obtain ⟨days, hdays⟩ : ∃ days : Nat, daysFromCivil (1980 + year) month day = days + 3652 :=
    ⟨(daysFromCivil (1980 + year) month day - 3652).toNat, by omega⟩
  have hcivil := civilFromDays_eq hdate (by omega) hdays
  obtain ⟨clock, hclock⟩ : ∃ clock, clock = hour * 3600 + minute * 60 + second := ⟨_, rfl⟩
  have hlt : clock < 86400 := by omega
  have hseconds : ((days + 3652 : Int) * 86400 + (clock : Nat) - epochSeconds).toNat =
      days * 86400 + clock := by
    rw [epochSeconds]
    omega
  have hday' : (days * 86400 + clock) / 86400 = days := by omega
  have hrest : (days * 86400 + clock) % 86400 = clock := by omega
  have hhours : clock / 3600 = hour := by omega
  have hminutes : clock / 60 % 60 = minute := by omega
  have hsec : clock % 60 = second := by omega
  rw [← hclock, hdays, encodeLocal, if_neg (by rw [epochSeconds]; omega),
    if_neg (by rw [endSeconds]; omega)]
  simp only [hseconds, hday', hrest, hcivil, hhours, hminutes, hsec]
  have hyears : (1980 + (year : Int)).toNat = 1980 + year := by omega
  rw [hyears]
  exact pack_eq hyear hmonth hday (by omega) (by omega) (by omega) _

theorem encodeLocal_seconds (h : stamp.Valid) (htenths : stamp.tenths ≤ 199) :
    encodeLocal stamp.seconds stamp.nanoseconds = stamp := by
  have hyear := h.year_lt
  have hle := Stamp.shownTenths_le stamp
  obtain ⟨hdate, hhour, hminute, hsecond⟩ := h
  have hseconds : stamp.seconds = daysFromCivil
      (1980 + stamp.year) stamp.month stamp.day * 86400 +
        (stamp.hour * 3600 + stamp.minute * 60 +
          (stamp.half * 2 + stamp.shownTenths / 100) : Nat) := by
    rw [Stamp.seconds]
    omega
  have hnanos : stamp.nanoseconds / nanosPerTenth = stamp.shownTenths % 100 :=
    Nat.mul_div_cancel _ (by decide)
  have hhalf : (stamp.half * 2 + stamp.shownTenths / 100) / 2 = stamp.half := by omega
  have hodd : (stamp.half * 2 + stamp.shownTenths / 100) % 2 * 100 + stamp.shownTenths % 100 =
      stamp.tenths.toNat := by
    rw [← Stamp.shownTenths_eq htenths]
    omega
  rw [hseconds, encodeLocal_eq _ hyear hdate hhour hminute (by omega), hnanos, hhalf, hodd]
  exact stamp.ofFields_fields

def nearest (seconds : Int) (nanoseconds : Nat) : Int × Nat :=
  if seconds < epochSeconds then (epochSeconds, 0)
  else if endSeconds ≤ seconds then (endSeconds - 1, 990000000)
  else (seconds, nanoseconds / nanosPerTenth * nanosPerTenth)

theorem encodeLocal_shows (seconds : Int) {nanoseconds : Nat}
    (hnanos : nanoseconds < 1000000000) :
    (encodeLocal seconds nanoseconds).Valid ∧
      (encodeLocal seconds nanoseconds).seconds = (nearest seconds nanoseconds).1 ∧
        (encodeLocal seconds nanoseconds).nanoseconds = (nearest seconds nanoseconds).2 := by
  by_cases hlow : seconds < epochSeconds
  · rw [encodeLocal, nearest, if_pos hlow, if_pos hlow]
    exact ⟨⟨by decide, by decide, by decide, by decide⟩, by decide, by decide⟩
  by_cases hhigh : endSeconds ≤ seconds
  · rw [encodeLocal, nearest, if_neg hlow, if_neg hlow, if_pos hhigh, if_pos hhigh]
    exact ⟨⟨by decide, by decide, by decide, by decide⟩, by decide, by decide⟩
  rw [nearest, if_neg hlow, if_neg hhigh]
  rw [epochSeconds] at hlow
  rw [endSeconds] at hhigh
  obtain ⟨days, clock, hclock, rfl⟩ : ∃ days clock : Nat, clock < 86400 ∧
    seconds = (days + 3652 : Int) * 86400 + clock :=
    ⟨((seconds - 315532800) / 86400).toNat,
      ((seconds - 315532800) % 86400).toNat, by omega, by omega⟩
  obtain ⟨year, month, day, hdate, hpos, hdays⟩ := exists_date days
  obtain ⟨hfrom, hto⟩ := (year_mem_iff hdate hpos).mpr (by omega)
  obtain ⟨year, rfl⟩ : ∃ y : Nat, year = 1980 + y := ⟨(year - 1980).toNat, by omega⟩
  obtain ⟨hmonth, hday⟩ := month_day_lt hdate
  have hsplit : clock = clock / 3600 * 3600 + clock / 60 % 60 * 60 + clock % 60 := by omega
  have htenths : clock % 60 % 2 * 100 + nanoseconds / nanosPerTenth ≤ 199 := by
    rw [nanosPerTenth]
    omega
  have hencode := encodeLocal_eq nanoseconds (by omega) hdate (show clock / 3600 ≤ 23 by omega)
    (show clock / 60 % 60 ≤ 59 by omega) (show clock % 60 ≤ 59 by omega)
  rw [← hsplit, hdays] at hencode
  obtain ⟨hyears, hmonths, hdays', hhours, hminutes, hhalf⟩ := Stamp.fields_ofFields
    (clock % 60 % 2 * 100 + nanoseconds / nanosPerTenth) (show year < 128 by omega) hmonth hday
      (show clock / 3600 < 32 by omega) (show clock / 60 % 60 < 64 by omega)
    (show clock % 60 / 2 < 32 by omega)
  have hshown : (Stamp.ofFields year month day (clock / 3600) (clock / 60 % 60) (clock % 60 / 2)
      (clock % 60 % 2 * 100 + nanoseconds / nanosPerTenth)).shownTenths = _ :=
        Stamp.shownTenths_ofFields htenths
  have hodd : (clock % 60 % 2 * 100 + nanoseconds / nanosPerTenth) / 100 = clock % 60 % 2 := by
    rw [nanosPerTenth] at htenths ⊢
    omega
  have hrest : (clock % 60 % 2 * 100 + nanoseconds / nanosPerTenth) % 100 =
      nanoseconds / nanosPerTenth := by
    rw [nanosPerTenth]
    omega
  rw [hencode]
  refine ⟨⟨?_, ?_, ?_, ?_⟩, ?_, ?_⟩
  · rwa [hyears, hmonths, hdays']
  · rw [hhours]
    omega
  · rw [hminutes]
    omega
  · rw [hhalf]
    omega
  · rw [Stamp.seconds, hyears, hmonths, hdays', hhours, hminutes, hhalf, hshown, hodd, hdays]
    dsimp only
    omega
  · rw [Stamp.nanoseconds, hshown, hrest]

/-- `shown` is the time nearest to `time` of those a clock `offset` minutes east of
UTC can be stored as. -/
def IsNearest (time shown : ZonedDateTime) (offset : Int) : Prop :=
  (shown.unixSeconds + offset * 60, shown.nanoseconds) =
    nearest (time.unixSeconds + offset * 60) time.nanoseconds

theorem inZone_nanoseconds (time : ZonedDateTime) (zone : Option Int) :
    (inZone time zone).nanoseconds = time.nanoseconds := by
  cases zone with
  | none => rfl
  | some minutes =>
    rw [inZone, ZonedDateTime.withUtcOffsetMinutes]
    split <;> rfl

theorem inZone_some (time : ZonedDateTime) {minutes : Int}
    (h : checkOffset (some minutes) = true) :
    (inZone time (some minutes)).localSeconds = time.unixSeconds + minutes * 60 := by
  rw [inZone, ZonedDateTime.withUtcOffsetMinutes, dif_pos h]
  rfl

theorem encode_decode {time : ZonedDateTime} (htenths : stamp.tenths ≤ 199)
    (h : decode stamp zone = some time) :
    encode time zone = stamp := by
  obtain ⟨hvalid, hzone⟩ := valid_of_decode h
  obtain ⟨other, hother, hseconds, hnanos, hoffset⟩ := decode_of_valid hvalid hzone
  obtain rfl := Option.some.inj (h.symm.trans hother)
  have hsame : inZone time zone = time := by
    cases zone with
    | none => rfl
    | some minutes =>
      rw [inZone, ← hoffset, time.withUtcOffsetMinutes_self]
      rfl
  have hlocal : time.localSeconds = stamp.seconds := by
    rw [ZonedDateTime.localSeconds, hseconds, hoffset]
    omega
  rw [encode, hsame, hlocal, hnanos]
  exact encodeLocal_seconds hvalid htenths

theorem decode_encodeLocal (seconds : Int) {nanoseconds : Nat} (hnanos : nanoseconds < 1000000000)
    (hzone : checkOffset zone = true) :
    ∃ shown, decode (encodeLocal seconds nanoseconds) zone = some shown ∧
      shown.offsetMinutes = zone ∧
      (shown.unixSeconds + zone.getD 0 * 60, shown.nanoseconds) =
        nearest seconds nanoseconds := by
  obtain ⟨hvalid, hseconds, hnanos'⟩ := encodeLocal_shows seconds hnanos
  obtain ⟨shown, hshown, hunix, hn, hoffset⟩ := decode_of_valid hvalid hzone
  refine ⟨shown, hshown, hoffset, Prod.ext ?_ ?_⟩
  · dsimp only
    rw [hunix, hseconds]
    omega
  · exact hn.trans hnanos'

theorem decode_encode (time : ZonedDateTime) (hzone : checkOffset zone = true) :
    ∃ shown, decode (encode time zone) zone = some shown ∧ shown.offsetMinutes = zone ∧
      (shown.unixSeconds + zone.getD 0 * 60, shown.nanoseconds) =
        nearest (inZone time zone).localSeconds time.nanoseconds := by
  rw [encode, inZone_nanoseconds]
  exact decode_encodeLocal _ time.nanoseconds_lt hzone

end Date

namespace Exfat

open Date

/-- The fields of an entry set's time. -/
structure TimeStamp where
  stamp : UInt32
  increment : UInt8
  offset : UInt8
deriving DecidableEq

def utcOffsetValid : UInt8 := 0x80

def isQuarter (minutes : Int) : Bool :=
  minutes % 15 == 0 && decide (-64 * 15 ≤ minutes ∧ minutes ≤ 63 * 15)

def TimeStamp.join (fields : Stamp) (offset : UInt8) : TimeStamp :=
  ⟨fields.date.toUInt32 <<< 16 ||| fields.time.toUInt32, fields.tenths, offset⟩

def TimeStamp.fields (stored : TimeStamp) : Stamp :=
  ⟨(stored.stamp >>> 16).toUInt16, stored.stamp.toUInt16, stored.increment⟩

def offsetByte (minutes : Int) : UInt8 :=
  utcOffsetValid ||| ((Int8.ofInt (minutes / 15)).toUInt8 &&& 0x7F)

def offsetMinutes (offset : UInt8) : Int := ((offset <<< 1).toInt8 >>> 1).toInt * 15

def encodeTime (time : ZonedDateTime) : TimeStamp :=
  match time.offsetMinutes with
  | none => TimeStamp.join (Date.encode time none) utcOffsetValid
  | some minutes =>
    if isQuarter minutes then TimeStamp.join (Date.encode time none) (offsetByte minutes)
    else TimeStamp.join (Date.encode ((time.withUtcOffsetMinutes (some 0)).getD time) none)
      utcOffsetValid

def decodeTime (stored : TimeStamp) (zone : Option Int) : Option ZonedDateTime :=
  if stored.offset &&& utcOffsetValid = 0 then Date.decode stored.fields zone
  else do
    let shown ← Date.decode stored.fields none
    let time ← ZonedDateTime.new (shown.unixSeconds - offsetMinutes stored.offset * 60)
      shown.nanoseconds
    time.withUtcOffsetMinutes (some (offsetMinutes stored.offset))

def storedOffset (time : ZonedDateTime) : Int :=
  if isQuarter (time.offsetMinutes.getD 0) then time.offsetMinutes.getD 0 else 0

theorem TimeStamp.fields_join (fields : Stamp) (offset : UInt8) :
    (join fields offset).fields = fields := by
  have hdate := fields.date.toNat_lt
  have htime := fields.time.toNat_lt
  have hstamp : (join fields offset).stamp.toNat = fields.date.toNat * 65536 +
      fields.time.toNat := by
    have hlow : fields.time.toNat < 2 ^ 16 := htime
    change (fields.date.toUInt32 <<< 16 ||| fields.time.toUInt32).toNat = _
    rw [UInt32.toNat_or, UInt32.toNat_shiftLeft, UInt16.toNat_toUInt32, UInt16.toNat_toUInt32]
    change fields.date.toNat <<< 16 % 2 ^ 32 ||| fields.time.toNat = _
    rw [Nat.mod_eq_of_lt (by rw [Nat.shiftLeft_eq]; omega), ← Nat.shiftLeft_add_eq_or_of_lt hlow,
      Nat.shiftLeft_eq]
  have hhigh : ((join fields offset).stamp >>> 16).toUInt16 = fields.date := by
    apply UInt16.toNat_inj.mp
    rw [UInt32.toNat_toUInt16, UInt32.toNat_shiftRight, hstamp]
    change (fields.date.toNat * 65536 + fields.time.toNat) >>> 16 % 2 ^ 16 = _
    rw [Nat.shiftRight_eq_div_pow]
    omega
  have hlow : (join fields offset).stamp.toUInt16 = fields.time := by
    apply UInt16.toNat_inj.mp
    rw [UInt32.toNat_toUInt16, hstamp]
    omega
  rw [TimeStamp.fields, hhigh, hlow]
  rfl

theorem TimeStamp.join_fields (stored : TimeStamp) :
    join stored.fields stored.offset = stored := by
  have hstamp : (stored.stamp >>> 16).toUInt16.toUInt32 <<< 16 |||
      stored.stamp.toUInt16.toUInt32 = stored.stamp := by
    apply UInt32.toNat_inj.mp
    have hlt := stored.stamp.toNat_lt
    have hlow : stored.stamp.toNat % 2 ^ 16 < 2 ^ 16 := Nat.mod_lt _ (by decide)
    rw [UInt32.toNat_or, UInt32.toNat_shiftLeft, UInt16.toNat_toUInt32, UInt16.toNat_toUInt32,
      UInt32.toNat_toUInt16, UInt32.toNat_toUInt16, UInt32.toNat_shiftRight]
    change (stored.stamp.toNat >>> 16 % 2 ^ 16) <<< 16 % 2 ^ 32 ||| stored.stamp.toNat % 2 ^ 16 =
      stored.stamp.toNat
    rw [Nat.shiftRight_eq_div_pow,
      Nat.mod_eq_of_lt (show (_ : Nat) <<< 16 < 2 ^ 32 by rw [Nat.shiftLeft_eq]; omega),
      ← Nat.shiftLeft_add_eq_or_of_lt hlow, Nat.shiftLeft_eq]
    omega
  rw [join, TimeStamp.fields, hstamp]

theorem offsetByte_offsetMinutes {offset : UInt8} (h : offset &&& utcOffsetValid ≠ 0) :
    offsetByte (offsetMinutes offset) = offset ∧ isQuarter (offsetMinutes offset) = true := by
  have hbytes : ∀ n < 256, UInt8.ofNat n &&& utcOffsetValid ≠ 0 →
      offsetByte (offsetMinutes (UInt8.ofNat n)) = UInt8.ofNat n ∧
        isQuarter (offsetMinutes (UInt8.ofNat n)) = true := by
    decide +kernel
  have hbyte := hbytes offset.toNat offset.toNat_lt
  rw [UInt8.ofNat_toNat] at hbyte
  exact hbyte h

theorem offsetMinutes_offsetByte {minutes : Int} (h : isQuarter minutes = true) :
    offsetMinutes (offsetByte minutes) = minutes ∧ offsetByte minutes &&& utcOffsetValid ≠ 0 := by
  have hquarters : ∀ n < 128, offsetMinutes (offsetByte (((n : Nat) - 64 : Int) * 15)) =
      ((n : Nat) - 64 : Int) * 15 ∧
        offsetByte (((n : Nat) - 64 : Int) * 15) &&& utcOffsetValid ≠ 0 := by
    decide +kernel
  rw [isQuarter, Bool.and_eq_true, beq_iff_eq, decide_eq_true_eq] at h
  have hquarter := hquarters (minutes / 15 + 64).toNat (by omega)
  have hminutes : (((minutes / 15 + 64).toNat : Nat) - 64 : Int) * 15 = minutes := by omega
  rwa [hminutes] at hquarter

theorem isQuarter_bounds {minutes : Int} (h : isQuarter minutes = true) :
    checkOffset (some minutes) = true := by
  rw [isQuarter, Bool.and_eq_true, decide_eq_true_eq] at h
  rw [checkOffset, Option.all_some, decide_eq_true_eq]
  omega

theorem encodeTime_eq (time : ZonedDateTime) : encodeTime time =
    TimeStamp.join (encodeLocal (time.unixSeconds + storedOffset time * 60) time.nanoseconds)
      (offsetByte (storedOffset time)) := by
  have hzero : offsetByte 0 = utcOffsetValid := by decide
  rw [encodeTime, storedOffset]
  cases hoffset : time.offsetMinutes with
  | none =>
    dsimp only
    rw [Option.getD_none, ite_self, hzero, Date.encode, inZone,
      ZonedDateTime.localSeconds, hoffset]
    rfl
  | some minutes =>
    dsimp only
    rw [Option.getD_some]
    split
    · rw [Date.encode, inZone, ZonedDateTime.localSeconds, hoffset]
      rfl
    · rw [hzero, ZonedDateTime.withUtcOffsetMinutes, dif_pos (by decide)]
      rfl

theorem storedOffset_isQuarter (time : ZonedDateTime) : isQuarter (storedOffset time) = true := by
  rw [storedOffset]
  split
  · assumption
  · decide

theorem decodeTime_join (fields : Stamp) {minutes : Int} (hquarter : isQuarter minutes = true)
    (zone : Option Int) (hvalid : fields.Valid) :
    ∃ time, decodeTime (TimeStamp.join fields (offsetByte minutes)) zone = some time ∧
      time.offsetMinutes = some minutes ∧
      time.unixSeconds = fields.seconds - minutes * 60 ∧
      time.nanoseconds = fields.nanoseconds := by
  obtain ⟨hminutes, hbit⟩ := offsetMinutes_offsetByte hquarter
  obtain ⟨shown, hshown, hseconds, hnanos, -⟩ :=
    decode_of_valid hvalid (show checkOffset none = true from rfl)
  obtain ⟨hlow, hhigh⟩ := hvalid.seconds_mem
  have hchecked := isQuarter_bounds hquarter
  obtain ⟨hzlow, hzhigh⟩ := checkOffset_bounds hchecked
  rw [epochSeconds] at hlow
  rw [endSeconds] at hhigh
  rw [Option.getD_some] at hzlow hzhigh
  rw [Option.getD_none, Int.zero_mul, Int.sub_zero] at hseconds
  have hmin : DateTime.minSeconds ≤ 0 - 86400 := by
    rw [DateTime.minSeconds]
    omega
  have hmax : 4354819200 + 86400 ≤ DateTime.maxSeconds := by
    rw [DateTime.maxSeconds]
    omega
  obtain ⟨time, htime, hunix, hn⟩ := ZonedDateTime.new_eq shown.nanoseconds_lt
    (show DateTime.minSeconds ≤ shown.unixSeconds - minutes * 60 by omega)
    (show shown.unixSeconds - minutes * 60 ≤ DateTime.maxSeconds by omega)
  obtain ⟨zoned, hzoned, hsame, hoffset⟩ := time.withUtcOffsetMinutes_eq hchecked
  refine ⟨zoned, ?_, hoffset, ?_, ?_⟩
  · have hbyte : (TimeStamp.join fields (offsetByte minutes)).offset = offsetByte minutes := rfl
    rw [decodeTime, hbyte, if_neg hbit, TimeStamp.fields_join, hshown, hminutes,
      Option.bind_eq_bind, Option.bind_some, htime]
    exact hzoned
  · rw [hsame, hunix, hseconds]
  · rw [hsame, hn, hnanos]

theorem encodeTime_decode {fields : Stamp} {zone : Option Int} {time : ZonedDateTime}
    (htenths : fields.tenths ≤ 199)
    (hquarter : isQuarter (zone.getD 0) = true) (h : Date.decode fields zone = some time) :
    encodeTime time = TimeStamp.join fields (offsetByte (zone.getD 0)) := by
  obtain ⟨hvalid, hzone⟩ := valid_of_decode h
  obtain ⟨other, hother, hseconds, hnanos, hoffset⟩ := decode_of_valid hvalid hzone
  obtain rfl := Option.some.inj (h.symm.trans hother)
  have hstored : storedOffset time = zone.getD 0 := by
    rw [storedOffset, hoffset, if_pos hquarter]
  rw [encodeTime_eq, hstored, hseconds, Int.sub_add_cancel, hnanos,
    encodeLocal_seconds hvalid htenths]

theorem encodeTime_decodeTime {stored : TimeStamp} {zone : Option Int} {time : ZonedDateTime}
    (htenths : stored.increment ≤ 199)
    (hbit : stored.offset &&& utcOffsetValid ≠ 0) (h : decodeTime stored zone = some time) :
    encodeTime time = stored := by
  obtain ⟨hbyte, hquarter⟩ := offsetByte_offsetMinutes hbit
  have hvalid : stored.fields.Valid := by
    rw [decodeTime, if_neg hbit, Option.bind_eq_bind, Option.bind_eq_some_iff] at h
    obtain ⟨shown, hshown, -⟩ := h
    exact (valid_of_decode hshown).1
  have hjoin : TimeStamp.join stored.fields (offsetByte (offsetMinutes stored.offset)) =
      stored := by
    rw [hbyte, TimeStamp.join_fields]
  obtain ⟨other, hother, hoffset, hseconds, hnanos⟩ :=
    decodeTime_join stored.fields hquarter zone hvalid
  rw [hjoin] at hother
  obtain rfl := Option.some.inj (h.symm.trans hother)
  have hstored : storedOffset time = offsetMinutes stored.offset := by
    rw [storedOffset, hoffset]
    exact if_pos hquarter
  rw [encodeTime_eq, hstored, hseconds, Int.sub_add_cancel, hnanos,
    encodeLocal_seconds hvalid htenths, hjoin]

theorem decodeTime_encodeTime (time : ZonedDateTime) (zone : Option Int) :
    ∃ shown, decodeTime (encodeTime time) zone = some shown ∧
      shown.offsetMinutes = some (storedOffset time) ∧
      IsNearest time shown (storedOffset time) := by
  obtain ⟨hvalid, hseconds, hnanos⟩ :=
    encodeLocal_shows (time.unixSeconds + storedOffset time * 60) time.nanoseconds_lt
  obtain ⟨shown, hshown, hoffset, hunix, hn⟩ :=
    decodeTime_join _ (storedOffset_isQuarter time) zone hvalid
  rw [← encodeTime_eq] at hshown
  refine ⟨shown, hshown, hoffset, Prod.ext ?_ ?_⟩
  · rw [hunix, Int.sub_add_cancel, hseconds]
  · exact hn.trans hnanos

end Exfat

open Date Exfat

/-- A stored time read in a zone, or with a valid offset of its own, is stored as the same fields
again; read without one, it is stored with the offset it was read at. A time stored is read back
as the nearest that can be: of FAT in the zone it is stored in, or without one as its clock
without an offset; of exFAT at its own offset, or at none when that cannot be stored. -/
theorem timestamps_round_trip :
    (∀ (stamp : Stamp) (zone : Option Int) (time : ZonedDateTime), stamp.tenths ≤ 199 →
      Date.decode stamp zone = some time →
      Date.encode time zone = stamp) ∧
    (∀ (time : ZonedDateTime) (minutes : Int), checkOffset (some minutes) = true →
      ∃ shown, Date.decode (Date.encode time (some minutes)) (some minutes) = some shown ∧
        shown.offsetMinutes = some minutes ∧ IsNearest time shown minutes) ∧
    (∀ time : ZonedDateTime, ∃ shown, Date.decode (Date.encode time none) none = some shown ∧
      shown.offsetMinutes = none ∧
      (shown.unixSeconds, shown.nanoseconds) = nearest time.localSeconds time.nanoseconds) ∧
    (∀ (stored : TimeStamp) (zone : Option Int) (time : ZonedDateTime), stored.increment ≤ 199 →
      stored.offset &&& utcOffsetValid ≠ 0 → decodeTime stored zone = some time →
      encodeTime time = stored) ∧
    (∀ (stored : TimeStamp) (zone : Option Int) (time : ZonedDateTime), stored.increment ≤ 199 →
      stored.offset &&& utcOffsetValid = 0 → isQuarter (zone.getD 0) = true →
      decodeTime stored zone = some time →
      encodeTime time = { stored with offset := offsetByte (zone.getD 0) }) ∧
    ∀ (time : ZonedDateTime) (zone : Option Int), ∃ shown,
      decodeTime (encodeTime time) zone = some shown ∧
      shown.offsetMinutes = some (storedOffset time) ∧
      IsNearest time shown (storedOffset time) := by
  refine ⟨fun stamp zone time htenths h => encode_decode htenths h, ?_, ?_,
    fun stored zone time htenths hbit h => encodeTime_decodeTime htenths hbit h, ?_,
      decodeTime_encodeTime⟩
  · intro time minutes hzone
    have hround := decode_encode time hzone
    rwa [inZone_some time hzone] at hround
  · intro time
    obtain ⟨shown, hshown, hoffset, hnearest⟩ :=
      decode_encode time (show checkOffset none = true from rfl)
    rw [Option.getD_none, Int.zero_mul, Int.add_zero] at hnearest
    exact ⟨shown, hshown, hoffset, hnearest⟩
  · intro stored zone time htenths hbit hquarter h
    rw [decodeTime, if_pos hbit] at h
    rw [encodeTime_decode htenths hquarter h, ← TimeStamp.join_fields
      { stored with offset := offsetByte (zone.getD 0) }]
    rfl

/-- The last time that FAT can store, at an offset of two hours, and without an offset in a
zone five hours west. -/
theorem timestamps_round_trip_sample :
    (∃ time, Date.decode Stamp.max (some 120) = some time ∧
      Date.encode time (some 120) = Stamp.max) ∧
      (∃ time, decodeTime (TimeStamp.join Stamp.max (offsetByte 120)) none = some time ∧
        encodeTime time = TimeStamp.join Stamp.max (offsetByte 120)) ∧
      ∃ time, decodeTime (TimeStamp.join Stamp.max 0) (some (-300)) = some time ∧
        encodeTime time = TimeStamp.join Stamp.max (offsetByte (-300)) := by
  have hvalid : Stamp.max.Valid := ⟨by decide, by decide, by decide, by decide⟩
  refine ⟨?_, ?_, ?_⟩
  · obtain ⟨time, htime, -⟩ := decode_of_valid hvalid
      (show checkOffset (some 120) = true by decide)
    exact ⟨time, htime, timestamps_round_trip.1 Stamp.max (some 120) time (by decide) htime⟩
  · obtain ⟨time, htime, -⟩ := decodeTime_join Stamp.max
      (show isQuarter 120 = true by decide) none hvalid
    exact ⟨time, htime, timestamps_round_trip.2.2.2.1 _ none time (by decide) (by decide) htime⟩
  · obtain ⟨time, htime, -⟩ := decode_of_valid hvalid
      (show checkOffset (some (-300)) = true by decide)
    have hzero : (TimeStamp.join Stamp.max 0).offset &&& utcOffsetValid = 0 := by decide
    have hread : decodeTime (TimeStamp.join Stamp.max 0) (some (-300)) = some time := by
      rw [decodeTime, if_pos hzero, TimeStamp.fields_join, htime]
    exact ⟨time, hread, timestamps_round_trip.2.2.2.2.1 _ (some (-300)) time
      (by decide) hzero (by decide) hread⟩

def morning : ZonedDateTime where
  unixSeconds := 1704103200
  nanoseconds := 0
  offsetMinutes := some 120
  nanoseconds_lt := by decide
  minSeconds_le := by decide
  le_maxSeconds := by decide
  checked := by decide

/-- Stored without a zone, the clock of a time with an offset is read back as UTC; and an exFAT
time without a valid offset is stored with one. -/
theorem timestamps_round_trip_fails :
    (¬ ∀ (time : ZonedDateTime) (zone : Option Int), checkOffset zone = true →
      ∃ shown, Date.decode (Date.encode time zone) zone = some shown ∧
        IsNearest time shown (zone.getD 0)) ∧
    ¬ ∀ (stored : TimeStamp) (zone : Option Int) (time : ZonedDateTime), stored.increment ≤ 199 →
      decodeTime stored zone = some time → encodeTime time = stored := by
  constructor
  · intro hall
    obtain ⟨shown, hshown, hnearest⟩ := hall morning none rfl
    obtain ⟨other, hother, -, hclock⟩ :=
      decode_encode morning (show checkOffset none = true from rfl)
    obtain rfl := Option.some.inj (hshown.symm.trans hother)
    have hsame := hnearest.symm.trans hclock
    revert hsame
    decide
  · intro hall
    have hvalid : Stamp.min.Valid := ⟨by decide, by decide, by decide, by decide⟩
    obtain ⟨time, htime, -⟩ := decode_of_valid hvalid (show checkOffset none = true from rfl)
    have hzero : (TimeStamp.join Stamp.min 0).offset &&& utcOffsetValid = 0 := by decide
    have hread : decodeTime (TimeStamp.join Stamp.min 0) none = some time := by
      rw [decodeTime, if_pos hzero, TimeStamp.fields_join, htime]
    have hstored := encodeTime_decode (by decide) (by decide) htime
    have hsame := (hall _ none time (by decide) hread).symm.trans hstored
    revert hsame
    decide

end Hadris
