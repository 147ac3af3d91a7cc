import Mathlib.Order.Monotone.Basic
import Mathlib.Tactic.Ring

namespace Hadris

namespace Calendar

def yearStart (year : Nat) : Nat := year * 365 + year / 4 - year / 100

def yearOf (day : Nat) : Nat := (day - day / 1460 + day / 36524 - day / 146096) / 365

def monthStart (month : Nat) : Nat := (153 * month + 2) / 5

def monthOf (day : Nat) : Nat := (5 * day + 2) / 153

/-- The year ends with a leap day. -/
def IsLong (year : Nat) : Prop :=
  (year + 1) % 4 = 0 ∧ ((year + 1) % 100 ≠ 0 ∨ (year + 1) % 400 = 0)

/-- The day is one of the year. -/
def InYear (year day : Nat) : Prop := day < 365 ∨ day = 365 ∧ IsLong year

theorem monthStart_le_iff (month day : Nat) : monthStart month ≤ day ↔ month ≤ monthOf day := by
  rw [monthStart, monthOf]
  omega

theorem monthOf_eq {month day : Nat} (hlow : monthStart month ≤ day)
    (hhigh : day < monthStart (month + 1)) : monthOf day = month := by
  apply le_antisymm
  · apply Nat.lt_succ_iff.mp
    rw [← not_le]
    exact fun h => absurd ((monthStart_le_iff _ _).mpr h) (Nat.not_le.mpr hhigh)
  · exact (monthStart_le_iff month day).mp hlow

theorem monthStart_monthOf (day : Nat) : monthStart (monthOf day) ≤ day ∧
    day < monthStart (monthOf day + 1) := by
  refine ⟨(monthStart_le_iff _ _).mpr le_rfl, Nat.lt_of_not_le fun h => ?_⟩
  exact Nat.not_succ_le_self _ ((monthStart_le_iff _ _).mp h)

theorem yearStart_split {c q t : Nat} (hq : q < 25) (ht : t < 4) :
    yearStart (100 * c + 4 * q + t) = 36524 * c + 1461 * q + 365 * t := by
  rw [yearStart]
  omega

theorem isLong_split {c q t : Nat} (hc : c < 4) (hq : q < 25) (ht : t < 4) :
    IsLong (100 * c + 4 * q + t) ↔ t = 3 ∧ (q < 24 ∨ c = 3) := by
  rw [IsLong]
  omega

theorem cycles_le {c q t day : Nat} (hc : c < 4) (hq : q < 25) (ht : t < 4)
    (hday : day < 365 ∨ day = 365 ∧ t = 3 ∧ (q < 24 ∨ c = 3)) :
    (24 * c + q + 365 * t + day) / 1460 ≤ day ∧
      day ≤ 364 + (24 * c + q + 365 * t + day) / 1460 := by
  omega

theorem centuries_eq {c q t day : Nat} (hc : c < 4) (hq : q < 25) (ht : t < 4)
    (hday : day < 365 ∨ day = 365 ∧ t = 3 ∧ (q < 24 ∨ c = 3)) :
    (1461 * q + 365 * t + day) / 36524 = (36524 * c + (1461 * q + 365 * t + day)) / 146096 := by
  have hzero (hlt : 1461 * q + 365 * t + day < 36524) :
      (1461 * q + 365 * t + day) / 36524 = (36524 * c + (1461 * q + 365 * t + day)) / 146096 := by
    rw [Nat.div_eq_of_lt hlt, Nat.div_eq_of_lt (by omega)]
  obtain hday | ⟨rfl, rfl, hq' | rfl⟩ := hday
  · exact hzero (by omega)
  · exact hzero (by omega)
  · obtain hq' | rfl : q < 24 ∨ q = 24 := by omega
    · exact hzero (by omega)
    · rfl

theorem yearOf_split {c q t day : Nat} (hc : c < 4) (hq : q < 25) (ht : t < 4)
    (hday : day < 365 ∨ day = 365 ∧ t = 3 ∧ (q < 24 ∨ c = 3)) :
    yearOf (36524 * c + (1461 * q + 365 * t + day)) = 100 * c + 4 * q + t := by
  obtain ⟨hlow, hhigh⟩ := cycles_le hc hq ht hday
  have hfours : (36524 * c + (1461 * q + 365 * t + day)) / 1460 = 25 * c + q +
      (24 * c + q + 365 * t + day) / 1460 := by
    rw [← Nat.mul_add_div (by decide)]
    congr 1
    ring
  rw [yearOf, hfours, Nat.mul_add_div (by decide), ← centuries_eq hc hq ht hday]
  clear hfours
  generalize (24 * c + q + 365 * t + day) / 1460 = k at *
  generalize (1461 * q + 365 * t + day) / 36524 = m
  have hsum : 36524 * c + (1461 * q + 365 * t + day) - (25 * c + q + k) + (c + m) - m =
      365 * (100 * c + 4 * q + t) + (day - k) := by
    omega
  rw [hsum, Nat.mul_add_div (by decide), Nat.div_eq_of_lt (by omega), Nat.add_zero]

theorem exists_split {year : Nat} (h : year < 400) : ∃ c q t, c < 4 ∧ q < 25 ∧ t < 4 ∧
    year = 100 * c + 4 * q + t :=
  ⟨year / 100, year % 100 / 4, year % 4, by omega, by omega, by omega, by omega⟩

theorem yearOf_eq {year day : Nat} (hyear : year < 400) (hday : InYear year day) :
    yearOf (yearStart year + day) = year := by
  obtain ⟨c, q, t, hc, hq, ht, rfl⟩ := exists_split hyear
  rw [InYear, isLong_split hc hq ht] at hday
  rw [yearStart_split hq ht, Nat.add_assoc, Nat.add_assoc, ← Nat.add_assoc (1461 * q),
    yearOf_split hc hq ht hday]

theorem exists_year {day : Nat} (h : day < 146097) : ∃ year rest, year < 400 ∧ InYear year rest ∧
    day = yearStart year + rest := by
  obtain ⟨c, r, hc, hr, rfl⟩ : ∃ c r, c < 4 ∧ (r < 36524 ∨ r = 36524 ∧ c = 3) ∧
    day = 36524 * c + r :=
    ⟨min (day / 36524) 3, day - 36524 * min (day / 36524) 3, by omega, by omega, by omega⟩
  obtain ⟨q, s, hq, hs, rfl⟩ : ∃ q s, q < 25 ∧ (s < 1460 ∨ s = 1460 ∧ (q < 24 ∨ c = 3)) ∧
    r = 1461 * q + s :=
    ⟨r / 1461, r % 1461, by omega, by omega, by omega⟩
  obtain ⟨t, rest, ht, hrest, rfl⟩ : ∃ t rest, t < 4 ∧
    (rest < 365 ∨ rest = 365 ∧ t = 3 ∧ (q < 24 ∨ c = 3)) ∧ s = 365 * t + rest :=
    ⟨min (s / 365) 3, s - 365 * min (s / 365) 3, by omega, by omega, by omega⟩
  refine ⟨100 * c + 4 * q + t, rest, by omega, ?_, ?_⟩
  · rw [InYear, isLong_split hc hq ht]
    exact hrest
  · rw [yearStart_split hq ht]
    omega

def dayNumber (year day : Nat) : Nat := year / 400 * 146097 + (yearStart (year % 400) + day)

theorem yearStart_add_lt {year day : Nat} (hyear : year < 400) (hday : InYear year day) :
    yearStart year + day < 146097 := by
  obtain ⟨c, q, t, hc, hq, ht, rfl⟩ := exists_split hyear
  rw [InYear, isLong_split hc hq ht] at hday
  rw [yearStart_split hq ht]
  omega

theorem inYear_mod {year day : Nat} : InYear (year % 400) day ↔ InYear year day := by
  rw [InYear, InYear, IsLong, IsLong]
  omega

theorem dayNumber_div {year day : Nat} (h : InYear year day) :
    dayNumber year day / 146097 = year / 400 := by
  have hlt := yearStart_add_lt (Nat.mod_lt year (by decide)) (inYear_mod.mpr h)
  rw [dayNumber, Nat.mul_comm, Nat.mul_add_div (by decide), Nat.div_eq_of_lt hlt, Nat.add_zero]

theorem exists_dayNumber (number : Nat) :
    ∃ year day, InYear year day ∧ number = dayNumber year day := by
  obtain ⟨year, day, hyear, hday, hnumber⟩ :=
    exists_year (Nat.mod_lt number (by decide : 0 < 146097))
  refine ⟨number / 146097 * 400 + year, day, ?_, ?_⟩
  · rw [← inYear_mod, Nat.mul_add_mod', Nat.mod_eq_of_lt hyear]
    exact hday
  · rw [dayNumber, Nat.mul_add_mod', Nat.mod_eq_of_lt hyear, Nat.mul_comm _ 400,
      Nat.mul_add_div (by decide),
      Nat.div_eq_of_lt hyear, Nat.add_zero, ← hnumber, Nat.div_add_mod']

theorem dayNumber_zero (year : Nat) :
    dayNumber year 0 + year / 100 = year * 365 + year / 4 + year / 400 := by
  rw [dayNumber, yearStart]
  omega

theorem dayNumber_eq_add (year day : Nat) : dayNumber year day = dayNumber year 0 + day := by
  rw [dayNumber, dayNumber, Nat.add_zero, Nat.add_assoc]

theorem dayNumber_lt {year day : Nat} (h : InYear year day) :
    dayNumber year day < dayNumber (year + 1) 0 := by
  have hthis := dayNumber_zero year
  have hnext := dayNumber_zero (year + 1)
  rw [InYear, IsLong] at h
  rw [dayNumber_eq_add]
  omega

theorem dayNumber_mono : Monotone (dayNumber · 0) :=
  monotone_nat_of_le_succ fun _ => (dayNumber_lt (.inl (by decide))).le

end Calendar

end Hadris
