import Mathlib.Tactic.IntervalCases
import Mathlib.Logic.Function.Iterate

/-!
# The date of a log record

A record's date is computed from its day number in closed form: the year is taken to begin in March,
so that the leap day is its last, and years are counted within eras of 400.

Main result: `civilFromDays_calendar`.
-/

namespace Vyrn

/-! ## The code -/

/-- The cast of an `i64` to `u32`. -/
def asU32 (x : Int) : Nat := (x % 2 ^ 32).toNat

def yearOfEra (dayOfEra : Int) : Int :=
  (dayOfEra - dayOfEra.tdiv 1460 + dayOfEra.tdiv 36524 - dayOfEra.tdiv 146096).tdiv 365

def dayOfYear (dayOfEra : Int) : Int :=
  let year := yearOfEra dayOfEra
  dayOfEra - (365 * year + year.tdiv 4 - year.tdiv 100)

/-- The date `day` days after the first of March of a year. -/
def civilFromMarch (year day : Int) : Int × Nat × Nat :=
  let monthPosition := (5 * day + 2).tdiv 153
  let month := asU32 (if monthPosition < 10 then monthPosition + 3 else monthPosition - 9)
  (if month ≤ 2 then year + 1 else year, month,
    asU32 (day - (153 * monthPosition + 2).tdiv 5 + 1))

/-- Year, month and day. The two divisions here are the source's Euclidean ones, those above
    truncate; for the day numbers of a 64-bit count of seconds no step leaves `i64`. -/
def civilFromDays (days : Int) : Int × Nat × Nat :=
  let shifted := days + 719468
  let dayOfEra := shifted % 146097
  civilFromMarch (yearOfEra dayOfEra + shifted / 146097 * 400) (dayOfYear dayOfEra)

/-! ## The calendar -/

/-- The leap years of the proleptic Gregorian calendar. -/
def IsLeap (year : Int) : Prop := year % 4 = 0 ∧ (year % 100 ≠ 0 ∨ year % 400 = 0)

instance (year : Int) : Decidable (IsLeap year) := inferInstanceAs (Decidable (_ ∧ _))

def daysInMonth (year : Int) (month : Nat) : Nat :=
  if month = 2 then if IsLeap year then 29 else 28
  else if month = 4 ∨ month = 6 ∨ month = 9 ∨ month = 11 then 30
  else 31

theorem daysInMonth_pos (year : Int) (month : Nat) : 1 ≤ daysInMonth year month := by
  rw [daysInMonth]
  split_ifs <;> decide

/-- A day of the calendar. -/
structure Date where
  year : Int
  month : Nat
  day : Nat
  month_range : 1 ≤ month ∧ month ≤ 12
  day_range : 1 ≤ day ∧ day ≤ daysInMonth year month

namespace Date

def civil (date : Date) : Int × Nat × Nat := (date.year, date.month, date.day)

def epoch : Date := ⟨1970, 1, 1, by decide, by decide⟩

/-- The day after. -/
def next (date : Date) : Date :=
  if h : date.day < daysInMonth date.year date.month then
    ⟨date.year, date.month, date.day + 1, date.month_range, Nat.succ_pos _, h⟩
  else if h : date.month < 12 then
    ⟨date.year, date.month + 1, 1, ⟨Nat.succ_pos _, h⟩, le_rfl, daysInMonth_pos _ _⟩
  else ⟨date.year + 1, 1, 1, by decide, le_rfl, daysInMonth_pos _ _⟩

theorem next_civil (date : Date) : date.next.civil =
    if date.day < daysInMonth date.year date.month then (date.year, date.month, date.day + 1)
    else if date.month < 12 then (date.year, date.month + 1, 1) else (date.year + 1, 1, 1) := by
  rw [next]
  split_ifs <;> rfl

end Date

/-! ## Years that begin in March -/

section March

variable {year day : Int}

/-- The days of the years before, each from its March on. -/
def yearStart (year : Int) : Int := 365 * year + year / 4 - year / 100 + year / 400

/-- The year from March on has a leap day when the year of its February has. -/
theorem yearStart_succ (year : Int) :
    yearStart (year + 1) = yearStart year + if IsLeap (year + 1) then 366 else 365 := by
  simp only [yearStart, IsLeap]
  split_ifs <;> omega

section Parts

-- a year as era, century, leap cycle and year of the cycle
variable {era c q r : Int} (hc : 0 ≤ c ∧ c < 4) (hq : 0 ≤ q ∧ q < 25) (hr : 0 ≤ r ∧ r < 4)
include hc hq hr

theorem yearStart_parts : yearStart (400 * era + 100 * c + 4 * q + r)
    = 146097 * era + (36524 * c + 1461 * q + 365 * r) := by
  have hcycles : (400 * era + 100 * c + 4 * q + r) / 4 = 100 * era + 25 * c + q := by omega
  have hcenturies : (400 * era + 100 * c + 4 * q + r) / 100 = 4 * era + c := by omega
  have heras : (400 * era + 100 * c + 4 * q + r) / 400 = era := by omega
  rw [yearStart]
  omega

theorem leap_parts (h : IsLeap (400 * era + 100 * c + 4 * q + r + 1)) :
    r = 3 ∧ (q < 24 ∨ c = 3) := by
  rw [IsLeap] at h
  omega

/-- The quotient finds the year of the era, up to the last day of the year. -/
theorem yearOfEra_parts {e : Int} (hday : 0 ≤ day)
    (hlast : day < 365 ∨ day = 365 ∧ r = 3 ∧ (q < 24 ∨ c = 3))
    (he : e = 36524 * c + 1461 * q + 365 * r + day) :
    yearOfEra e = 100 * c + 4 * q + r ∧ dayOfYear e = day := by
  have hyear : yearOfEra e = 100 * c + 4 * q + r := by
    have hdiv : ∀ n, e.tdiv n = e / n := fun n => Int.tdiv_eq_ediv_of_nonneg (by omega)
    rw [yearOfEra, hdiv, hdiv, hdiv, Int.tdiv_eq_ediv_of_nonneg (by omega)]
    rcases eq_or_ne e 146096 with rfl | _
    · norm_num
      omega
    · have hera : e / 146096 = 0 := by omega
      have hcentury : e / 36524 = c := by omega
      have hcycle : e / 1460 = 25 * c + q + (24 * c + q + 365 * r + day) / 1460 := by omega
      omega
  refine ⟨hyear, ?_⟩
  have hcycles : (100 * c + 4 * q + r) / 4 = 25 * c + q := by omega
  have hcentury : (100 * c + 4 * q + r) / 100 = c := by omega
  rw [dayOfYear, hyear, Int.tdiv_eq_ediv_of_nonneg (by omega),
    Int.tdiv_eq_ediv_of_nonneg (by omega), hcycles, hcentury]
  omega

end Parts

/-- **CLOSED FORM**: the code finds the year of a day, and the days since its March. -/
theorem civilFromDays_march (hday : 0 ≤ day) (hyear : yearStart year + day < yearStart (year + 1)) :
    civilFromDays (yearStart year + day - 719468) = civilFromMarch year day := by
  obtain ⟨era, c, q, r, rfl, hc, hq, hr⟩ : ∃ era c q r : Int,
      year = 400 * era + 100 * c + 4 * q + r ∧ (0 ≤ c ∧ c < 4) ∧ (0 ≤ q ∧ q < 25) ∧ 0 ≤ r ∧ r < 4 :=
    ⟨year / 400, year % 400 / 100, year % 100 / 4, year % 4, by omega, by omega, by omega, by omega⟩
  have hlast : day < 365 ∨ day = 365 ∧ r = 3 ∧ (q < 24 ∨ c = 3) := by
    rw [yearStart_succ] at hyear
    split_ifs at hyear with hleap
    · have hparts := leap_parts hc hq hr hleap
      omega
    · omega
  obtain ⟨hyears, hdays⟩ := yearOfEra_parts hc hq hr hday hlast rfl
  rw [civilFromDays, yearStart_parts hc hq hr]
  generalize he : 36524 * c + 1461 * q + 365 * r + day = e at hyears hdays
  have hshift : 146097 * era + (36524 * c + 1461 * q + 365 * r) + day - 719468 + 719468
      = 146097 * era + e := by omega
  have hera : (146097 * era + e) / 146097 = era := by omega
  have hrem : (146097 * era + e) % 146097 = e := by omega
  rw [hshift, hera, hrem, hyears, hdays]
  congr 1
  omega

/-- The days of the months before, counted from March. -/
def monthStart (p : Int) : Int := (153 * p + 2) / 5

theorem asU32_eq {x : Int} (h : 0 ≤ x ∧ x < 2 ^ 32) : asU32 x = x.toNat := by
  rw [asU32, Int.emod_eq_of_lt h.1 h.2]

theorem civilFromMarch_month {p : Int} (hp : 0 ≤ p ∧ p < 12) (hlow : monthStart p ≤ day)
    (hhigh : day < monthStart (p + 1)) :
    civilFromMarch year day = (if p < 10 then year else year + 1,
      (if p < 10 then p + 3 else p - 9).toNat, (day - monthStart p + 1).toNat) := by
  rw [monthStart] at hlow hhigh ⊢
  have hmonth : (5 * day + 2).tdiv 153 = p := by
    rw [Int.tdiv_eq_ediv_of_nonneg (by omega)]
    omega
  rw [civilFromMarch, hmonth, Int.tdiv_eq_ediv_of_nonneg (by omega),
    asU32_eq (by split_ifs <;> omega), asU32_eq (by omega)]
  congr 1
  split_ifs <;> omega

/-- The months have the calendar's lengths; the last of them is February. -/
theorem daysInMonth_march {p : Int} (hp : 0 ≤ p ∧ p < 12) :
    (daysInMonth (if p < 10 then year else year + 1) (if p < 10 then p + 3 else p - 9).toNat : Int)
      = if p < 11 then monthStart (p + 1) - monthStart p
        else yearStart (year + 1) - yearStart year - monthStart 11 := by
  obtain ⟨_, _⟩ := hp
  rw [yearStart_succ]
  interval_cases p <;> simp [daysInMonth, monthStart]
  split_ifs <;> rfl

/-- **CALENDAR**: the day after a day of a year from March on. -/
theorem next_march {date : Date} (h : date.civil = civilFromMarch year day) (hday : 0 ≤ day)
    (hyear : yearStart year + day < yearStart (year + 1)) :
    date.next.civil = if yearStart year + (day + 1) < yearStart (year + 1) then
      civilFromMarch year (day + 1) else civilFromMarch (year + 1) 0 := by
  have hlength : 365 ≤ yearStart (year + 1) - yearStart year ∧
      yearStart (year + 1) - yearStart year ≤ 366 := by
    rw [yearStart_succ]
    split_ifs <;> omega
  obtain ⟨p, hp, hlow, hhigh⟩ : ∃ p, (0 ≤ p ∧ p < 12) ∧ monthStart p ≤ day ∧
      day < monthStart (p + 1) :=
    ⟨(5 * day + 2) / 153, by omega, by rw [monthStart]; omega, by rw [monthStart]; omega⟩
  have hlen := @daysInMonth_march year p hp
  rw [civilFromMarch_month hp hlow hhigh] at h
  simp only [Date.civil, Prod.mk.injEq] at h
  obtain ⟨hy, hmonth, hd⟩ := h
  rw [Date.next_civil, hd, hy, hmonth]
  clear hy hmonth hd
  generalize daysInMonth _ _ = length at hlen ⊢
  by_cases hin : (day - monthStart p + 1).toNat < length
  · -- the month goes on
    have hmore : day + 1 < monthStart (p + 1) ∧
        yearStart year + (day + 1) < yearStart (year + 1) := by
      simp only [monthStart] at *
      split_ifs at hlen <;> omega
    rw [if_pos hin, if_pos hmore.2, civilFromMarch_month hp (by omega) hmore.1]
    congr 2
    omega
  · rw [if_neg hin]
    by_cases hlast : p < 11
    · -- the next month begins, of the next year behind December
      rw [if_pos hlast] at hlen
      have hnext : day + 1 = monthStart (p + 1) := by omega
      have hmore : yearStart year + (day + 1) < yearStart (year + 1) := by
        rw [hnext, monthStart]
        omega
      rw [if_pos hmore, civilFromMarch_month (p := p + 1) (by omega) hnext.ge (by
        rw [hnext, monthStart, monthStart]
        omega), hnext, sub_self]
      simp only [apply_ite Int.toNat]
      split_ifs <;> simp <;> omega
    · -- behind February a year ends
      obtain rfl : p = 11 := by omega
      have hend : ¬ yearStart year + (day + 1) < yearStart (year + 1) := by
        rw [if_neg hlast] at hlen
        omega
      rw [if_neg hend]
      rfl

/-- The calendar's days are days of years from March on. -/
theorem epoch_march (d : Nat) : ∃ year day, 0 ≤ day ∧ yearStart year + day < yearStart (year + 1) ∧
    yearStart year + day - 719468 = d ∧
    (Date.next^[d] Date.epoch).civil = civilFromMarch year day := by
  induction d with
  | zero => exact ⟨1969, 306, by decide, by decide, by decide, by decide⟩
  | succ d ih =>
    obtain ⟨year, day, hday, hyear, _, hcivil⟩ := ih
    have hnext := next_march hcivil hday hyear
    rw [← Function.iterate_succ_apply' Date.next] at hnext
    split_ifs at hnext with hsame
    · exact ⟨year, day + 1, by omega, hsame, by omega, hnext⟩
    · refine ⟨year + 1, 0, le_rfl, ?_, by omega, hnext⟩
      rw [yearStart_succ (year + 1)]
      split_ifs <;> omega

/-- **DATES**: the date of a day number is a date of the calendar, of day 0 the first of January
    1970, and of the next day number the date of the day after. -/
theorem civilFromDays_calendar : civilFromDays 0 = (1970, 1, 1) ∧ ∀ d : Nat, ∃ date : Date,
    date = Date.next^[d] Date.epoch ∧ civilFromDays d = date.civil ∧
      civilFromDays (d + 1) = date.next.civil := by
  have hcivil : ∀ d : Nat, civilFromDays d = (Date.next^[d] Date.epoch).civil := by
    intro d
    obtain ⟨year, day, hday, hyear, hd, hcivil⟩ := epoch_march d
    rw [hcivil, ← hd, civilFromDays_march hday hyear]
  refine ⟨hcivil 0, fun d => ⟨_, rfl, hcivil d, ?_⟩⟩
  rw [← Function.iterate_succ_apply' Date.next]
  exact hcivil (d + 1)

end March

end Vyrn
