import Mathlib

/-! # The proleptic Gregorian calendar

Dates as days since 1970-01-01, by the arithmetic that counts years from the first of March, and what a cycle of 400
years consists of. -/

namespace Calendar

def IsLeap (year : ℤ) : Prop := 4 ∣ year ∧ (100 ∣ year → 400 ∣ year)

instance (year : ℤ) : Decidable (IsLeap year) := by unfold IsLeap; infer_instance

def daysInMonth (year : ℤ) (month : ℕ) : ℕ :=
  if month = 2 then (if IsLeap year then 29 else 28) else if month ∈ [4, 6, 9, 11] then 30 else 31

structure IsDate (year : ℤ) (month day : ℕ) : Prop where
  month_pos : 1 ≤ month
  month_le : month ≤ 12
  day_pos : 1 ≤ day
  day_le : day ≤ daysInMonth year month

/-- The number of a date's day, which for 1970-01-01 is 0. -/
def daysFromCivil (year : ℤ) (month day : ℕ) : ℤ :=
  let y := if month ≤ 2 then year - 1 else year
  let era := y / 400
  let yoe := y - era * 400
  let mp : ℤ := if month ≤ 2 then month + 9 else month - 3
  let doy := (153 * mp + 2) / 5 + day - 1
  let doe := yoe * 365 + yoe / 4 - yoe / 100 + doy
  era * 146097 + doe - 719468

example : daysFromCivil 1970 1 1 = 0 := by decide

example : daysFromCivil 2000 2 29 + 1 = daysFromCivil 2000 3 1 := by decide

variable {year year' : ℤ} {month month' day day' : ℕ}

/-! ### Years that begin in March -/

/-- The days before the first of March of a year. -/
def marchStart (year : ℤ) : ℤ := 365 * year + year / 4 - year / 100 + year / 400

/-- The day of such a year that a date of its months is, where March is month 0. -/
def marchDay (mp day : ℤ) : ℤ := (153 * mp + 2) / 5 + day - 1

theorem daysFromCivil_of_le (h : month ≤ 2) :
    daysFromCivil year month day = marchStart (year - 1) + marchDay (month + 9) day - 719468 := by
  simp only [daysFromCivil, if_pos h, marchStart, marchDay]
  omega

theorem daysFromCivil_of_lt (h : 2 < month) :
    daysFromCivil year month day = marchStart year + marchDay (month - 3) day - 719468 := by
  simp only [daysFromCivil, if_neg (Nat.not_le.mpr h), marchStart, marchDay]
  omega

/-- The leap day ends the year. -/
theorem marchStart_succ (year : ℤ) : marchStart year = marchStart (year - 1) + 365 + if IsLeap year then 1 else 0 := by
  by_cases h : IsLeap year
  · rw [if_pos h]
    unfold IsLeap at h
    unfold marchStart
    omega
  · rw [if_neg h]
    unfold IsLeap at h
    unfold marchStart
    omega

/-! ### The order of dates -/

theorem daysFromCivil_day (year : ℤ) (month day : ℕ) :
    daysFromCivil year month day = daysFromCivil year month 1 + day - 1 := by
  by_cases h : month ≤ 2
  · simp only [daysFromCivil_of_le h, marchDay]
    omega
  · simp only [daysFromCivil_of_lt (Nat.not_le.mp h), marchDay]
    omega

/-- After the last day of a month comes the first of the next. -/
theorem daysFromCivil_month (hpos : 1 ≤ month) (hle : month < 12) :
    daysFromCivil year (month + 1) 1 = daysFromCivil year month 1 + daysInMonth year month := by
  by_cases hfeb : month ≤ 2
  · have hleap := marchStart_succ year
    interval_cases month
    · simp [daysFromCivil_of_le, marchDay, daysInMonth]
      omega
    · rw [daysFromCivil_of_le le_rfl, daysFromCivil_of_lt (by decide)]
      by_cases h : IsLeap year <;> simp [h, marchDay, daysInMonth] at hleap ⊢ <;> omega
  · rw [daysFromCivil_of_lt (Nat.not_le.mp hfeb), daysFromCivil_of_lt (by omega)]
    interval_cases month <;> simp [marchDay, daysInMonth] at hfeb ⊢ <;> omega

theorem daysFromCivil_year : daysFromCivil (year + 1) 1 1 = daysFromCivil year 12 1 + 31 := by
  rw [daysFromCivil_of_le (by decide), daysFromCivil_of_lt (by decide)]
  simp [marchDay]
  omega

/-- The first day of a month, where the months are counted through from the year 0. -/
def monthStart (k : ℤ) : ℤ := daysFromCivil (k / 12) (k % 12 + 1).toNat 1

theorem monthStart_eq (year : ℤ) (hpos : 1 ≤ month) (hle : month ≤ 12) :
    monthStart (12 * year + month - 1) = daysFromCivil year month 1 := by
  rw [monthStart, show (12 * year + month - 1) / 12 = year by omega,
    show ((12 * year + month - 1) % 12 + 1).toNat = month by omega]

theorem monthStart_succ (year : ℤ) (hpos : 1 ≤ month) (hle : month ≤ 12) :
    monthStart (12 * year + month) = daysFromCivil year month 1 + daysInMonth year month := by
  rcases Nat.lt_or_ge month 12 with hlt | hge
  · have hnext := monthStart_eq year (Nat.le_add_left 1 month) hlt
    rw [← daysFromCivil_month hpos hlt, ← hnext]
    congr 1
    push_cast
    omega
  · obtain rfl : month = 12 := by omega
    have hnext := monthStart_eq (year + 1) le_rfl (by decide : 1 ≤ 12)
    rw [daysFromCivil_year] at hnext
    rw [show (daysInMonth year 12 : ℤ) = 31 by simp [daysInMonth], ← hnext]
    congr 1
    push_cast
    omega

theorem daysInMonth_pos (year : ℤ) (month : ℕ) : 0 < daysInMonth year month := by
  unfold daysInMonth
  split_ifs <;> decide

theorem monthStart_strictMono : StrictMono monthStart := by
  refine strictMono_int_of_lt_succ fun k => ?_
  have hle : (k % 12 + 1).toNat ≤ 12 := by omega
  have hpos : 1 ≤ (k % 12 + 1).toNat := by omega
  have hsucc := monthStart_succ (k / 12) hpos hle
  have hthis := monthStart_eq (k / 12) hpos hle
  rw [show 12 * (k / 12) + ((k % 12 + 1).toNat : ℤ) = k + 1 by omega] at hsucc
  rw [show 12 * (k / 12) + ((k % 12 + 1).toNat : ℤ) - 1 = k by omega] at hthis
  have hlen := daysInMonth_pos (k / 12) (k % 12 + 1).toNat
  omega

/-- Later dates have greater numbers. -/
theorem daysFromCivil_lt (hdate : IsDate year month day) (hdate' : IsDate year' month' day')
    (h : year < year' ∨ year = year' ∧ (month < month' ∨ month = month' ∧ day < day')) :
    daysFromCivil year month day < daysFromCivil year' month' day' := by
  have hday := daysFromCivil_day year month day
  have hday' := daysFromCivil_day year' month' day'
  by_cases hsame : year = year' ∧ month = month'
  · obtain ⟨rfl, rfl⟩ := hsame
    omega
  · have hmonths : monthStart (12 * year + month) ≤ monthStart (12 * year' + month' - 1) := by
      refine monthStart_strictMono.monotone ?_
      have := hdate.month_le
      have := hdate'.month_pos
      omega
    rw [monthStart_succ year hdate.month_pos hdate.month_le,
      monthStart_eq year' hdate'.month_pos hdate'.month_le] at hmonths
    have := hdate.day_le
    have := hdate'.day_pos
    omega

/-! ### A cycle of 400 years -/

/-- A day of the cycle: its century, the four years within the century, the year of these and the day of the year. The
last year of each four has the leap day, but not that of a century other than the last. -/
structure CycleDay (doe century quad year day : ℕ) : Prop where
  century_le : century ≤ 3
  quad_le : quad ≤ 24
  year_le : year ≤ 3
  day_le : day ≤ 364 ∨ day = 365 ∧ year = 3 ∧ (quad < 24 ∨ century = 3)
  doe_eq : doe = 36524 * century + 1461 * quad + 365 * year + day

theorem exists_cycleDay {doe : ℕ} (h : doe < 146097) : ∃ century quad year day, CycleDay doe century quad year day := by
  let century := min (doe / 36524) 3
  let rest := doe - 36524 * century
  let quad := rest / 1461
  let year := min (rest % 1461 / 365) 3
  refine ⟨century, quad, year, rest % 1461 - 365 * year, ?_, ?_, ?_, ?_, ?_⟩
  all_goals omega

namespace CycleDay
variable {doe century quad yearOfQuad day yoe : ℕ}

/-- The quotient by 365 of the days without the leap days is the year of the cycle. -/
theorem yearOfCycle (h : CycleDay doe century quad yearOfQuad day) :
    (doe - doe / 1460 + doe / 36524 - doe / 146096) / 365 = 100 * century + 4 * quad + yearOfQuad := by
  obtain ⟨hc, hq, hy, hd, rfl⟩ := h
  by_cases hlast : century = 3 ∧ quad = 24 ∧ yearOfQuad = 3 ∧ day = 365
  · obtain ⟨rfl, rfl, rfl, rfl⟩ := hlast
    norm_num
  · have hcentury : (36524 * century + 1461 * quad + 365 * yearOfQuad + day) / 36524 = century := by omega
    have hcycle : (36524 * century + 1461 * quad + 365 * yearOfQuad + day) / 146096 = 0 := by omega
    -- The 1460 days of four years without their leap day fall short by the leap days passed since.
    have hfour : (36524 * century + 1461 * quad + 365 * yearOfQuad + day) / 1460 =
        25 * century + quad + if 24 * century + quad + 365 * yearOfQuad + day < 1460 then 0 else 1 := by
      split <;> omega
    rw [hcentury, hcycle, hfour]
    split <;> omega

theorem dayOfYear (h : CycleDay doe century quad yearOfQuad day) (hyoe : yoe = 100 * century + 4 * quad + yearOfQuad) :
    365 * yoe + yoe / 4 - yoe / 100 + day = doe := by
  obtain ⟨hc, hq, hy, hd, rfl⟩ := h
  have hfour : yoe / 4 = 25 * century + quad := by omega
  have hcentury : yoe / 100 = century := by omega
  omega

end CycleDay

end Calendar
