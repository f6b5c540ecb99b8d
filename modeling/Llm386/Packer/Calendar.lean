import Llm386.Lib.Calendar
import Llm386.Packer.Simple

/-! # Calendar formatting

`format_iso8601_utc` prints the date and time of a timestamp for every `u64`, and its arithmetic stays within `u64`. -/

namespace Llm386

/-- The fields that `format_iso8601_utc` prints. -/
structure CivilTime where
  year : Nat
  month : Nat
  day : Nat
  hour : Nat
  minute : Nat
  second : Nat
deriving DecidableEq

def yearOfEra (doe : Nat) : Nat := (doe - doe / 1460 + doe / 36524 - doe / 146096) / 365

def dayOfYear (doe yoe : Nat) : Nat := doe - (365 * yoe + yoe / 4 - yoe / 100)

/-- The month and the day of a day of a year that begins in March, and whether the calendar's year is the next. -/
def monthAndDay (doy : Nat) : Nat × Nat × Nat :=
  let mp := (5 * doy + 2) / 153
  let day := doy - (153 * mp + 2) / 5 + 1
  if mp < 10 then (mp + 3, day, 0) else (mp - 9, day, 1)

/-- The date of a day since the epoch. -/
def civilFromDays (days : Nat) : Nat × Nat × Nat :=
  let z := days + 719468
  let era := z / 146097
  let doe := z - era * 146097
  let yoe := yearOfEra doe
  let y := yoe + era * 400
  let date := monthAndDay (dayOfYear doe yoe)
  (y + date.2.2, date.1, date.2.1)

def civilTime (msSinceEpoch : Timestamp) : CivilTime :=
  let secs := msSinceEpoch.val / 1000
  let date := civilFromDays (secs / 86400)
  let sOfDay := secs % 86400
  ⟨date.1, date.2.1, date.2.2, sOfDay / 3600, sOfDay / 60 % 60, sOfDay % 60⟩

def CivilTime.print (t : CivilTime) : String :=
  padded 4 t.year ++ "-" ++ padded 2 t.month ++ "-" ++ padded 2 t.day ++ "T" ++ padded 2 t.hour ++ ":" ++
    padded 2 t.minute ++ ":" ++ padded 2 t.second ++ "Z"

theorem formatIso8601Utc_eq : formatIso8601Utc = fun ms => (civilTime ms).print := by
  delta formatIso8601Utc
  funext ms
  extract_lets secs days sOfDay hour minute second z era doe yoe y doy mp day
  have hsecs : ms.val / 1000 = secs := rfl
  have hdays : secs / 86400 = days := rfl
  have hofDay : secs % 86400 = sOfDay := rfl
  have hhour : sOfDay / 3600 = hour := rfl
  have hminute : sOfDay / 60 % 60 = minute := rfl
  have hsecond : sOfDay % 60 = second := rfl
  have hz : days + 719468 = z := rfl
  have hera : z / 146097 = era := rfl
  have hdoe : z - era * 146097 = doe := rfl
  have hyoe : (doe - doe / 1460 + doe / 36524 - doe / 146096) / 365 = yoe := rfl
  have hy : yoe + era * 400 = y := rfl
  have hdoy : doe - (365 * yoe + yoe / 4 - yoe / 100) = doy := rfl
  have hmp : (5 * doy + 2) / 153 = mp := rfl
  have hday : doy - (153 * mp + 2) / 5 + 1 = day := rfl
  -- With the values forgotten, what is left of the two sides is short.
  clear_value day mp doy y yoe doe era z second minute hour sOfDay days secs
  have hmonth : monthAndDay doy = if mp < 10 then (mp + 3, day, 0) else (mp - 9, day, 1) := by
    rw [monthAndDay, hmp, hday]
  have hdate : civilFromDays days = (y + (monthAndDay doy).2.2, (monthAndDay doy).1, (monthAndDay doy).2.1) := by
    rw [civilFromDays, yearOfEra, dayOfYear, hz, hera, hdoe, hyoe, hdoy, hy]
  have htime : civilTime ms =
      ⟨(civilFromDays days).1, (civilFromDays days).2.1, (civilFromDays days).2.2, hour, minute, second⟩ := by
    rw [civilTime, hsecs, hdays, hofDay, hhour, hminute, hsecond]
  rw [CivilTime.print, htime, hdate, hmonth]
  by_cases h : mp < 10
  · rw [if_pos h, if_pos h]
    dsimp only
    rw [Nat.add_zero y]
  · rw [if_neg h, if_neg h]

/-! ### The arithmetic on `u64` -/

namespace U64

/-- The sum, where it does not overflow. -/
def add (a b : Nat) : Option Nat := if a + b < 2 ^ 64 then some (a + b) else none

/-- The difference, where it does not underflow. -/
def sub (a b : Nat) : Option Nat := if b ≤ a then some (a - b) else none

def mul (a b : Nat) : Option Nat := if a * b < 2 ^ 64 then some (a * b) else none

def div (a b : Nat) : Option Nat := if b ≠ 0 then some (a / b) else none

variable {a b : Nat} {α β : Type} {f : Nat → Option α}

theorem add_bind (h : a + b < 2 ^ 64) : (add a b >>= f) = f (a + b) := by rw [add, if_pos h]; rfl

theorem sub_bind (h : b ≤ a) : (sub a b >>= f) = f (a - b) := by rw [sub, if_pos h]; rfl

theorem mul_bind (h : a * b < 2 ^ 64) : (mul a b >>= f) = f (a * b) := by rw [mul, if_pos h]; rfl

theorem div_bind (h : b ≠ 0) : (div a b >>= f) = f (a / b) := by rw [div, if_pos h]; rfl

end U64

/-- A step that succeeds. -/
theorem some_bind_eq {α β : Type} {a : α} {f : α → Option β} : (some a >>= f) = f a := rfl

def checkedYearOfEra (doe : Nat) : Option Nat := do
  let leaps ← U64.div doe 1460
  let days ← U64.sub doe leaps
  let centuries ← U64.div doe 36524
  let days ← U64.add days centuries
  let cycles ← U64.div doe 146096
  let days ← U64.sub days cycles
  U64.div days 365

def checkedDayOfYear (doe yoe : Nat) : Option Nat := do
  let days ← U64.mul 365 yoe
  let leaps ← U64.div yoe 4
  let days ← U64.add days leaps
  let centuries ← U64.div yoe 100
  let days ← U64.sub days centuries
  U64.sub doe days

def checkedMonthAndDay (doy : Nat) : Option (Nat × Nat × Nat) := do
  let fifths ← U64.mul 5 doy
  let fifths ← U64.add fifths 2
  let mp ← U64.div fifths 153
  let fifths ← U64.mul 153 mp
  let fifths ← U64.add fifths 2
  let passed ← U64.div fifths 5
  let day ← U64.sub doy passed
  let day ← U64.add day 1
  if mp < 10 then do
    let month ← U64.add mp 3
    pure (month, day, 0)
  else do
    let month ← U64.sub mp 9
    pure (month, day, 1)

def checkedCivilFromDays (days : Nat) : Option (Nat × Nat × Nat) := do
  let z ← U64.add days 719468
  let era ← U64.div z 146097
  let cycles ← U64.mul era 146097
  let doe ← U64.sub z cycles
  let yoe ← checkedYearOfEra doe
  let years ← U64.mul era 400
  let y ← U64.add yoe years
  let doy ← checkedDayOfYear doe yoe
  let date ← checkedMonthAndDay doy
  let year ← U64.add y date.2.2
  pure (year, date.1, date.2.1)

/-- `civilTime` with every operation on `u64` checked. -/
def checkedCivilTime (msSinceEpoch : Timestamp) : Option CivilTime := do
  let secs ← U64.div msSinceEpoch.val 1000
  let days ← U64.div secs 86400
  let date ← checkedCivilFromDays days
  let sOfDay := secs % 86400
  pure ⟨date.1, date.2.1, date.2.2, sOfDay / 3600, sOfDay / 60 % 60, sOfDay % 60⟩

variable {doe yoe doy days : Nat}

theorem checkedYearOfEra_eq (h : doe < 146097) : checkedYearOfEra doe = some (yearOfEra doe) := by
  rw [checkedYearOfEra, U64.div_bind (by decide), U64.sub_bind (by omega), U64.div_bind (by decide),
    U64.add_bind (by omega), U64.div_bind (by decide), U64.sub_bind (by omega), U64.div, if_pos (by decide), yearOfEra]

theorem checkedDayOfYear_eq (hyoe : yoe < 400) (h : 365 * yoe + yoe / 4 - yoe / 100 ≤ doe) :
    checkedDayOfYear doe yoe = some (dayOfYear doe yoe) := by
  rw [checkedDayOfYear, U64.mul_bind (by omega), U64.div_bind (by decide), U64.add_bind (by omega),
    U64.div_bind (by decide), U64.sub_bind (by omega), U64.sub, if_pos h, dayOfYear]

theorem checkedMonthAndDay_eq (h : doy ≤ 365) : checkedMonthAndDay doy = some (monthAndDay doy) := by
  rw [checkedMonthAndDay, U64.mul_bind (by omega), U64.add_bind (by omega), U64.div_bind (by decide), monthAndDay]
  generalize hmp : (5 * doy + 2) / 153 = mp
  have hle : mp ≤ 11 := by omega
  rw [U64.mul_bind (by omega), U64.add_bind (by omega), U64.div_bind (by decide), U64.sub_bind (by omega),
    U64.add_bind (by omega)]
  by_cases hnext : mp < 10
  · rw [if_pos hnext, if_pos hnext, U64.add_bind (by omega), Option.pure_def]
  · rw [if_neg hnext, if_neg hnext, U64.sub_bind (by omega), Option.pure_def]

/-! ### The date -/

/-- The day of a year that begins in March has a date of that year or, in January and February, of the next. -/
theorem monthAndDay_date {y : ℤ} (h : doy ≤ 365) (hleap : doy = 365 → Calendar.IsLeap (y + 1)) :
    Calendar.IsDate (y + (monthAndDay doy).2.2) (monthAndDay doy).1 (monthAndDay doy).2.1 ∧
    Calendar.daysFromCivil (y + (monthAndDay doy).2.2) (monthAndDay doy).1 (monthAndDay doy).2.1 =
      Calendar.marchStart y + doy - 719468 := by
  simp only [monthAndDay]
  generalize hmp : (5 * doy + 2) / 153 = mp
  have hle : mp ≤ 11 := by omega
  by_cases hnext : mp < 10
  · rw [if_pos hnext]
    simp only [Nat.cast_zero, add_zero]
    rw [Calendar.daysFromCivil_of_lt (by omega), Calendar.marchDay]
    refine ⟨⟨by omega, by omega, by omega, ?_⟩, by push_cast; omega⟩
    interval_cases mp <;> simp [Calendar.daysInMonth] <;> omega
  · rw [if_neg hnext]
    simp only [Nat.cast_one]
    rw [Calendar.daysFromCivil_of_le (by omega), Calendar.marchDay, add_sub_cancel_right]
    refine ⟨⟨by omega, by omega, by omega, ?_⟩, by push_cast; omega⟩
    by_cases hlast : doy = 365
    · have hyes := hleap hlast
      interval_cases mp <;> simp [Calendar.daysInMonth, hyes] <;> omega
    · interval_cases mp <;> simp [Calendar.daysInMonth] <;> (try split) <;> omega

/-- The day's parts, by which its date is found. -/
structure DayParts (days era yoe doy : Nat) : Prop where
  era_eq : (days + 719468) / 146097 = era
  yoe_eq : yearOfEra (days + 719468 - era * 146097) = yoe
  doy_eq : dayOfYear (days + 719468 - era * 146097) yoe = doy
  yoe_lt : yoe < 400
  doy_le : doy ≤ 365
  /-- No operation underflows. -/
  room : era * 146097 + (365 * yoe + yoe / 4 - yoe / 100) + doy = days + 719468
  leap : doy = 365 → Calendar.IsLeap (400 * era + yoe + 1)

theorem exists_dayParts (days : Nat) : ∃ era yoe doy, DayParts days era yoe doy := by
  have hmod : (days + 719468) % 146097 < 146097 := Nat.mod_lt _ (by decide)
  obtain ⟨century, quad, year, day, h⟩ := Calendar.exists_cycleDay hmod
  have hdoe : days + 719468 - (days + 719468) / 146097 * 146097 = (days + 719468) % 146097 := by omega
  have hyoe : yearOfEra ((days + 719468) % 146097) = 100 * century + 4 * quad + year := h.yearOfCycle
  have hday := h.dayOfYear rfl
  have hcentury := h.century_le
  have hquad := h.quad_le
  have hyear := h.year_le
  have hle := h.day_le
  refine ⟨_, _, day, rfl, hdoe ▸ hyoe, ?_, by omega, by omega, by omega, fun hlast => ?_⟩
  · rw [hdoe, dayOfYear]
    omega
  · -- The leap day ends the last of four years, and a century only where it is the last of the cycle.
    unfold Calendar.IsLeap
    omega

theorem civilFromDays_eq {era : Nat} (h : DayParts days era yoe doy) : civilFromDays days =
    (yoe + era * 400 + (monthAndDay doy).2.2, (monthAndDay doy).1, (monthAndDay doy).2.1) := by
  rw [civilFromDays, h.era_eq, h.yoe_eq, h.doy_eq]

/-- The date of a day is a date of the calendar, and its number is the day. -/
theorem civilFromDays_date (days : Nat) :
    Calendar.IsDate (civilFromDays days).1 (civilFromDays days).2.1 (civilFromDays days).2.2 ∧
    Calendar.daysFromCivil (civilFromDays days).1 (civilFromDays days).2.1 (civilFromDays days).2.2 = days := by
  obtain ⟨era, yoe, doy, h⟩ := exists_dayParts days
  obtain ⟨hdate, hnumber⟩ := monthAndDay_date (y := 400 * era + yoe) h.doy_le h.leap
  have hyear : ((civilFromDays days).1 : ℤ) = 400 * era + yoe + (monthAndDay doy).2.2 := by
    rw [civilFromDays_eq h]
    push_cast
    ring
  have hmonth : (civilFromDays days).2 = ((monthAndDay doy).1, (monthAndDay doy).2.1) := by rw [civilFromDays_eq h]
  rw [hyear, hmonth]
  refine ⟨hdate, hnumber.trans ?_⟩
  have hroom := h.room
  have hyoe := h.yoe_lt
  unfold Calendar.marchStart
  omega

theorem checkedCivilFromDays_eq (h : days < 2 ^ 54) : checkedCivilFromDays days = some (civilFromDays days) := by
  obtain ⟨era, yoe, doy, hparts⟩ := exists_dayParts days
  have hnext : (monthAndDay doy).2.2 ≤ 1 := by
    simp only [monthAndDay]
    split <;> simp
  rw [civilFromDays_eq hparts]
  obtain ⟨hera, hyoe, hdoy, hlt, hle, hroom, -⟩ := hparts
  rw [checkedCivilFromDays, U64.add_bind (by omega), U64.div_bind (by decide), hera, U64.mul_bind (by omega),
    U64.sub_bind (by omega)]
  generalize hdoe : days + 719468 - era * 146097 = doe at hyoe hdoy ⊢
  rw [checkedYearOfEra_eq (by omega), hyoe, some_bind_eq, U64.mul_bind (by omega), U64.add_bind (by omega),
    checkedDayOfYear_eq hlt (by omega), hdoy, some_bind_eq, checkedMonthAndDay_eq hle, some_bind_eq,
    U64.add_bind (by omega), Option.pure_def]

theorem checkedCivilTime_eq (ms : Timestamp) : checkedCivilTime ms = some (civilTime ms) := by
  have hms := ms.isLt
  rw [checkedCivilTime, U64.div_bind (by decide), U64.div_bind (by decide), checkedCivilFromDays_eq (by omega),
    some_bind_eq, Option.pure_def, civilTime]

/-! ### Dates and times -/

namespace CivilTime

/-- The seconds since the epoch. -/
def seconds (t : CivilTime) : ℤ :=
  Calendar.daysFromCivil t.year t.month t.day * 86400 + t.hour * 3600 + t.minute * 60 + t.second

/-- A date of the calendar and a time of the day. -/
structure IsTime (t : CivilTime) : Prop where
  date : Calendar.IsDate t.year t.month t.day
  hour_lt : t.hour < 24
  minute_lt : t.minute < 60
  second_lt : t.second < 60

/-- The fields, from the greatest. -/
def fields (t : CivilTime) : List Nat := [t.year, t.month, t.day, t.hour, t.minute, t.second]

variable {t u : CivilTime}

theorem fields_lt_iff : t.fields < u.fields ↔ t.year < u.year ∨ t.year = u.year ∧ (t.month < u.month ∨
    t.month = u.month ∧ (t.day < u.day ∨ t.day = u.day ∧ (t.hour < u.hour ∨ t.hour = u.hour ∧
      (t.minute < u.minute ∨ t.minute = u.minute ∧ t.second < u.second)))) := by
  simp [fields, List.cons_lt_cons_iff]

/-- Later times have more seconds. -/
theorem seconds_lt (ht : t.IsTime) (hu : u.IsTime) (h : t.fields < u.fields) : t.seconds < u.seconds := by
  have := ht.hour_lt
  have := ht.minute_lt
  have := ht.second_lt
  have := hu.hour_lt
  have := hu.minute_lt
  have := hu.second_lt
  rw [fields_lt_iff] at h
  by_cases hday : t.year = u.year ∧ t.month = u.month ∧ t.day = u.day
  · simp only [seconds, hday]
    omega
  · have hdate : Calendar.daysFromCivil t.year t.month t.day < Calendar.daysFromCivil u.year u.month u.day :=
      Calendar.daysFromCivil_lt ht.date hu.date (by omega)
    simp only [seconds]
    omega

theorem seconds_lt_iff (ht : t.IsTime) (hu : u.IsTime) : t.fields < u.fields ↔ t.seconds < u.seconds := by
  refine ⟨seconds_lt ht hu, fun hlt => ?_⟩
  by_contra hge
  rcases lt_or_eq_of_le (not_lt.mp hge) with h | h
  · exact absurd hlt (seconds_lt hu ht h).not_gt
  · simp only [fields, List.cons.injEq] at h
    simp only [seconds, h] at hlt
    exact lt_irrefl _ hlt

end CivilTime

/-- The time of a second of a day. -/
def timeOn (date : Nat × Nat × Nat) (sOfDay : Nat) : CivilTime :=
  ⟨date.1, date.2.1, date.2.2, sOfDay / 3600, sOfDay / 60 % 60, sOfDay % 60⟩

theorem civilTime_eq (ms : Timestamp) :
    civilTime ms = timeOn (civilFromDays (ms.val / 1000 / 86400)) (ms.val / 1000 % 86400) := by
  rw [civilTime, timeOn]

theorem isTime_timeOn {date : Nat × Nat × Nat} {sOfDay : Nat} (hdate : Calendar.IsDate date.1 date.2.1 date.2.2)
    (hlt : sOfDay < 86400) : (timeOn date sOfDay).IsTime :=
  ⟨hdate, by simp only [timeOn]; omega, by simp only [timeOn]; omega, by simp only [timeOn]; omega⟩

theorem isTime_civilTime (ms : Timestamp) : (civilTime ms).IsTime := by
  rw [civilTime_eq]
  exact isTime_timeOn (civilFromDays_date _).1 (Nat.mod_lt _ (by decide))

theorem seconds_timeOn {date : Nat × Nat × Nat} {sOfDay days : Nat}
    (hdays : Calendar.daysFromCivil date.1 date.2.1 date.2.2 = days) :
    (timeOn date sOfDay).seconds = (days * 86400 + sOfDay : ℕ) := by
  simp only [CivilTime.seconds, timeOn, hdays]
  push_cast
  omega

/-- The date and the time together are the second of the timestamp. -/
theorem seconds_civilTime (ms : Timestamp) : (civilTime ms).seconds = (ms.val / 1000 : ℕ) := by
  rw [civilTime_eq, seconds_timeOn (civilFromDays_date _).2, Nat.div_add_mod']

/-! ### The text -/

theorem padded_injective {width : Nat} : Function.Injective (padded width) := by
  intro n m h
  have hvalue : ∀ n, Nat.ofDigitChars 10 (padded width n).toList 0 = n := by
    intro n
    simp [padded, Nat.ofDigitChars_append]
  rw [← hvalue n, h, hvalue m]

theorem isDigit_padded {width n : Nat} {c : Char} (h : c ∈ (padded width n).toList) : c.isDigit := by
  rw [padded, String.toList_ofList, List.mem_append] at h
  rcases h with hzero | hdigit
  · rw [List.eq_of_mem_replicate hzero]
    rfl
  · exact Nat.isDigit_of_mem_toDigits (by decide) (by decide) hdigit

/-- A number ends where the next character is not a digit. -/
theorem padded_append_inj {width n m : Nat} {c : Char} {xs ys : List Char} (hc : c.isDigit = false)
    (h : (padded width n).toList ++ c :: xs = (padded width m).toList ++ c :: ys) : n = m ∧ xs = ys := by
  have hends : ∀ n, ∀ d ∈ (padded width n).toList, d ≠ c := by
    rintro n d hd rfl
    simp [isDigit_padded hd] at hc
  have htake : ∀ (n : Nat) (rest : List Char),
      ((padded width n).toList ++ c :: rest).takeWhile (· ≠ c) = (padded width n).toList := by
    intro n rest
    rw [List.takeWhile_append_of_pos (by simpa using hends n)]
    simp
  have hnumber : (padded width n).toList = (padded width m).toList := by
    rw [← htake n xs, h, htake]
  rw [hnumber] at h
  have hrest := List.append_cancel_left h
  exact ⟨padded_injective (String.toList_inj.mp hnumber), (List.cons.inj hrest).2⟩

theorem CivilTime.print_injective : Function.Injective CivilTime.print := by
  rintro ⟨year, month, day, hour, minute, second⟩ ⟨year', month', day', hour', minute', second'⟩ h
  have hchars := congrArg String.toList h
  have hdash : "-".toList = ['-'] := rfl
  have htime : "T".toList = ['T'] := rfl
  have hcolon : ":".toList = [':'] := rfl
  have hzone : "Z".toList = ['Z'] := rfl
  simp only [CivilTime.print, String.toList_append, List.append_assoc, hdash, htime, hcolon, hzone, List.cons_append,
    List.nil_append] at hchars
  obtain ⟨hyear, hchars⟩ := padded_append_inj (c := '-') (by decide) hchars
  obtain ⟨hmonth, hchars⟩ := padded_append_inj (c := '-') (by decide) hchars
  obtain ⟨hday, hchars⟩ := padded_append_inj (c := 'T') (by decide) hchars
  obtain ⟨hhour, hchars⟩ := padded_append_inj (c := ':') (by decide) hchars
  obtain ⟨hminute, hchars⟩ := padded_append_inj (c := ':') (by decide) hchars
  obtain ⟨hsecond, -⟩ := padded_append_inj (c := 'Z') (by decide) hchars
  subst hyear hmonth hday hhour hminute hsecond
  rfl

/-- For every timestamp the arithmetic stays within `u64`, and what is printed is a date of the calendar and a time of
the day that together are the second of the timestamp. Two timestamps are printed alike exactly where they are of one
second, and of two seconds the later one is printed as the later date and time. -/
theorem formatIso8601Utc_correct (ms : Timestamp) :
    checkedCivilTime ms = some (civilTime ms) ∧ formatIso8601Utc ms = (civilTime ms).print ∧
    (civilTime ms).IsTime ∧ (civilTime ms).seconds = (ms.val / 1000 : ℕ) ∧
    ∀ ms', (formatIso8601Utc ms = formatIso8601Utc ms' ↔ ms.val / 1000 = ms'.val / 1000) ∧
      ((civilTime ms).fields < (civilTime ms').fields ↔ ms.val / 1000 < ms'.val / 1000) := by
  refine ⟨checkedCivilTime_eq ms, congrFun formatIso8601Utc_eq ms, isTime_civilTime ms, seconds_civilTime ms,
    fun ms' => ⟨?_, ?_⟩⟩
  · rw [formatIso8601Utc_eq]
    constructor
    · intro h
      have hseconds := seconds_civilTime ms
      rw [CivilTime.print_injective h, seconds_civilTime] at hseconds
      omega
    · intro h
      have htime : civilTime ms = civilTime ms' := by rw [civilTime_eq, civilTime_eq ms', h]
      exact congrArg CivilTime.print htime
  · rw [CivilTime.seconds_lt_iff (isTime_civilTime ms) (isTime_civilTime ms'), seconds_civilTime, seconds_civilTime]
    omega

end Llm386
