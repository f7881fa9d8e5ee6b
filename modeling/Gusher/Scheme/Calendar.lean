import Gusher.Scheme.Time

/-!
# The calendar

How many seconds after the epoch a time of a day of the calendar is in universal time, and the
other way round.
-/

namespace Gusher

/-- The number of days of the calendar before a year. -/
def daysBeforeYear (year : ℤ) : ℤ :=
  365 * (year - 1) + (year - 1) / 4 - (year - 1) / 100 + (year - 1) / 400

/-- The number of days of a year after a number of months. -/
def daysOfMonths (year : ℤ) : ℕ → ℤ
  | 0 => 0
  | m + 1 => daysOfMonths year m + daysInMonth year (m + 1)

/-- The number of days from 1 January 1970. -/
def dayNumber (year month day : ℤ) : ℤ :=
  daysBeforeYear year - daysBeforeYear 1970 + daysOfMonths year (month - 1).toNat + (day - 1)

namespace Civil

/-- The number of seconds from the epoch, of a time that is universal time. -/
def utcSeconds (c : Civil) : ℤ :=
  dayNumber c.year c.month c.day * 86400 + c.hour * 3600 + c.minute * 60 + c.second

def nextDay (c : Civil) : Civil :=
  if c.day < daysInMonth c.year c.month then { c with day := c.day + 1 }
  else if c.month < 12 then { c with month := c.month + 1, day := 1 }
  else { c with year := c.year + 1, month := 1, day := 1 }

/-- The same time on the day before. -/
def previousDay (c : Civil) : Civil :=
  if 1 < c.day then { c with day := c.day - 1 }
  else if 1 < c.month then
    { c with month := c.month - 1, day := daysInMonth c.year (c.month - 1) }
  else { c with year := c.year - 1, month := 12, day := 31 }

end Civil

/-- Universal time, a number of seconds after the epoch. -/
def utcCivil (e : ℤ) : Civil :=
  let midnight : Civil := ⟨1970, 1, 1, e % 86400 / 3600, e % 3600 / 60, e % 60⟩
  match e / 86400 with
  | .ofNat n => Civil.nextDay^[n] midnight
  | .negSucc n => Civil.previousDay^[n + 1] midnight

/-! ### The days of a year -/

/-- A month has at least 28 days, and at most 31. -/
theorem daysInMonth_mem (year month : ℤ) :
  28 ≤ daysInMonth year month ∧ daysInMonth year month ≤ 31
  := by
  unfold daysInMonth
  split_ifs <;> omega

/-- So many months have at least 28 days each, and at most 31. -/
theorem daysOfMonths_mem (year : ℤ) (m : ℕ) :
  28 * (m : ℤ) ≤ daysOfMonths year m ∧ daysOfMonths year m ≤ 31 * (m : ℤ)
  := by
  induction m with
  | zero => simp [daysOfMonths]
  | succ m ih =>
      have hmonth := daysInMonth_mem year (m + 1)
      rw [daysOfMonths]
      push_cast
      omega

/-- The days of the months of a year lead to the next year. -/
theorem daysBeforeYear_add_one (year : ℤ) :
  daysBeforeYear (year + 1) = daysBeforeYear year + daysOfMonths year 12
  := by
  have hmonths : daysOfMonths year 12 = 337 + daysInMonth year 2 := by
    simp [daysOfMonths, daysInMonth]
    omega
  rw [hmonths]
  simp only [daysBeforeYear, daysInMonth]
  split_ifs <;> omega

theorem dayNumber_month (year : ℤ) {month : ℤ} (h : 1 ≤ month) :
  dayNumber year (month + 1) 1 = dayNumber year month (daysInMonth year month) + 1
  := by
  obtain ⟨m, rfl⟩ : ∃ m : ℕ, month = m + 1 := ⟨(month - 1).toNat, by omega⟩
  have hbefore : ((m : ℤ) + 1 - 1).toNat = m := by omega
  have hthis : ((m : ℤ) + 1 + 1 - 1).toNat = m + 1 := by omega
  rw [dayNumber, dayNumber, hbefore, hthis, daysOfMonths]
  omega

/-- New Year's Day is the day after New Year's Eve. -/
theorem dayNumber_year (year : ℤ) :
  dayNumber (year + 1) 1 1 = dayNumber year 12 31 + 1
  := by
  have hdecember : daysOfMonths year 12 = daysOfMonths year 11 + 31 := by
    simp [daysOfMonths, daysInMonth]
  have heleven : ((12 : ℤ) - 1).toNat = 11 := rfl
  have hzero : ((1 : ℤ) - 1).toNat = 0 := rfl
  rw [dayNumber, dayNumber, daysBeforeYear_add_one, hdecember, heleven, hzero, daysOfMonths]
  omega

/-! ### From day to day -/

namespace Civil

variable {c : Civil}

/-- The next day is a day of the calendar, and starts as many seconds later as a day has. -/
theorem Valid.nextDay (h : c.Valid) :
  c.nextDay.Valid ∧ c.nextDay.utcSeconds = c.utcSeconds + 86400
  := by
  obtain ⟨year, month, day, hour, minute, second⟩ := c
  obtain ⟨hmonth, hday, hhour, hminute, hsecond⟩ := h
  simp only at hmonth hday hhour hminute hsecond
  simp only [Civil.nextDay, utcSeconds]
  split_ifs with hlast hmonths
  · constructor
    · constructor <;> simp only <;> omega
    · simp only [dayNumber]
      omega
  · have hlength := daysInMonth_mem year (month + 1)
    constructor
    · constructor <;> simp only <;> omega
    · have hend : day = daysInMonth year month := by omega
      simp only [dayNumber_month year hmonth.1, hend]
      omega
  · obtain rfl : month = 12 := by omega
    have hdecember : daysInMonth year 12 = 31 := by simp [daysInMonth]
    have hjanuary : daysInMonth (year + 1) 1 = 31 := by simp [daysInMonth]
    constructor
    · constructor <;> simp only <;> omega
    · have hend : day = 31 := by omega
      simp only [dayNumber_year, hend]
      omega

/-- The day before is a day of the calendar, and starts as many seconds earlier. -/
theorem Valid.previousDay (h : c.Valid) :
  c.previousDay.Valid ∧ c.previousDay.utcSeconds = c.utcSeconds - 86400
  := by
  obtain ⟨year, month, day, hour, minute, second⟩ := c
  obtain ⟨hmonth, hday, hhour, hminute, hsecond⟩ := h
  simp only at hmonth hday hhour hminute hsecond
  simp only [Civil.previousDay, utcSeconds]
  split_ifs with hfirst hmonths
  · constructor
    · constructor <;> simp only <;> omega
    · simp only [dayNumber]
      omega
  · have hlength := daysInMonth_mem year (month - 1)
    obtain rfl : day = 1 := by omega
    constructor
    · constructor <;> simp only <;> omega
    · have hnext := dayNumber_month year (by omega : 1 ≤ month - 1)
      rw [sub_add_cancel] at hnext
      simp only [hnext]
      omega
  · obtain rfl : month = 1 := by omega
    obtain rfl : day = 1 := by omega
    have hdecember : daysInMonth (year - 1) 12 = 31 := by simp [daysInMonth]
    constructor
    · constructor <;> simp only <;> omega
    · have hnext := dayNumber_year (year - 1)
      rw [sub_add_cancel] at hnext
      simp only [hnext]
      omega

/-- A number of days later. -/
theorem Valid.iterate_nextDay (h : c.Valid) (n : ℕ) :
  (Civil.nextDay^[n] c).Valid ∧ (Civil.nextDay^[n] c).utcSeconds = c.utcSeconds + n * 86400
  := by
  induction n with
  | zero => simpa using h
  | succ n ih =>
      obtain ⟨hvalid, hseconds⟩ := ih
      obtain ⟨hvalid', hseconds'⟩ := hvalid.nextDay
      rw [Function.iterate_succ_apply']
      use hvalid'
      push_cast
      omega

/-- A number of days earlier. -/
theorem Valid.iterate_previousDay (h : c.Valid) (n : ℕ) :
  (Civil.previousDay^[n] c).Valid
    ∧ (Civil.previousDay^[n] c).utcSeconds = c.utcSeconds - n * 86400
  := by
  induction n with
  | zero => simpa using h
  | succ n ih =>
      obtain ⟨hvalid, hseconds⟩ := ih
      obtain ⟨hvalid', hseconds'⟩ := hvalid.previousDay
      rw [Function.iterate_succ_apply']
      use hvalid'
      push_cast
      omega

end Civil

/-- Every number of seconds is the one of a time of a day of the calendar. -/
theorem utcCivil_spec (e : ℤ) :
  (utcCivil e).Valid ∧ (utcCivil e).utcSeconds = e
  := by
  have hmidnight : (⟨1970, 1, 1, e % 86400 / 3600, e % 3600 / 60, e % 60⟩ : Civil).Valid
      ∧ (⟨1970, 1, 1, e % 86400 / 3600, e % 3600 / 60, e % 60⟩ : Civil).utcSeconds
        = e % 86400 := by
    have hstart : dayNumber 1970 1 1 = 0 := by decide
    have hlength : daysInMonth 1970 1 = 31 := by decide
    constructor
    · constructor <;> simp only <;> omega
    · simp only [Civil.utcSeconds, hstart]
      omega
  obtain ⟨hvalid, hseconds⟩ := hmidnight
  have hday : e = e / 86400 * 86400 + e % 86400 := by omega
  unfold utcCivil
  split
  case _ n hn =>
      rw [Int.ofNat_eq_natCast] at hn
      obtain ⟨hvalid', hseconds'⟩ := hvalid.iterate_nextDay n
      use hvalid'
      rw [hseconds', hseconds]
      omega
  case _ n hn =>
      obtain ⟨hvalid', hseconds'⟩ := hvalid.iterate_previousDay (n + 1)
      use hvalid'
      rw [hseconds', hseconds]
      omega

end Gusher
