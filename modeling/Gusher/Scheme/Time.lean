import Gusher.Scheme.Number

/-!
# Timestamps

How a timestamp is written, and how one is made of a local time.  What the C library knows about
local time, and about floating-point numbers, is a parameter.
-/

namespace Gusher

/-- A number of at least two digits, as `strftime` writes it. -/
def twoDigits (z : ℤ) : Text :=
  if 0 ≤ z ∧ z < 10 then '0' :: numberText z else numberText z

/-- A year, of at least four digits. -/
def yearText (year : ℤ) : Text :=
  List.replicate (4 - (numberText year).length) '0' ++ numberText year

/-- `format_time`, with the format that `pg_format_sql` and `json_build` give it. -/
def formatTime (t : GTime) : Text :=
  numberText t.year ++ '-' :: twoDigits t.month ++ '-' :: twoDigits t.day
    ++ ' ' :: twoDigits t.hour ++ ':' :: twoDigits t.minute ++ ':' :: twoDigits t.second

/-- A local time: what is used of `struct tm`, with the calendar year and month. -/
structure Civil where
  year : ℤ
  month : ℤ
  day : ℤ
  hour : ℤ
  minute : ℤ
  second : ℤ
  deriving DecidableEq

def daysInMonth (year month : ℤ) : ℤ :=
  if month = 2 then if year % 4 = 0 ∧ (year % 100 ≠ 0 ∨ year % 400 = 0) then 29 else 28
  else if month = 4 ∨ month = 6 ∨ month = 9 ∨ month = 11 then 30
  else 31

/-- A time of a day of the calendar. -/
structure Civil.Valid (c : Civil) : Prop where
  month : 1 ≤ c.month ∧ c.month ≤ 12
  day : 1 ≤ c.day ∧ c.day ≤ daysInMonth c.year c.month
  hour : 0 ≤ c.hour ∧ c.hour < 24
  minute : 0 ≤ c.minute ∧ c.minute < 60
  second : 0 ≤ c.second ∧ c.second < 60

instance (c : Civil) : Decidable c.Valid :=
  decidable_of_iff ((1 ≤ c.month ∧ c.month ≤ 12)
      ∧ (1 ≤ c.day ∧ c.day ≤ daysInMonth c.year c.month) ∧ (0 ≤ c.hour ∧ c.hour < 24)
      ∧ (0 ≤ c.minute ∧ c.minute < 60) ∧ (0 ≤ c.second ∧ c.second < 60))
    ⟨fun ⟨month, day, hour, minute, second⟩ => ⟨month, day, hour, minute, second⟩,
      fun h => ⟨h.month, h.day, h.hour, h.minute, h.second⟩⟩

def GTime.civil (t : GTime) : Civil where
  year := t.year
  month := t.month
  day := t.day
  hour := t.hour
  minute := t.minute
  second := t.second

/-- The functions of the C library on local time and on floating-point numbers. -/
structure CLibrary where
  /-- `localtime_r`: the local time, and how many seconds it is ahead of universal time -/
  localtime : ℤ → Civil × ℤ
  /-- `mktime` of a local time, with -1 for `tm_isdst` -/
  mktime : Civil → ℤ
  /-- `atof`, split into whole seconds and rounded microseconds -/
  seconds : List UInt8 → ℤ × ℤ
  /-- `atof`, as `number->string` writes it -/
  real : List UInt8 → Text

/-- What the code relies on. -/
structure CLibrary.Lawful (lib : CLibrary) : Prop where
  /-- there are no leap seconds -/
  valid : ∀ e, (lib.localtime e).1.Valid
  /-- `mktime` finds an instant with a local time that occurs -/
  mktime_localtime : ∀ e, (lib.localtime (lib.mktime (lib.localtime e).1)).1 = (lib.localtime e).1
  /-- a numeral without a fraction is a number of seconds -/
  seconds_decimal : ∀ {n : ℕ} {t : Text}, n < 60 → Decimal n t →
    lib.seconds (encodeUtf8 t) = ((n : ℤ), 0)

/-- The timestamp of an instant. -/
def CLibrary.at (lib : CLibrary) (epoch usec : ℤ) : GTime where
  year := (lib.localtime epoch).1.year
  month := (lib.localtime epoch).1.month
  day := (lib.localtime epoch).1.day
  hour := (lib.localtime epoch).1.hour
  minute := (lib.localtime epoch).1.minute
  second := (lib.localtime epoch).1.second
  gmtoff := (lib.localtime epoch).2
  epoch := epoch
  usec := usec

@[simp]
theorem CLibrary.civil_at (lib : CLibrary) (epoch usec : ℤ) :
  (lib.at epoch usec).civil = (lib.localtime epoch).1
  := rfl

/-- `local_time_intern`; `second` is the whole seconds and the microseconds, rounded. -/
def CLibrary.localTimeIntern (lib : CLibrary) (year month day hour minute : ℤ) (second : ℤ × ℤ) :
    Scm :=
  let epoch := lib.mktime ⟨year, month, day, hour, minute, second.1⟩
  if epoch = -1 then .bool false
  else if second.2 ≥ 1000000 then .time (lib.at (epoch + 1) (second.2 - 1000000))
  else .time (lib.at epoch second.2)

/-! ### Digits -/

theorem decimal_twoDigits {z : ℤ} (hz : 0 ≤ z) :
  Decimal z.natAbs (twoDigits z)
  := by
  unfold twoDigits
  split
  case isTrue => exact (decimal_numberText hz).zero_cons
  case isFalse => exact decimal_numberText hz

theorem decimal_yearText {year : ℤ} (h : 0 ≤ year) :
  Decimal year.natAbs (yearText year)
  := (decimal_numberText h).zeros_append _

end Gusher
