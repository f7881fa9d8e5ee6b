import Gusher.Scheme.ZonedTime
import Gusher.Store.Column

/-!
# Dates and timestamps of PostgreSQL

The texts that PostgreSQL gives for dates and timestamps in its ISO style, the instants that they
denote, and when `pg_decode` makes a timestamp of the instant.  The fraction of a second, the time
zone and the era are in the text, but `decode_timestamp` does not read them; and it does not expect
that a date can be infinite.
-/

namespace Gusher

open CString

/-! ### What is stored -/

/-- The types of dates and timestamps. -/
inductive DateType where
  | date
  | timestamp
  | timestamptz
  deriving DecidableEq

/-- The code of a type, from `pg_type.h`. -/
def DateType.oid : DateType → ℕ
  | date => 1082
  | timestamp => 1114
  | timestamptz => 1184

/-- A day of the calendar, in the range of PostgreSQL.  The year before the year 1 is the year 0. -/
structure PgDay where
  year : ℤ
  month : ℤ
  day : ℤ
  year_mem : -4712 ≤ year ∧ year ≤ 5874897
  month_mem : 1 ≤ month ∧ month ≤ 12
  day_mem : 1 ≤ day ∧ day ≤ daysInMonth year month

/-- A time of the day; the fraction of the second is given by its digits. -/
structure PgClock where
  hour : ℤ
  minute : ℤ
  second : ℤ
  fraction : Text
  hour_mem : 0 ≤ hour ∧ hour < 24
  minute_mem : 0 ≤ minute ∧ minute < 60
  second_mem : 0 ≤ second ∧ second < 60
  fraction_digits : ∀ c ∈ fraction, c.isDigit = true
  fraction_length : fraction.length ≤ 6

/-- How far local time is ahead of universal time, or behind it. -/
structure PgZone where
  behind : Bool
  hours : ℕ
  minutes : ℕ
  seconds : ℕ
  hours_lt : hours < 100
  minutes_lt : minutes < 60
  seconds_lt : seconds < 60

/-- A date or a timestamp. -/
inductive DateValue where
  | infinity (type : DateType) (negative : Bool)
  | date (day : PgDay)
  | timestamp (day : PgDay) (clock : PgClock)
  | timestamptz (day : PgDay) (clock : PgClock) (zone : PgZone)

/-! ### Texts -/

def PgDay.yearOfEra (day : PgDay) : ℤ := if 0 < day.year then day.year else 1 - day.year

/-- A day, without its era. -/
def PgDay.text (day : PgDay) : Text :=
  yearText day.yearOfEra ++ '-' :: (twoDigits day.month ++ '-' :: twoDigits day.day)

/-- The era, which is at the end of a text. -/
def PgDay.era (day : PgDay) : Text := if 0 < day.year then [] else " BC".toList

def fractionText (digits : Text) : Text := if digits = [] then [] else '.' :: digits

/-- A time of the day. -/
def PgClock.text (clock : PgClock) : Text :=
  twoDigits clock.hour ++ ':' :: (twoDigits clock.minute ++ ':' :: (twoDigits clock.second
    ++ fractionText clock.fraction))

/-- A time zone; minutes and seconds are only written if they are needed. -/
def PgZone.text (zone : PgZone) : Text :=
  (if zone.behind then '-' else '+') :: (twoDigits zone.hours
    ++ ((if zone.minutes = 0 ∧ zone.seconds = 0 then [] else ':' :: twoDigits zone.minutes)
      ++ if zone.seconds = 0 then [] else ':' :: twoDigits zone.seconds))

namespace DateValue

def type : DateValue → DateType
  | infinity type _ => type
  | date _ => .date
  | timestamp _ _ => .timestamp
  | timestamptz _ _ _ => .timestamptz

def text : DateValue → Text
  | infinity _ negative => (if negative then "-infinity" else "infinity").toList
  | date day => day.text ++ day.era
  | timestamp day clock => day.text ++ ' ' :: (clock.text ++ day.era)
  | timestamptz day clock zone => day.text ++ ' ' :: (clock.text ++ (zone.text ++ day.era))

end DateValue

/-! ### Instants -/

def PgClock.micros (clock : PgClock) : ℤ :=
  Nat.ofDigitChars 10 clock.fraction 0 * 10 ^ (6 - clock.fraction.length)

/-- The seconds of a time zone. -/
def PgZone.offset (zone : PgZone) : ℤ :=
  if zone.behind then -(zone.hours * 3600 + zone.minutes * 60 + zone.seconds)
  else zone.hours * 3600 + zone.minutes * 60 + zone.seconds

/-- How far local time is ahead of universal time at a local time, as `mktime` takes it. -/
def CLibrary.localOffset (lib : CLibrary) (c : Civil) : ℤ :=
  c.utcSeconds - lib.mktime c

def PgDay.civil (day : PgDay) (hour minute second : ℤ) : Civil :=
  ⟨day.year, day.month, day.day, hour, minute, second⟩

namespace DateValue

variable (lib : CLibrary)

/-- The epoch and the microseconds of the instant, unless the value is infinite. -/
def instant : DateValue → Option (ℤ × ℤ)
  | infinity _ _ => none
  | date day => some (lib.mktime (day.civil 0 0 0), 0)
  | timestamp day clock =>
      some (lib.mktime (day.civil clock.hour clock.minute clock.second), clock.micros)
  | timestamptz day clock zone =>
      some ((day.civil clock.hour clock.minute clock.second).utcSeconds - zone.offset,
        clock.micros)

/-- `pg_decode` finds what it looks for, and makes a timestamp of the instant, if there is one. -/
def Decoded (v : DateValue) : Prop :=
  match v.instant lib with
  | none => pgDecodeType lib (encodeUtf8 v.text) v.type.oid ≠ none
  | some (epoch, usec) => ∃ t, pgDecodeType lib (encodeUtf8 v.text) v.type.oid = some (.time t)
      ∧ t.epoch = epoch ∧ t.usec = usec

/-- What `decode_timestamp` can read. -/
def Readable : DateValue → Prop
  | infinity _ _ => False
  | date day => 0 < day.year ∧ lib.mktime (day.civil 0 0 0) ≠ -1
  | timestamp day clock => 0 < day.year ∧ clock.micros = 0
      ∧ lib.mktime (day.civil clock.hour clock.minute clock.second) ≠ -1
  | timestamptz day clock zone => 0 < day.year ∧ clock.micros = 0
      ∧ lib.mktime (day.civil clock.hour clock.minute clock.second) ≠ -1
      ∧ zone.offset = lib.localOffset (day.civil clock.hour clock.minute clock.second)

end DateValue

/-- A local time of a day in the range of PostgreSQL, or of one of the days that would follow on a
short month. -/
structure Civil.Ordinary (c : Civil) : Prop where
  year : -4712 ≤ c.year ∧ c.year ≤ 5874897
  month : 1 ≤ c.month ∧ c.month ≤ 12
  day : 1 ≤ c.day ∧ c.day ≤ 31
  hour : 0 ≤ c.hour ∧ c.hour < 24
  minute : 0 ≤ c.minute ∧ c.minute < 60
  second : 0 ≤ c.second ∧ c.second < 60

/-- What the code relies on. -/
structure CLibrary.ReadsDates (lib : CLibrary) : Prop where
  /-- `atof` reads a numeral with a fraction of at most six digits up to a space or a sign -/
  seconds : ∀ {n : ℕ} {t f rest : Text}, n < 60 → Decimal n t → (∀ c ∈ f, c.isDigit = true) →
    f.length ≤ 6 → (∀ c ∈ rest.head?, c = ' ' ∨ c = '+' ∨ c = '-') →
    (lib.seconds (encodeUtf8 (t ++ (fractionText f ++ rest)))).1 = n
  /-- local time is at most two days ahead of universal time, or behind it -/
  mktime_near : ∀ c : Civil, c.Ordinary → |lib.mktime c - c.utcSeconds| ≤ 172800

/-! ### Reading -/

/-- The time of a day, with the year as it is counted in its era. -/
def PgDay.written (day : PgDay) (hour minute second : ℤ) : Civil :=
  ⟨day.yearOfEra, day.month, day.day, hour, minute, second⟩

section Reading

variable {lib : CLibrary} (day : PgDay)

theorem PgDay.bounds :
  0 < day.yearOfEra ∧ day.yearOfEra ≤ 5874897 ∧ day.day ≤ 31
  := by
  have hyear := day.year_mem
  have hday := day.day_mem
  have hdays := (daysInMonth_mem day.year day.month).2
  unfold PgDay.yearOfEra
  split <;> omega

theorem PgDay.decimal :
  Decimal day.yearOfEra.natAbs (yearText day.yearOfEra)
    ∧ Decimal day.month.natAbs (twoDigits day.month) ∧ Decimal day.day.natAbs (twoDigits day.day)
  := by
  have hyear := day.bounds.1
  have hmonth := day.month_mem.1
  have hday := day.day_mem.1
  exact ⟨decimal_yearText (by omega), decimal_twoDigits (by omega), decimal_twoDigits (by omega)⟩

/-- There is no digit and no colon at the start of what can follow the digits of a day. -/
theorem PgDay.era_plain :
  (58 : UInt8) ∉ encodeUtf8 day.era ∧ ∀ b ∈ (encodeUtf8 day.era).head?, isdigit b = false
  := by
  unfold PgDay.era
  split
  · simp [encodeUtf8]
  · have hbytes : encodeUtf8 " BC".toList = [32, 66, 67] := rfl
    rw [hbytes]
    constructor
    · simp
    · rintro b ⟨⟩
      rfl

/-- `decode_timestamp` of a day alone. -/
theorem decodeTimestamp_day :
  decodeTimestamp lib (encodeUtf8 (day.text ++ day.era))
    = some (lib.localTimeIntern day.yearOfEra day.month day.day 0 0 (0, 0))
  := by
  obtain ⟨hyear, hmonth, hday⟩ := day.decimal
  obtain ⟨hpos, hle, hle'⟩ := day.bounds
  have hmonths := day.month_mem
  have hdays := day.day_mem
  -- the bytes from each part on
  let fromDay := encodeUtf8 (twoDigits day.day) ++ encodeUtf8 day.era
  let fromMonth := encodeUtf8 (twoDigits day.month) ++ 45 :: fromDay
  have hbytes : encodeUtf8 (day.text ++ day.era)
      = encodeUtf8 (yearText day.yearOfEra) ++ 45 :: fromMonth := by
    simp only [PgDay.text, encodeUtf8_append, encodeUtf8_cons, List.append_assoc]
    rfl
  obtain ⟨hatoiYear, hindexYear⟩ := atoi_index hyear (by omega) (b := 45) (by decide) fromMonth
  obtain ⟨hatoiMonth, hindexMonth⟩ := atoi_index hmonth (by omega) (b := 45) (by decide) fromDay
  have hatoiDay : atoi fromDay = day.day.natAbs :=
    atoi_of_decimal hday (by omega) day.era_plain.2
  have hcolon : (index fromDay 58).isNone = true := by
    have hnot : (58 : UInt8) ∉ fromDay := by
      rw [List.mem_append]
      exact not_or.mpr ⟨hday.notMem_encodeUtf8 (by decide), day.era_plain.1⟩
    rw [index_eq_none hnot]
    rfl
  rw [hbytes, decodeTimestamp, hindexYear, Option.bind_some]
  simp only []
  rw [hindexMonth, Option.bind_some]
  simp only []
  rw [if_pos hcolon, hatoiYear, hatoiMonth, hatoiDay, Int.natAbs_of_nonneg (by omega),
    Int.natAbs_of_nonneg (by omega), Int.natAbs_of_nonneg (by omega)]

/-- `decode_timestamp` of a day and a time. -/
theorem decodeTimestamp_clock (hlib : lib.ReadsDates) (clock : PgClock) {rest : Text}
    (hrest : ∀ c ∈ rest.head?, c = ' ' ∨ c = '+' ∨ c = '-') :
  decodeTimestamp lib (encodeUtf8 (day.text ++ ' ' :: (clock.text ++ rest)))
    = some (lib.localTimeIntern day.yearOfEra day.month day.day clock.hour clock.minute
        (clock.second, 0))
  := by
  obtain ⟨hyear, hmonth, hday⟩ := day.decimal
  obtain ⟨hpos, hle, hle'⟩ := day.bounds
  have hmonths := day.month_mem
  have hdays := day.day_mem
  have hhours := clock.hour_mem
  have hminutes := clock.minute_mem
  have hseconds := clock.second_mem
  have hhour : Decimal clock.hour.natAbs (twoDigits clock.hour) := decimal_twoDigits (by omega)
  have hminute : Decimal clock.minute.natAbs (twoDigits clock.minute) :=
    decimal_twoDigits (by omega)
  have hsecond : Decimal clock.second.natAbs (twoDigits clock.second) :=
    decimal_twoDigits (by omega)
  have hbytes : encodeUtf8 (day.text ++ ' ' :: (clock.text ++ rest))
      = encodeUtf8 (yearText day.yearOfEra) ++ 45 :: (encodeUtf8 (twoDigits day.month)
        ++ 45 :: (encodeUtf8 (twoDigits day.day) ++ 32 :: (encodeUtf8 (twoDigits clock.hour)
          ++ 58 :: (encodeUtf8 (twoDigits clock.minute) ++ 58 ::
            encodeUtf8 (twoDigits clock.second ++ (fractionText clock.fraction ++ rest)))))) := by
    simp only [PgDay.text, PgClock.text, encodeUtf8_append, encodeUtf8_cons, List.append_assoc,
      List.cons_append]
    rfl
  rw [hbytes, decodeTimestamp_time hyear hmonth hday hhour hminute (by omega) (by omega) (by omega)
    (by omega) (by omega),
    hlib.seconds (by omega) hsecond clock.fraction_digits clock.fraction_length hrest,
    Int.natAbs_of_nonneg (by omega), Int.natAbs_of_nonneg (by omega),
    Int.natAbs_of_nonneg (by omega), Int.natAbs_of_nonneg (by omega),
    Int.natAbs_of_nonneg (by omega), Int.natAbs_of_nonneg (by omega)]

/-- When a call of `local_time_intern` without microseconds gives the timestamp of an instant. -/
theorem localTimeIntern_eq_time_iff (c : Civil) (epoch usec : ℤ) :
  (∃ t, some (lib.localTimeIntern c.year c.month c.day c.hour c.minute (c.second, 0))
      = some (Scm.time t) ∧ t.epoch = epoch ∧ t.usec = usec)
    ↔ lib.mktime c ≠ -1 ∧ lib.mktime c = epoch ∧ usec = 0
  := by
  rcases eq_or_ne (lib.mktime c) (-1) with hnone | hsome
  · simp [CLibrary.localTimeIntern, hnone]
  · rw [localTimeIntern_eq hsome]
    simp [CLibrary.at, hsome, eq_comm]

/-- A day before the year 1 and the day that is read for it are many days apart. -/
theorem PgDay.civil_far (h : day.year ≤ 0) (hour minute second : ℤ) :
  (day.civil hour minute second).utcSeconds + 300 * 86400
    ≤ (day.written hour minute second).utcSeconds
  := by
  have hmonth := day.month_mem
  have hera : day.yearOfEra = 1 - day.year := if_neg (by omega)
  have hmonths := daysOfMonths_mem day.year (day.month - 1).toNat
  have hmonths' := daysOfMonths_mem (1 - day.year) (day.month - 1).toNat
  have hyears : daysBeforeYear day.year + 365 ≤ daysBeforeYear (1 - day.year) := by
    unfold daysBeforeYear
    omega
  simp only [Civil.utcSeconds, PgDay.civil, PgDay.written, dayNumber, hera]
  omega

/-- In the era before the year 1, `mktime` of what is read is later than the instant of the day. -/
theorem PgDay.lt_mktime_written (hlib : lib.ReadsDates) (h : day.year ≤ 0) {hour minute second : ℤ}
    (hhour : 0 ≤ hour ∧ hour < 24) (hminute : 0 ≤ minute ∧ minute < 60)
    (hsecond : 0 ≤ second ∧ second < 60) :
  lib.mktime (day.civil hour minute second) < lib.mktime (day.written hour minute second)
    ∧ (day.civil hour minute second).utcSeconds + 360000
      < lib.mktime (day.written hour minute second)
  := by
  obtain ⟨hpos, hle, hday⟩ := day.bounds
  have hfar := day.civil_far h hour minute second
  have hcivil : (day.civil hour minute second).Ordinary :=
    ⟨day.year_mem, day.month_mem, ⟨day.day_mem.1, hday⟩, hhour, hminute, hsecond⟩
  have hwritten : (day.written hour minute second).Ordinary :=
    ⟨⟨by simp only [PgDay.written]; omega, hle⟩, day.month_mem, ⟨day.day_mem.1, hday⟩, hhour,
      hminute, hsecond⟩
  have hnear := abs_le.mp (hlib.mktime_near _ hcivil)
  have hnear' := abs_le.mp (hlib.mktime_near _ hwritten)
  omega

/-- In the present era, the year is written as it is. -/
theorem PgDay.written_eq (h : 0 < day.year) (hour minute second : ℤ) :
  day.written hour minute second = day.civil hour minute second
  := by
  rw [PgDay.written, PgDay.civil, PgDay.yearOfEra, if_pos h]

theorem PgZone.offset_mem (zone : PgZone) :
  -360000 < zone.offset ∧ zone.offset < 360000
  := by
  have hhours := zone.hours_lt
  have hminutes := zone.minutes_lt
  have hseconds := zone.seconds_lt
  unfold PgZone.offset
  split <;> omega

end Reading

/-! ### Reading every value -/

section Values

variable {lib : CLibrary}

theorem pgDecodeType_oid (string : List UInt8) (type : DateType) :
  pgDecodeType lib string type.oid = decodeTimestamp lib string
  := by
  cases type <;> simp [pgDecodeType, DateType.oid]

theorem decodeTimestamp_infinity (type : DateType) (negative : Bool) :
  decodeTimestamp lib (encodeUtf8 (DateValue.infinity type negative).text) = none
  := by
  cases negative <;> rfl

theorem PgDay.era_head (day : PgDay) :
  ∀ c ∈ day.era.head?, c = ' ' ∨ c = '+' ∨ c = '-'
  := by
  unfold PgDay.era
  split
  · simp
  · rintro c ⟨⟩
    exact .inl rfl

theorem PgZone.text_head (zone : PgZone) (rest : Text) :
  ∀ c ∈ (zone.text ++ rest).head?, c = ' ' ∨ c = '+' ∨ c = '-'
  := by
  unfold PgZone.text
  cases zone.behind <;> simp

/-- When a call with the year of the era gives the timestamp of an instant: before the year 1, what
is read is later than the instant. -/
theorem PgDay.read_iff {day : PgDay} {hour minute second epoch usec : ℤ}
    (hlater : day.year ≤ 0 → epoch < lib.mktime (day.written hour minute second)) :
  (∃ t, some (lib.localTimeIntern day.yearOfEra day.month day.day hour minute (second, 0))
      = some (Scm.time t) ∧ t.epoch = epoch ∧ t.usec = usec)
    ↔ 0 < day.year ∧ usec = 0 ∧ lib.mktime (day.civil hour minute second) ≠ -1
      ∧ lib.mktime (day.civil hour minute second) = epoch
  := by
  refine (localTimeIntern_eq_time_iff (day.written hour minute second) epoch usec).trans ?_
  rcases lt_or_ge 0 day.year with hera | hera
  · rw [day.written_eq hera]
    constructor
    · rintro ⟨hsome, hepoch, husec⟩
      exact ⟨hera, husec, hsome, hepoch⟩
    · rintro ⟨-, husec, hsome, hepoch⟩
      exact ⟨hsome, hepoch, husec⟩
  · have hlt := hlater hera
    constructor
    · rintro ⟨-, hepoch, -⟩
      omega
    · rintro ⟨hpos, -⟩
      omega

theorem decoded_date_iff (hlib : lib.ReadsDates) (day : PgDay) :
  (DateValue.date day).Decoded lib ↔ (DateValue.date day).Readable lib
  := by
  simp only [DateValue.Decoded, DateValue.instant, pgDecodeType_oid, DateValue.text,
    decodeTimestamp_day]
  rw [PgDay.read_iff fun hera =>
    (day.lt_mktime_written hlib hera (by decide) (by decide) (by decide)).1]
  simp [DateValue.Readable]

theorem decoded_timestamp_iff (hlib : lib.ReadsDates) (day : PgDay) (clock : PgClock) :
  (DateValue.timestamp day clock).Decoded lib ↔ (DateValue.timestamp day clock).Readable lib
  := by
  simp only [DateValue.Decoded, DateValue.instant, pgDecodeType_oid, DateValue.text,
    decodeTimestamp_clock day hlib clock day.era_head]
  rw [PgDay.read_iff fun hera =>
    (day.lt_mktime_written hlib hera clock.hour_mem clock.minute_mem clock.second_mem).1]
  simp [DateValue.Readable]

/-- When a timestamp with a time zone is decoded. -/
theorem decoded_timestamptz_iff (hlib : lib.ReadsDates) (day : PgDay) (clock : PgClock)
    (zone : PgZone) :
  (DateValue.timestamptz day clock zone).Decoded lib
    ↔ (DateValue.timestamptz day clock zone).Readable lib
  := by
  simp only [DateValue.Decoded, DateValue.instant, pgDecodeType_oid, DateValue.text,
    decodeTimestamp_clock day hlib clock (zone.text_head day.era)]
  have hlater : day.year ≤ 0 →
      (day.civil clock.hour clock.minute clock.second).utcSeconds - zone.offset
        < lib.mktime (day.written clock.hour clock.minute clock.second) := by
    intro hera
    have hlt := day.lt_mktime_written hlib hera clock.hour_mem clock.minute_mem clock.second_mem
    have hoffset := zone.offset_mem
    omega
  have hlocal : lib.mktime (day.civil clock.hour clock.minute clock.second)
        = (day.civil clock.hour clock.minute clock.second).utcSeconds - zone.offset
      ↔ zone.offset = lib.localOffset (day.civil clock.hour clock.minute clock.second) := by
    rw [CLibrary.localOffset]
    constructor <;> intro h <;> omega
  rw [PgDay.read_iff hlater, hlocal, DateValue.Readable]

end Values

/-- **Dates and timestamps of PostgreSQL.**  `pg_decode` finds what it looks for and makes a
timestamp of the instant exactly if the value is finite, its year is not before the year 1, it has
no fraction of a second, its time zone is as far from universal time as local time is, and it is
not the second before the epoch. -/
theorem decoded_iff {lib : CLibrary} (hlib : lib.ReadsDates) (v : DateValue) :
  v.Decoded lib ↔ v.Readable lib
  := by
  cases v with
  | infinity type negative =>
      have hnone := @decodeTimestamp_infinity lib type negative
      simp [DateValue.Decoded, DateValue.instant, DateValue.Readable, pgDecodeType_oid, hnone]
  | date day => exact decoded_date_iff hlib day
  | timestamp day clock => exact decoded_timestamp_iff hlib day clock
  | timestamptz day clock zone => exact decoded_timestamptz_iff hlib day clock zone

/-! ### A day in universal time -/

theorem readsDates_universalTime :
  universalTime.ReadsDates
  where
  seconds := by
    intro n t f rest _ ht _ _ hrest
    rw [encodeUtf8_append]
    apply signedValue_of_decimal ht
    intro b hb
    cases f with
    | nil =>
        cases rest with
        | nil => cases hb
        | cons c rest =>
            obtain rfl | rfl | rfl := hrest c rfl
            all_goals
              obtain rfl := Option.some.inj hb
              decide
    | cons c f =>
        obtain rfl := Option.some.inj hb
        decide
  mktime_near := by
    intro c _
    simp [universalTime, zoneLibrary]

/-- 29 February 2024. -/
def leapPgDay : PgDay where
  year := 2024
  month := 2
  day := 29
  year_mem := by decide
  month_mem := by decide
  day_mem := by decide

/-- Half past noon, and a fraction of a second. -/
def halfPastNoon (fraction : Text) (hdigits : ∀ c ∈ fraction, c.isDigit = true)
    (hlength : fraction.length ≤ 6) : PgClock where
  hour := 12
  minute := 30
  second := 0
  fraction := fraction
  hour_mem := by decide
  minute_mem := by decide
  second_mem := by decide
  fraction_digits := hdigits
  fraction_length := hlength

/-- A time zone that is ahead of universal time, or universal time itself. -/
def aheadZone (hours minutes : ℕ) (hhours : hours < 100) (hminutes : minutes < 60) : PgZone where
  behind := false
  hours := hours
  minutes := minutes
  seconds := 0
  hours_lt := hhours
  minutes_lt := hminutes
  seconds_lt := by decide

/-- `2024-02-29 12:30:00+00` is decoded where local time is universal time. -/
theorem decoded_leapPgDay :
  (DateValue.timestamptz leapPgDay (halfPastNoon [] (by simp) (by decide))
    (aheadZone 0 0 (by decide) (by decide))).Decoded universalTime.toCLibrary
  := by
  apply (decoded_iff readsDates_universalTime _).mpr
  exact ⟨by decide, by decide, by decide, by decide⟩

/-- An infinite value is not decoded, the fraction of a second is lost, and so is the time zone. -/
theorem date_style_lost :
  (∃ v : DateValue, v.text = "infinity".toList ∧ v.type = .timestamp
      ∧ ¬ v.Decoded universalTime.toCLibrary)
    ∧ (∃ v : DateValue, v.text = "2024-02-29 12:30:00.5".toList ∧ v.type = .timestamp
      ∧ ¬ v.Decoded universalTime.toCLibrary)
    ∧ ∃ v : DateValue, v.text = "2024-02-29 12:30:00+05:30".toList ∧ v.type = .timestamptz
      ∧ ¬ v.Decoded universalTime.toCLibrary
  := by
  refine ⟨⟨.infinity .timestamp false, rfl, rfl, ?_⟩,
    ⟨.timestamp leapPgDay (halfPastNoon ['5'] (by simp) (by decide)), by decide, rfl, ?_⟩,
    .timestamptz leapPgDay (halfPastNoon [] (by simp) (by decide))
      (aheadZone 5 30 (by decide) (by decide)), by decide, rfl, ?_⟩
  · intro h
    apply h ((pgDecodeType_oid _ _).trans (decodeTimestamp_infinity .timestamp false))
  · rw [decoded_timestamp_iff readsDates_universalTime]
    rintro ⟨-, hmicros, -⟩
    revert hmicros
    decide
  · rw [decoded_timestamptz_iff readsDates_universalTime]
    rintro ⟨-, -, -, hoffset⟩
    revert hoffset
    decide

end Gusher
