import Gusher.Scheme.Calendar
import Gusher.Scheme.Timestamp

/-!
# Times with a time zone

`time_decode` reads a date and a time as local time, whatever the time zone that is written after
them, and corrects the epoch by how far local time is ahead of universal time, and by the hours of
the time zone.  It never reads the minutes of the time zone; and where `mktime` had to move the
time, as local time skips it, the correction is that of the time it was moved to.
-/

namespace Gusher

open CString

/-- `tm_gmtoff` is how far local time is ahead of universal time. -/
structure CLibrary.TellsOffset (lib : CLibrary) : Prop where
  utcSeconds : ∀ e, (lib.localtime e).1.utcSeconds = e + (lib.localtime e).2

/-- By how many seconds `mktime` moves a local time when it normalises it. -/
def CLibrary.moved (lib : CLibrary) (c : Civil) : ℤ :=
  (lib.localtime (lib.mktime c)).1.utcSeconds - c.utcSeconds

/-- A date and a time with a fraction of a second, and how far the time zone is ahead of universal
time, or behind it. -/
structure ZonedTime where
  civil : Civil
  valid : civil.Valid
  year : 0 ≤ civil.year ∧ civil.year ≤ 9999
  fraction : Text
  fraction_ne_nil : fraction ≠ []
  fraction_digits : ∀ c ∈ fraction, c.isDigit = true
  behind : Bool
  hours : ℕ
  hours_lt : hours < 100
  minutes : ℕ
  minutes_lt : minutes < 100

namespace ZonedTime

variable (z : ZonedTime)

/-- The text, `YYYY-MM-DDThh:mm:ss.f+HH:MM` or the same with a minus sign. -/
def text : Text :=
  yearText z.civil.year ++ '-' :: (twoDigits z.civil.month ++ '-' :: (twoDigits z.civil.day
    ++ 'T' :: (twoDigits z.civil.hour ++ ':' :: (twoDigits z.civil.minute
    ++ ':' :: (twoDigits z.civil.second ++ '.' :: (z.fraction
    ++ (if z.behind then '-' else '+') :: (twoDigits z.hours ++ ':' :: twoDigits z.minutes)))))))

/-- A number with the sign of the time zone. -/
def signed (n : ℕ) : ℤ := if z.behind then -n else n

/-- The instant that the text denotes, in seconds after the epoch. -/
def instant : ℤ := z.civil.utcSeconds - (z.signed z.hours * 3600 + z.signed z.minutes * 60)

end ZonedTime

/-! ### Digits -/

theorem isDecimal_eq (b : UInt8) :
  isDecimal b = isdigit b
  := by
  simp [isDecimal, isdigit]

/-- So many digits. -/
structure DigitField (k : ℕ) (s : List UInt8) : Prop where
  length : s.length = k
  decimal : ∀ b ∈ s, isDecimal b = true

/-- Digits are written in decimal bytes, one for each. -/
theorem digitField_encodeUtf8 {t : Text} (h : ∀ c ∈ t, c.isDigit = true) :
  DigitField t.length (encodeUtf8 t)
  := by
  induction t with
  | nil => exact ⟨rfl, by simp [encodeUtf8]⟩
  | cons c t ih =>
      obtain ⟨hbytes, hdigit, -⟩ := utf8EncodeChar_of_digit (h c List.mem_cons_self)
      obtain ⟨hlen, hdigits⟩ := ih (fun d hd => h d (List.mem_cons_of_mem c hd))
      have hcons : encodeUtf8 (c :: t) = c.toNat.toUInt8 :: encodeUtf8 t := by
        rw [encodeUtf8_cons, hbytes, List.singleton_append]
      rw [hcons]
      constructor
      · rw [List.length_cons, List.length_cons, hlen]
      · rw [List.forall_mem_cons, isDecimal_eq]
        exact ⟨hdigit, hdigits⟩

/-- When a number is written with so many digits, or fewer. -/
theorem length_numberText_le_iff {z : ℤ} (hz : 0 ≤ z) {k : ℕ} (hk : 0 < k) :
  (numberText z).length ≤ k ↔ z.natAbs < 10 ^ k
  := by
  rw [numberText, if_neg (by omega)]
  exact Nat.length_toDigits_le_iff (by decide) hk

/-- Numbers of one or two digits are written with two. -/
theorem length_twoDigits {n : ℤ} (hlow : 0 ≤ n) (hhigh : n < 100) :
  (twoDigits n).length = 2
  := by
  have hpos : 0 < (numberText n).length :=
    List.length_pos_of_ne_nil (decimal_numberText hlow).ne_nil
  have hone := length_numberText_le_iff hlow (k := 1) (by decide)
  have htwo := length_numberText_le_iff hlow (k := 2) (by decide)
  unfold twoDigits
  split
  case isTrue h =>
      have hle := hone.mpr (by omega)
      rw [List.length_cons]
      omega
  case isFalse h =>
      have hle := htwo.mpr (by omega)
      have hgt : ¬ (numberText n).length ≤ 1 := fun hle => absurd (hone.mp hle) (by omega)
      omega

theorem length_yearText {year : ℤ} (hlow : 0 ≤ year) (hhigh : year ≤ 9999) :
  (yearText year).length = 4
  := by
  have hle := (length_numberText_le_iff hlow (k := 4) (by decide)).mpr (by omega)
  rw [yearText, List.length_append, List.length_replicate]
  omega

/-! ### The parts of the text -/

/-- Digits match the digits of a pattern. -/
theorem matchDate_digits {k : ℕ} {s : List UInt8} (h : DigitField k s)
    (pattern rest : List UInt8) :
  matchDate (List.replicate k 0 ++ pattern) (s ++ rest) = matchDate pattern rest
  := by
  obtain ⟨rfl, hdecimal⟩ := h
  induction s with
  | nil => rfl
  | cons b s ih =>
      rw [List.length_cons, List.replicate_succ, List.cons_append, List.cons_append, matchDate,
        if_pos rfl, if_pos (hdecimal b List.mem_cons_self)]
      exact ih (fun c hc => hdecimal c (List.mem_cons_of_mem b hc))

theorem matchDate_separator {b : UInt8} (h : b ≠ 0) (pattern rest : List UInt8) :
  matchDate (b :: pattern) (b :: rest) = matchDate pattern rest
  := by
  rw [matchDate, if_neg h, if_pos (decide_eq_true rfl)]

theorem isSign_of_isDecimal {b : UInt8} (h : isDecimal b = true) :
  isSign b = false
  := by
  revert b
  apply forall_byte
  decide +kernel

/-- The time zone is found after bytes that are no signs. -/
theorem matchZone_append {s digits : List UInt8} {sign : UInt8} (hs : s ≠ [])
    (hplain : ∀ b ∈ s, isSign b = false) (hsign : isSign sign = true)
    (hdigits : DigitField 2 digits) (rest : List UInt8) :
  matchZone (s ++ sign :: (digits ++ rest)) = some (sign :: (digits ++ rest))
  := by
  have hnot : ∀ b ∈ s, (!isSign b) = true := by
    intro b hb
    rw [hplain b hb]
    rfl
  have htake : (s ++ sign :: (digits ++ rest)).takeWhile (fun b => !isSign b) = s := by
    rw [List.takeWhile_append_of_pos hnot, List.takeWhile_cons_of_neg (by simp [hsign]),
      List.append_nil]
  have hdrop : (s ++ sign :: (digits ++ rest)).dropWhile (fun b => !isSign b)
      = sign :: (digits ++ rest) := by
    rw [List.dropWhile_append_of_pos hnot, List.dropWhile_cons_of_neg (by simp [hsign])]
  obtain ⟨d, d', rfl⟩ := List.length_eq_two.mp hdigits.length
  rw [matchZone, htake, if_neg hs, hdrop]
  exact if_pos ⟨hdigits.decimal d (by simp), hdigits.decimal d' (by simp)⟩

/-- What `time_decode` reads of the parts of a text. -/
theorem timeDecode_parts (lib : TimeLibrary)
    {year month day hour minute second rest zone : List UInt8} (hyear : DigitField 4 year)
    (hmonth : DigitField 2 month) (hday : DigitField 2 day) (hhour : DigitField 2 hour)
    (hminute : DigitField 2 minute) (hsecond : DigitField 2 second)
    (hzone : matchZone rest = some zone) :
  timeDecode lib (year ++ 45 :: (month ++ 45 :: (day ++ 84 :: (hour ++ 58 :: (minute ++ 58 ::
      (second ++ rest))))))
    = let epoch := lib.mktime ⟨atoi year, atoi month, atoi day, atoi hour, atoi minute,
        atoi second⟩
      lib.at (epoch + ((lib.localtime epoch).2 - Int.bmod (atoi zone * 3600) (2 ^ 32))) 0
  := by
  have hmatch : matchDate datePattern (year ++ 45 :: (month ++ 45 :: (day ++ 84 :: (hour ++ 58 ::
      (minute ++ 58 :: (second ++ rest)))))) = some rest := by
    have hpattern : datePattern = List.replicate 4 0 ++ 45 :: (List.replicate 2 0 ++ 45 ::
        (List.replicate 2 0 ++ 84 :: (List.replicate 2 0 ++ 58 :: (List.replicate 2 0 ++ 58 ::
          (List.replicate 2 0 ++ []))))) := rfl
    rw [hpattern, matchDate_digits hyear, matchDate_separator (by decide),
      matchDate_digits hmonth, matchDate_separator (by decide), matchDate_digits hday,
      matchDate_separator (by decide), matchDate_digits hhour, matchDate_separator (by decide),
      matchDate_digits hminute, matchDate_separator (by decide), matchDate_digits hsecond]
    rfl
  -- with the digits one by one, every field is where it is looked for
  obtain ⟨y, y₁, y₂, y₃, rfl⟩ : ∃ y y₁ y₂ y₃, year = [y, y₁, y₂, y₃] := by
    match year, hyear.length with
    | [y, y₁, y₂, y₃], _ => exact ⟨y, y₁, y₂, y₃, rfl⟩
  obtain ⟨mo, mo', rfl⟩ := List.length_eq_two.mp hmonth.length
  obtain ⟨d, d', rfl⟩ := List.length_eq_two.mp hday.length
  obtain ⟨h, h', rfl⟩ := List.length_eq_two.mp hhour.length
  obtain ⟨mi, mi', rfl⟩ := List.length_eq_two.mp hminute.length
  obtain ⟨s, s', rfl⟩ := List.length_eq_two.mp hsecond.length
  simp only [List.cons_append, List.nil_append] at hmatch ⊢
  rw [timeDecode, timePat1, hmatch, Option.bind_some, hzone]
  rfl

/-! ### The text as a whole -/

/-- `atoi` of a number with a sign before it. -/
theorem atoi_sign {n : ℕ} {t : Text} (h : Decimal n t) (hn : n < 2 ^ 31) (behind : Bool)
    {rest : List UInt8} (hrest : ∀ b ∈ rest.head?, isdigit b = false) :
  atoi ((if behind then 45 else 43) :: (encodeUtf8 t ++ rest)) = if behind then -(n : ℤ) else n
  := by
  have hvalue := digitsValue_encodeUtf8 h.digits 0 hrest
  rw [h.value] at hvalue
  cases behind with
  | false =>
      have hsigned : signedValue (43 :: (encodeUtf8 t ++ rest)) = n := by
        rw [signedValue, List.dropWhile_cons_of_neg (by decide)]
        simp [hvalue]
      have hclamp : max (-2 ^ 63) (min (n : ℤ) (2 ^ 63 - 1)) = n := by omega
      simp only [Bool.false_eq_true, if_false, atoi, hsigned, hclamp]
      exact bmod_eq_self (by omega) (by omega)
  | true =>
      have hsigned : signedValue (45 :: (encodeUtf8 t ++ rest)) = -n := by
        rw [signedValue, List.dropWhile_cons_of_neg (by decide)]
        simp [hvalue]
      have hclamp : max (-2 ^ 63) (min (-(n : ℤ)) (2 ^ 63 - 1)) = -n := by omega
      simp only [if_true, atoi, hsigned, hclamp]
      exact bmod_eq_self (by omega) (by omega)

/-- `atoi` of a decimal number. -/
theorem atoi_digits {z : ℤ} {t : Text} (hz : 0 ≤ z) (h : Decimal z.natAbs t) (hhigh : z < 2 ^ 31) :
  atoi (encodeUtf8 t) = z
  := by
  have hatoi := @atoi_of_decimal _ _ h (by omega) [] (by simp)
  rw [List.append_nil] at hatoi
  omega

/-- A number of two digits as bytes, which are read back. -/
theorem digitField_twoDigits {n : ℤ} (hlow : 0 ≤ n) (hhigh : n < 100) :
  DigitField 2 (encodeUtf8 (twoDigits n)) ∧ atoi (encodeUtf8 (twoDigits n)) = n
  := by
  have hdecimal := decimal_twoDigits hlow
  have hfield := digitField_encodeUtf8 hdecimal.digits
  rw [length_twoDigits hlow hhigh] at hfield
  exact ⟨hfield, atoi_digits hlow hdecimal (by omega)⟩

theorem digitField_yearText {year : ℤ} (hlow : 0 ≤ year) (hhigh : year ≤ 9999) :
  DigitField 4 (encodeUtf8 (yearText year)) ∧ atoi (encodeUtf8 (yearText year)) = year
  := by
  have hdecimal := decimal_yearText hlow
  have hfield := digitField_encodeUtf8 hdecimal.digits
  rw [length_yearText hlow hhigh] at hfield
  exact ⟨hfield, atoi_digits hlow hdecimal (by omega)⟩

theorem atoi_zone (z : ZonedTime) :
  atoi ((if z.behind then 45 else 43) :: (encodeUtf8 (twoDigits z.hours)
      ++ 58 :: encodeUtf8 (twoDigits z.minutes))) = z.signed z.hours
  := by
  have hdecimal : Decimal z.hours (twoDigits z.hours) := decimal_twoDigits (Int.natCast_nonneg _)
  have hhours := z.hours_lt
  rw [atoi_sign hdecimal (by omega) z.behind (by simp [isdigit])]
  rfl

/-- `time_decode` reads the date, the time and the hours of the time zone. -/
theorem timeDecode_text (lib : TimeLibrary) (z : ZonedTime) :
  timeDecode lib (encodeUtf8 z.text)
    = lib.at (lib.mktime z.civil
        + ((lib.localtime (lib.mktime z.civil)).2 - z.signed z.hours * 3600)) 0
  := by
  obtain ⟨hmonth, hday, hhour, hminute, hsecond⟩ := z.valid
  have hdays := (daysInMonth_mem z.civil.year z.civil.month).2
  have hhours := z.hours_lt
  obtain ⟨hfieldYear, hatoiYear⟩ := digitField_yearText z.year.1 z.year.2
  obtain ⟨hfieldMonth, hatoiMonth⟩ :=
    digitField_twoDigits (n := z.civil.month) (by omega) (by omega)
  obtain ⟨hfieldDay, hatoiDay⟩ := digitField_twoDigits (n := z.civil.day) (by omega) (by omega)
  obtain ⟨hfieldHour, hatoiHour⟩ := digitField_twoDigits (n := z.civil.hour) (by omega) (by omega)
  obtain ⟨hfieldMinute, hatoiMinute⟩ :=
    digitField_twoDigits (n := z.civil.minute) (by omega) (by omega)
  obtain ⟨hfieldSecond, hatoiSecond⟩ :=
    digitField_twoDigits (n := z.civil.second) (by omega) (by omega)
  obtain ⟨hfieldHours, -⟩ := digitField_twoDigits (n := (z.hours : ℤ)) (by omega) (by omega)
  have hzone : matchZone (46 :: encodeUtf8 z.fraction ++ (if z.behind then 45 else 43)
      :: (encodeUtf8 (twoDigits z.hours) ++ 58 :: encodeUtf8 (twoDigits z.minutes)))
      = some ((if z.behind then 45 else 43)
        :: (encodeUtf8 (twoDigits z.hours) ++ 58 :: encodeUtf8 (twoDigits z.minutes))) := by
    apply matchZone_append (List.cons_ne_nil _ _)
    · rw [List.forall_mem_cons]
      exact ⟨by decide, fun b hb =>
        isSign_of_isDecimal ((digitField_encodeUtf8 z.fraction_digits).decimal b hb)⟩
    · cases z.behind <;> decide
    · apply hfieldHours
  have hbytes : encodeUtf8 z.text
      = encodeUtf8 (yearText z.civil.year) ++ 45 :: (encodeUtf8 (twoDigits z.civil.month)
        ++ 45 :: (encodeUtf8 (twoDigits z.civil.day) ++ 84 :: (encodeUtf8 (twoDigits z.civil.hour)
        ++ 58 :: (encodeUtf8 (twoDigits z.civil.minute) ++ 58 ::
          (encodeUtf8 (twoDigits z.civil.second) ++ (46 :: encodeUtf8 z.fraction
            ++ (if z.behind then 45 else 43) :: (encodeUtf8 (twoDigits z.hours)
              ++ 58 :: encodeUtf8 (twoDigits z.minutes)))))))) := by
    simp only [ZonedTime.text, encodeUtf8_append, encodeUtf8_cons]
    cases z.behind <;> rfl
  have hbmod : Int.bmod (z.signed z.hours * 3600) (2 ^ 32) = z.signed z.hours * 3600 := by
    have hbounds : -100 < z.signed z.hours ∧ z.signed z.hours < 100 := by
      unfold ZonedTime.signed
      split <;> omega
    exact bmod_eq_self (by omega) (by omega)
  rw [hbytes, timeDecode_parts lib hfieldYear hfieldMonth hfieldDay hfieldHour hfieldMinute
    hfieldSecond hzone, hatoiYear, hatoiMonth, hatoiDay, hatoiHour, hatoiMinute, hatoiSecond,
    atoi_zone, hbmod]

/-! ### The instant -/

theorem epoch_timeDecode_sub {lib : TimeLibrary} (hlib : lib.TellsOffset) (z : ZonedTime) :
  (timeDecode lib (encodeUtf8 z.text)).epoch - z.instant
    = lib.moved z.civil + z.signed z.minutes * 60
  := by
  have hoffset := hlib.utcSeconds (lib.mktime z.civil)
  rw [timeDecode_text, CLibrary.moved, ZonedTime.instant, hoffset]
  simp only [CLibrary.at]
  ring

theorem CLibrary.moved_of_occurs {lib : CLibrary} {c : Civil} (h : lib.Occurs c) :
  lib.moved c = 0
  := by
  rw [CLibrary.Occurs] at h
  rw [CLibrary.moved, h, sub_self]

/-- Of a time that occurs as a local time, only the minutes of the time zone matter. -/
theorem timeDecode_epoch_of_occurs {lib : TimeLibrary} (hlib : lib.TellsOffset) {z : ZonedTime}
    (hoccurs : lib.Occurs z.civil) :
  (timeDecode lib (encodeUtf8 z.text)).epoch = z.instant ↔ z.minutes = 0
  := by
  have hsub := epoch_timeDecode_sub hlib z
  have hzero : z.signed z.minutes = 0 ↔ z.minutes = 0 := by
    unfold ZonedTime.signed
    split <;> omega
  rw [CLibrary.moved_of_occurs hoccurs] at hsub
  rw [← hzero]
  constructor
  all_goals
    intro h
    omega

/-- **Times with a time zone.**  The epoch is that of the instant which the text denotes exactly if
the seconds by which `mktime` moves the local time make up for the minutes of the time zone. -/
theorem timeDecode_epoch_iff {lib : TimeLibrary} (hlib : lib.TellsOffset) (z : ZonedTime) :
  (timeDecode lib (encodeUtf8 z.text)).epoch = z.instant
    ↔ lib.moved z.civil = -(z.signed z.minutes * 60)
  := by
  have hsub := epoch_timeDecode_sub hlib z
  constructor
  all_goals
    intro h
    omega

/-! ### Two time zones -/

/-- A library for a local time that is ahead of universal time by a number of seconds which depends
on the instant. -/
def zoneLibrary (offset : ℤ → ℤ) (mktime : Civil → ℤ) : TimeLibrary where
  localtime e := (utcCivil (e + offset e), offset e)
  mktime := mktime
  seconds s := (signedValue s, 0)
  real s := numberText (signedValue s)
  getdate _ := -1
  clock := (0, 0)

theorem tellsOffset_zoneLibrary (offset : ℤ → ℤ) (mktime : Civil → ℤ) :
  (zoneLibrary offset mktime).TellsOffset
  := ⟨fun e => (utcCivil_spec (e + offset e)).2⟩

def universalTime : TimeLibrary := zoneLibrary (fun _ => 0) Civil.utcSeconds

/-- The last hour before summer time begins in central Europe in 2024, and the summer: the hour from
two to three in the morning of 31 March is skipped. -/
def centralEurope : TimeLibrary :=
  zoneLibrary (fun e => if e < 1711846800 then 3600 else 7200)
    (fun c => if c.utcSeconds - 3600 < 1711846800 then c.utcSeconds - 3600
      else c.utcSeconds - 7200)

/-- Half past noon on 29 February 2024, three hours behind universal time. -/
def leapDay : ZonedTime where
  civil := ⟨2024, 2, 29, 12, 30, 0⟩
  valid := by decide
  year := by decide
  fraction := "25".toList
  fraction_ne_nil := by decide
  fraction_digits := List.all_eq_true.mp (by decide)
  behind := true
  hours := 3
  hours_lt := by decide
  minutes := 0
  minutes_lt := by decide

/-- The instant is found. -/
theorem timeDecode_epoch_leapDay :
  (timeDecode universalTime (encodeUtf8 leapDay.text)).epoch = leapDay.instant
  := by
  apply (timeDecode_epoch_iff (tellsOffset_zoneLibrary _ _) leapDay).mpr
  have hutc := (utcCivil_spec (leapDay.civil.utcSeconds + 0)).2
  rw [CLibrary.moved]
  simp only [zoneLibrary, hutc]
  decide

def newYear : ZonedTime where
  civil := ⟨2024, 1, 1, 0, 0, 0⟩
  valid := by decide
  year := by decide
  fraction := "0".toList
  fraction_ne_nil := by decide
  fraction_digits := List.all_eq_true.mp (by decide)
  behind := false
  hours := 5
  hours_lt := by decide
  minutes := 30
  minutes_lt := by decide

/-- A time in universal time that is skipped in central Europe. -/
def skippedTime : ZonedTime where
  civil := ⟨2024, 3, 31, 2, 30, 0⟩
  valid := by decide
  year := by decide
  fraction := "0".toList
  fraction_ne_nil := by decide
  fraction_digits := List.all_eq_true.mp (by decide)
  behind := false
  hours := 0
  hours_lt := by decide
  minutes := 0
  minutes_lt := by decide

/-- The minutes of a time zone are lost, and a time that local time skips is an hour off. -/
theorem zoned_time_wrong :
  (newYear.text = "2024-01-01T00:00:00.0+05:30".toList ∧ universalTime.TellsOffset
      ∧ (timeDecode universalTime (encodeUtf8 newYear.text)).epoch = newYear.instant + 1800)
    ∧ (skippedTime.text = "2024-03-31T02:30:00.0+00:00".toList ∧ centralEurope.TellsOffset
      ∧ (timeDecode centralEurope (encodeUtf8 skippedTime.text)).epoch
        = skippedTime.instant - 3600)
  := by
  refine ⟨⟨by decide, tellsOffset_zoneLibrary _ _, ?_⟩, by decide, tellsOffset_zoneLibrary _ _, ?_⟩
  · rw [timeDecode_text]
    decide
  · rw [timeDecode_text]
    decide

end Gusher
