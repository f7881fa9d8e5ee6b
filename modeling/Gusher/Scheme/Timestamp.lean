import Gusher.Library.Conversion
import Gusher.Scheme.Time
import Mathlib.Tactic.Ring

/-!
# The constructors of timestamps

The functions that make a timestamp split a number of seconds into whole seconds and microseconds,
each in its own way.  Seconds are rational numbers, and the arithmetic on them is exact.  The
timestamp that is made is normalised, and as near to the requested instant as the microseconds
allow, exactly if the seconds are in a range that each function has for itself (`timestamp_iff`).
-/

namespace Gusher

open Conversion

/-- The functions of the C library, and those that `time_decode` and `now_time` call. -/
structure TimeLibrary extends CLibrary where
  /-- `curl_getdate` -/
  getdate : List UInt8 → ℤ
  /-- the seconds and the microseconds that `gettimeofday` gives -/
  clock : ℤ × ℤ

/-- `(int)x` -/
def toInt (x : ℚ) : ℤ := cast (2 ^ 31) x

/-- `(time_t)x` -/
def toTime (x : ℚ) : ℤ := cast (2 ^ 63) x

def GTime.epochSec (t : GTime) : ℚ := t.epoch + t.usec / 1000000

/-! ### The constructors -/

section Constructors

variable (lib : CLibrary)

/-- `local_time`; the whole seconds and the microseconds are those of `local_time_intern`. -/
def localTime (year month day hour minute : ℤ) (second : ℚ) : Scm :=
  lib.localTimeIntern year month day hour minute
    (toInt second, toInt ((second - toInt second) * 1000000 + 1 / 2))

def timeAt (epoch : ℚ) : GTime :=
  let ep := toInt ⌊epoch⌋
  let usec := toInt ((epoch - ep) * 1000000 + 1 / 2)
  if usec ≥ 1000000 then lib.at (ep + 1) (usec - 1000000)
  else lib.at ep usec

def timeAdd (time : GTime) (sec : ℚ) : GTime :=
  let dtime := time.epochSec + sec
  let ntime := toTime ⌊dtime⌋
  let usec := toInt ((dtime - ntime) * 1000000 + 1 / 2)
  if usec ≥ 1000000 then lib.at (Int.bmod (ntime + 1) (2 ^ 64)) (usec - 1000000)
  else lib.at ntime usec

/-- A byte is a decimal digit. -/
def isDecimal (b : UInt8) : Bool := 48 ≤ b ∧ b ≤ 57

/-- A byte of `[+\-]`; in brackets the backslash stands for itself. -/
def isSign (b : UInt8) : Bool := b = 43 ∨ b = 92 ∨ b = 45

/-- A text begins with the digits and the separators of a date and time: zero stands for a digit,
and another byte for itself. -/
def matchDate : List UInt8 → List UInt8 → Option (List UInt8)
  | [], s => some s
  | _ :: _, [] => none
  | p :: pattern, b :: s =>
      if (if p = 0 then isDecimal b else b = p) then matchDate pattern s else none

/-- The digits and the separators of `time_pat1`, up to the seconds. -/
def datePattern : List UInt8 :=
  [0, 0, 0, 0, 45, 0, 0, 45, 0, 0, 84, 0, 0, 58, 0, 0, 58, 0, 0]

/-- What `time_pat1` looks for after the seconds: some bytes that are no signs, and a sign with two
digits.  The result begins with the sign. -/
def matchZone (s : List UInt8) : Option (List UInt8) :=
  if s.takeWhile (fun b => !isSign b) = [] then none
  else
    match s.dropWhile (fun b => !isSign b) with
    | sign :: d :: d' :: rest =>
        if isDecimal d ∧ isDecimal d' then some (sign :: d :: d' :: rest) else none
    | _ => none

/-- The leftmost match of `time_pat1`: where it begins, and the text from the time zone on. -/
def timePat1 : List UInt8 → Option (ℕ × List UInt8)
  | [] => none
  | b :: s =>
      match (matchDate datePattern (b :: s)).bind matchZone with
      | some zone => some (0, zone)
      | none => (timePat1 s).map fun found => (found.1 + 1, found.2)

/-- `time_decode`; the year is read from the beginning of the text, and the time zone up to its
end. -/
def timeDecode (lib : TimeLibrary) (str : List UInt8) : GTime :=
  match timePat1 str with
  | some (start, zone) =>
      let field (n : ℕ) : ℤ := atoi ((str.drop (start + n)).take 2)
      let epoch := lib.mktime ⟨atoi (str.take (start + 4)), field 5, field 8, field 11, field 14,
        field 17⟩
      lib.at (epoch + ((lib.localtime epoch).2 - Int.bmod (atoi zone * 3600) (2 ^ 32))) 0
  | none => lib.at (lib.getdate str) 0

def nowTime (lib : TimeLibrary) : GTime :=
  lib.at lib.clock.1 lib.clock.2

end Constructors

/-- A call of a constructor.  The integers are those of C, and the string is the one that
`scm_to_locale_string` gives. -/
inductive TimeCall where
  /-- `time-local` -/
  | ofLocal (year month day hour minute : ℤ) (second : ℚ)
  /-- `time-at` -/
  | ofEpoch (epoch : ℚ)
  /-- `time-add` -/
  | ofSum (time : GTime) (sec : ℚ)
  /-- `time-decode` -/
  | ofText (str : List UInt8)
  /-- `time-now` -/
  | ofClock

namespace TimeCall

variable (lib : TimeLibrary)

/-- What the call returns. -/
def result : TimeCall → Scm
  | .ofLocal year month day hour minute second =>
      localTime lib.toCLibrary year month day hour minute second
  | .ofEpoch epoch => .time (timeAt lib.toCLibrary epoch)
  | .ofSum time sec => .time (timeAdd lib.toCLibrary time sec)
  | .ofText str => .time (timeDecode lib str)
  | .ofClock => .time (nowTime lib)

end TimeCall

/-- A local time occurs, and `mktime` finds it. -/
def CLibrary.Occurs (lib : CLibrary) (c : Civil) : Prop :=
  (lib.localtime (lib.mktime c)).1 = c

/-- The microseconds of a timestamp are less than a second, and its local time is the one of its
epoch. -/
structure CLibrary.Normalised (lib : CLibrary) (t : GTime) : Prop where
  nonneg : 0 ≤ t.usec
  lt : t.usec < 1000000
  eq : t = lib.at t.epoch t.usec

/-- A timestamp is within half a microsecond of an instant. -/
def GTime.Near (t : GTime) (instant : ℚ) : Prop :=
  |t.epochSec - instant| ≤ 1 / 2000000

namespace TimeCall

variable (lib : TimeLibrary)

/-- A timestamp is within half a microsecond of the instant that is requested, when there is one:
the epoch of `time-at`, or the local time of `time-local` with its whole seconds, and the rest of
the seconds after it. -/
def Requested (t : GTime) : TimeCall → Prop
  | .ofLocal year month day hour minute second =>
      lib.Occurs ⟨year, month, day, hour, minute, truncate second⟩ →
        t.Near (lib.mktime ⟨year, month, day, hour, minute, truncate second⟩
          + (second - truncate second))
  | .ofEpoch epoch => t.Near epoch
  | _ => True

def InRange : TimeCall → Prop
  | .ofLocal year month day hour minute second =>
      lib.mktime ⟨year, month, day, hour, minute, toInt second⟩ = -1
        ∨ (-2 ^ 31 - 1 < second ∧ second < 2 ^ 31
          ∧ -(3 / 2000000) < second - truncate second
          ∧ (lib.Occurs ⟨year, month, day, hour, minute, truncate second⟩ →
              -(1 / 2000000) ≤ second - truncate second))
  | .ofEpoch epoch => -2 ^ 31 - 1 / 2000000 ≤ epoch ∧ epoch < 2 ^ 31
  | .ofSum time sec =>
      -2 ^ 63 - 3 / 2000000 < time.epochSec + sec ∧ time.epochSec + sec < 2 ^ 63
  | .ofText _ | .ofClock => True

end TimeCall

/-! ### Rounding to microseconds -/

/-- When the rounded microseconds of a number of seconds are less than two seconds. -/
theorem usec_mem_iff {r : ℚ} :
  0 ≤ toInt (r * 1000000 + 1 / 2) ∧ toInt (r * 1000000 + 1 / 2) < 2000000
    ↔ -(3 / 2000000) < r ∧ r < 2 - 1 / 2000000
  := by
  rw [toInt, cast_mem_iff (by norm_num) (by norm_num) (by norm_num)]
  push_cast
  constructor
  · rintro ⟨hlow, hhigh⟩
    constructor <;> linarith
  · rintro ⟨hlow, hhigh⟩
    constructor <;> linarith

/-- When the rounded microseconds are within half a microsecond of the number of seconds. -/
theorem usec_near_iff {r : ℚ} (hlow : -(3 / 2000000) < r) (hhigh : r < 2 - 1 / 2000000) :
  |(toInt (r * 1000000 + 1 / 2) : ℚ) / 1000000 - r| ≤ 1 / 2000000 ↔ -(1 / 2000000) ≤ r
  := by
  rw [toInt, cast_of_mem (by norm_num) (by push_cast; linarith) (by push_cast; linarith), abs_le]
  rcases lt_or_ge (r * 1000000 + 1 / 2) 0 with hneg | hnonneg
  · -- the microseconds are zero
    have hceil : ⌈r * 1000000 + 1 / 2⌉ = 0 := by
      rw [Int.ceil_eq_zero_iff]
      constructor <;> linarith
    rw [truncate_of_neg hneg, hceil]
    push_cast
    constructor
    · rintro ⟨-, h⟩
      linarith
    · intro h
      linarith
  · rw [truncate_of_nonneg hnonneg]
    have hle := Int.floor_le (r * 1000000 + 1 / 2)
    have hlt := Int.lt_floor_add_one (r * 1000000 + 1 / 2)
    constructor
    · intro _
      linarith
    · intro _
      constructor <;> linarith

section Carry

variable {lib : CLibrary} {epoch next usec : ℤ}

theorem normalised_at_iff :
  lib.Normalised (lib.at epoch usec) ↔ 0 ≤ usec ∧ usec < 1000000
  := ⟨fun h => ⟨h.nonneg, h.lt⟩, fun h => ⟨h.1, h.2, rfl⟩⟩

theorem normalised_carry_iff :
  lib.Normalised (if usec ≥ 1000000 then lib.at next (usec - 1000000) else lib.at epoch usec)
    ↔ 0 ≤ usec ∧ usec < 2000000
  := by
  split
  all_goals
    rw [normalised_at_iff]
    omega

/-- A second that is carried over does not change the instant. -/
theorem epochSec_carry :
  (if usec ≥ 1000000 then lib.at (epoch + 1) (usec - 1000000) else lib.at epoch usec).epochSec
    = epoch + usec / 1000000
  := by
  split
  case isTrue =>
      simp only [GTime.epochSec, CLibrary.at]
      push_cast
      ring
  case isFalse => rfl

end Carry

/-! ### The ranges of the constructors -/

section Ranges

variable {lib : CLibrary}

/-- The whole seconds of `time_at`. -/
theorem toInt_floor (q : ℚ) :
  (-2 ^ 31 ≤ q ∧ q < 2 ^ 31 ∧ 0 ≤ q - toInt ⌊q⌋ ∧ q - toInt ⌊q⌋ < 1)
    ∨ (q < -2 ^ 31 ∧ (toInt ⌊q⌋ : ℚ) = -2 ^ 31) ∨ (2 ^ 31 ≤ q ∧ (toInt ⌊q⌋ : ℚ) = -2 ^ 31)
  := by
  have h := cast_floor (show (0 : ℤ) < 2 ^ 31 by norm_num) q
  simp only [Int.cast_pow, Int.cast_ofNat] at h
  exact h

/-- The whole seconds of `time_add`. -/
theorem toTime_floor (q : ℚ) :
  (-2 ^ 63 ≤ q ∧ q < 2 ^ 63 ∧ 0 ≤ q - toTime ⌊q⌋ ∧ q - toTime ⌊q⌋ < 1)
    ∨ (q < -2 ^ 63 ∧ (toTime ⌊q⌋ : ℚ) = -2 ^ 63) ∨ (2 ^ 63 ≤ q ∧ (toTime ⌊q⌋ : ℚ) = -2 ^ 63)
  := by
  have h := cast_floor (show (0 : ℤ) < 2 ^ 63 by norm_num) q
  simp only [Int.cast_pow, Int.cast_ofNat] at h
  exact h

/-- The whole seconds of `time_local`. -/
theorem toInt_seconds (q : ℚ) :
  (-2 ^ 31 - 1 < q ∧ q < 2 ^ 31 ∧ toInt q = truncate q)
    ∨ (q ≤ -2 ^ 31 - 1 ∧ (toInt q : ℚ) = -2 ^ 31) ∨ (2 ^ 31 ≤ q ∧ (toInt q : ℚ) = -2 ^ 31)
  := by
  rcases le_or_gt q (-2 ^ 31 - 1) with hlow | hlow
  · right; left
    use hlow
    rw [toInt, cast_of_le (by norm_num) (by push_cast; exact hlow)]
    norm_num
  · rcases lt_or_ge q (2 ^ 31) with hhigh | hhigh
    · left
      use hlow, hhigh
      exact cast_of_mem (by norm_num) (by push_cast; exact hlow) (by push_cast; exact hhigh)
    · right; right
      use hhigh
      rw [toInt, cast_of_ge (by norm_num) (by push_cast; exact hhigh)]
      norm_num

/-- When `time-at` makes a normalised timestamp near the epoch. -/
theorem timeAt_iff (epoch : ℚ) :
  lib.Normalised (timeAt lib epoch) ∧ (timeAt lib epoch).Near epoch
    ↔ -2 ^ 31 - 1 / 2000000 ≤ epoch ∧ epoch < 2 ^ 31
  := by
  have hsplit : ∀ usec : ℚ, (toInt ⌊epoch⌋ : ℚ) + usec - epoch
      = usec - (epoch - toInt ⌊epoch⌋) := fun _ => by ring
  rw [GTime.Near, timeAt, normalised_carry_iff, epochSec_carry, usec_mem_iff, hsplit]
  constructor
  · rintro ⟨⟨hlow, hhigh⟩, hnear⟩
    have hnear := (usec_near_iff hlow hhigh).mp hnear
    rcases toInt_floor epoch with ⟨hlow', hhigh', -⟩ | ⟨hlow', hcast⟩ | ⟨hhigh', hcast⟩
    · constructor <;> linarith
    · rw [hcast] at hnear
      constructor <;> linarith
    · rw [hcast] at hhigh
      linarith
  · rintro ⟨hlow, hhigh⟩
    have hrest : -(1 / 2000000) ≤ epoch - toInt ⌊epoch⌋
        ∧ epoch - toInt ⌊epoch⌋ < 2 - 1 / 2000000 := by
      rcases toInt_floor epoch with ⟨-, -, h0, h1⟩ | ⟨hlow', hcast⟩ | ⟨hhigh', hcast⟩
      · constructor <;> linarith
      · rw [hcast]
        constructor <;> linarith
      · linarith
    have hlow' : -(3 / 2000000) < epoch - toInt ⌊epoch⌋ := by linarith [hrest.1]
    exact ⟨⟨hlow', hrest.2⟩, (usec_near_iff hlow' hrest.2).mpr hrest.1⟩

/-- When `time-add` makes a normalised timestamp. -/
theorem timeAdd_iff (time : GTime) (sec : ℚ) :
  lib.Normalised (timeAdd lib time sec)
    ↔ -2 ^ 63 - 3 / 2000000 < time.epochSec + sec ∧ time.epochSec + sec < 2 ^ 63
  := by
  rw [timeAdd, normalised_carry_iff, usec_mem_iff]
  generalize time.epochSec + sec = dtime
  constructor
  · rintro ⟨hlow, hhigh⟩
    rcases toTime_floor dtime with ⟨hlow', hhigh', -⟩ | ⟨hlow', hcast⟩ | ⟨hhigh', hcast⟩
    · constructor <;> linarith
    · rw [hcast] at hlow
      constructor <;> linarith
    · rw [hcast] at hhigh
      linarith
  · rintro ⟨hlow, hhigh⟩
    rcases toTime_floor dtime with ⟨-, -, h0, h1⟩ | ⟨hlow', hcast⟩ | ⟨hhigh', hcast⟩
    · constructor <;> linarith
    · rw [hcast]
      constructor <;> linarith
    · linarith

/-- What `local_time_intern` returns, unless `mktime` gives -1. -/
theorem localTimeIntern_eq {year month day hour minute whole usec : ℤ}
    (h : lib.mktime ⟨year, month, day, hour, minute, whole⟩ ≠ -1) :
  lib.localTimeIntern year month day hour minute (whole, usec)
    = .time (if usec ≥ 1000000 then
        lib.at (lib.mktime ⟨year, month, day, hour, minute, whole⟩ + 1) (usec - 1000000)
      else lib.at (lib.mktime ⟨year, month, day, hour, minute, whole⟩) usec)
  := by
  rw [CLibrary.localTimeIntern, if_neg h]
  split <;> rfl

/-- When `time-local` makes a normalised timestamp, near the instant that is requested if the local
time occurs. -/
theorem localTime_iff (year month day hour minute : ℤ) (second : ℚ) :
  (∀ t, localTime lib year month day hour minute second = .time t →
      lib.Normalised t
        ∧ (lib.Occurs ⟨year, month, day, hour, minute, truncate second⟩ →
            t.Near (lib.mktime ⟨year, month, day, hour, minute, truncate second⟩
              + (second - truncate second))))
    ↔ lib.mktime ⟨year, month, day, hour, minute, toInt second⟩ = -1
      ∨ (-2 ^ 31 - 1 < second ∧ second < 2 ^ 31
        ∧ -(3 / 2000000) < second - truncate second
        ∧ (lib.Occurs ⟨year, month, day, hour, minute, truncate second⟩ →
            -(1 / 2000000) ≤ second - truncate second))
  := by
  rcases eq_or_ne (lib.mktime ⟨year, month, day, hour, minute, toInt second⟩) (-1) with hnone | hsome
  · simp [localTime, CLibrary.localTimeIntern, hnone]
  · simp only [localTime, localTimeIntern_eq hsome, Scm.time.injEq, forall_eq', hsome, false_or]
    rw [GTime.Near, normalised_carry_iff, epochSec_carry, usec_mem_iff]
    have habs := abs_lt.mp (abs_sub_truncate_lt second)
    rcases toInt_seconds second with ⟨hlow, hhigh, hcast⟩ | ⟨hlow, hcast⟩ | ⟨hhigh, hcast⟩
    · rw [hcast]
      have hnear : -(3 / 2000000) < second - truncate second →
          (|(lib.mktime ⟨year, month, day, hour, minute, truncate second⟩ : ℚ)
              + (toInt ((second - truncate second) * 1000000 + 1 / 2) : ℚ) / 1000000
              - (lib.mktime ⟨year, month, day, hour, minute, truncate second⟩
                + (second - truncate second))| ≤ 1 / 2000000
            ↔ -(1 / 2000000) ≤ second - truncate second) := by
        intro h
        rw [add_sub_add_left_eq_sub]
        exact usec_near_iff h (by linarith)
      constructor
      · rintro ⟨⟨h, -⟩, h'⟩
        exact ⟨hlow, hhigh, h, fun hoccurs => (hnear h).mp (h' hoccurs)⟩
      · rintro ⟨-, -, h, h'⟩
        exact ⟨⟨h, by linarith⟩, fun hoccurs => (hnear h).mpr (h' hoccurs)⟩
    · rw [hcast]
      constructor
      · rintro ⟨⟨h, -⟩, -⟩
        linarith
      · rintro ⟨h, -⟩
        linarith
    · rw [hcast]
      constructor
      · rintro ⟨⟨-, h⟩, -⟩
        linarith
      · rintro ⟨-, h, -⟩
        linarith

end Ranges

/-- The microseconds of the clock being less than a second: the timestamp that a call returns, if it
returns one, is normalised, and near the instant that is requested, exactly if the seconds are in
range. -/
theorem timestamp_iff {lib : TimeLibrary} (hclock : 0 ≤ lib.clock.2 ∧ lib.clock.2 < 1000000)
    (call : TimeCall) :
  (∀ t, call.result lib = .time t → lib.Normalised t ∧ call.Requested lib t) ↔ call.InRange lib
  := by
  cases call with
  | ofLocal year month day hour minute second => apply localTime_iff
  | ofEpoch epoch =>
      simp only [TimeCall.result, Scm.time.injEq, forall_eq', TimeCall.Requested, TimeCall.InRange]
      apply timeAt_iff
  | ofSum time sec =>
      simp only [TimeCall.result, Scm.time.injEq, forall_eq', TimeCall.Requested, and_true,
        TimeCall.InRange]
      apply timeAdd_iff
  | ofText str =>
      simp only [TimeCall.result, Scm.time.injEq, forall_eq', TimeCall.Requested, and_true,
        TimeCall.InRange, iff_true]
      rw [timeDecode]
      split
      all_goals exact normalised_at_iff.mpr (by norm_num)
  | ofClock =>
      simp only [TimeCall.result, Scm.time.injEq, forall_eq', TimeCall.Requested, and_true,
        TimeCall.InRange, iff_true]
      exact normalised_at_iff.mpr hclock

/-- A library that is right in universal time for the first minute of 1970. -/
def firstMinute : TimeLibrary where
  localtime e := (⟨1970, 1, 1, 0, 0, e⟩, 0)
  mktime c := c.second
  seconds s := (signedValue s, 0)
  real s := numberText (signedValue s)
  getdate _ := -1
  clock := (30, 999999)

/-- The timestamp of a second and a half after the epoch. -/
theorem timestamp_iff_half :
  firstMinute.Normalised (timeAt firstMinute.toCLibrary (3 / 2))
    ∧ (timeAt firstMinute.toCLibrary (3 / 2)).Near (3 / 2)
  := by
  have hclock : 0 ≤ firstMinute.clock.2 ∧ firstMinute.clock.2 < 1000000 := by decide
  apply (timestamp_iff hclock (.ofEpoch (3 / 2))).mpr _ _ rfl
  constructor <;> norm_num

/-- Half a second before the epoch there are -499999 microseconds, and 2147483648 seconds after the
epoch there is no normalised timestamp either. -/
theorem timestamp_not_normalised :
  (∃ t, (TimeCall.ofLocal 1970 1 1 0 0 (-1 / 2)).result firstMinute = .time t
      ∧ t.usec = -499999 ∧ ¬ firstMinute.Normalised t)
    ∧ ∃ t, (TimeCall.ofEpoch 2147483648).result firstMinute = .time t
      ∧ t.epoch = -2147483648 ∧ t.usec = -2147483648 ∧ ¬ firstMinute.Normalised t
  := by
  have hlocal : (TimeCall.ofLocal 1970 1 1 0 0 (-1 / 2)).result firstMinute
      = .time (firstMinute.at 0 (-499999)) := by decide +kernel
  have hat : timeAt firstMinute.toCLibrary 2147483648
      = firstMinute.at (-2147483648) (-2147483648) := by decide +kernel
  constructor
  · refine ⟨_, hlocal, rfl, ?_⟩
    intro h
    exact absurd h.nonneg (by decide)
  · refine ⟨_, congrArg Scm.time hat, rfl, rfl, ?_⟩
    intro h
    exact absurd h.nonneg (by decide)

end Gusher
