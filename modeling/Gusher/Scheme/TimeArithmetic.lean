import Gusher.Scheme.Timestamp

/-!
# The arithmetic of timestamps

`time_add` rounds a sum of seconds to the nearest microsecond, and splits the microseconds into
whole seconds and a rest that is not negative.  In the range of the epoch this is all it does
(`timeAdd_eq`), and how it goes together with `time_diff` follows from that.
-/

namespace Gusher

open Conversion

def timeDiff (time1 time2 : GTime) : ℚ :=
  time1.epochSec - time2.epochSec

/-- The whole number of microseconds that is nearest to a number of seconds. -/
def nearestMicros (q : ℚ) : ℤ := ⌊q * 1000000 + 1 / 2⌋

/-- A number of seconds is in the range of the epoch, also when it is rounded to microseconds. -/
structure EpochInRange (q : ℚ) : Prop where
  low : -2 ^ 63 ≤ q
  high : q + 1 / 2000000 < 2 ^ 63

/-- The epoch of a timestamp is in its range, and its microseconds are less than a second. -/
structure GTime.Proper (t : GTime) : Prop where
  epoch : -2 ^ 63 ≤ t.epoch ∧ t.epoch < 2 ^ 63
  usec : 0 ≤ t.usec ∧ t.usec < 1000000

/-! ### Rounding -/

/-- The nearest microsecond is half a microsecond away, or less. -/
theorem abs_nearestMicros_sub_le (q : ℚ) :
  |(nearestMicros q : ℚ) / 1000000 - q| ≤ 1 / 2000000
  := by
  have hle := Int.floor_le (q * 1000000 + 1 / 2)
  have hlt := Int.lt_floor_add_one (q * 1000000 + 1 / 2)
  rw [nearestMicros, abs_le]
  constructor <;> linarith

theorem nearestMicros_div (m : ℤ) :
  nearestMicros (m / 1000000) = m
  := by
  rw [nearestMicros, Int.floor_eq_iff]
  constructor <;> linarith

theorem nearestMicros_sub_intCast (q : ℚ) (n : ℤ) :
  nearestMicros (q - n) = nearestMicros q - n * 1000000
  := by
  rw [nearestMicros, nearestMicros, ← Int.floor_sub_intCast]
  congr 1
  push_cast
  ring

theorem nearestMicros_mono {p q : ℚ} (h : p ≤ q) :
  nearestMicros p ≤ nearestMicros q
  := Int.floor_mono (by linarith)

/-- What is less than a second is rounded to a second or less. -/
theorem nearestMicros_mem {q : ℚ} (hlow : 0 ≤ q) (hhigh : q < 1) :
  0 ≤ nearestMicros q ∧ nearestMicros q ≤ 1000000
  := by
  have hzero := nearestMicros_div 0
  have hone := nearestMicros_div 1000000
  constructor
  · calc (0 : ℤ)
      _ = nearestMicros ((0 : ℤ) / 1000000) := hzero.symm
      _ ≤ nearestMicros q := nearestMicros_mono (by push_cast; linarith)
  · calc nearestMicros q
      _ ≤ nearestMicros ((1000000 : ℤ) / 1000000) := nearestMicros_mono (by push_cast; linarith)
      _ = 1000000 := hone

/-- The microseconds that `time_add` computes. -/
theorem toInt_micros {q : ℚ} (hlow : 0 ≤ q) (hhigh : q < 1) :
  toInt (q * 1000000 + 1 / 2) = nearestMicros q
  := by
  rw [toInt, cast_of_mem (by norm_num) (by push_cast; linarith) (by push_cast; linarith)]
  exact truncate_of_nonneg (by linarith)

/-! ### Sums -/

section Sums

variable {lib : CLibrary} {time : GTime} {sec : ℚ}

/-- `time_add` rounds the sum to the nearest microsecond, and splits off the whole seconds. -/
theorem timeAdd_eq (h : EpochInRange (time.epochSec + sec)) :
  timeAdd lib time sec
    = lib.at (nearestMicros (time.epochSec + sec) / 1000000)
        (nearestMicros (time.epochSec + sec) % 1000000)
  := by
  rw [timeAdd]
  obtain ⟨hlow, hhigh⟩ := h
  generalize time.epochSec + sec = dtime at hlow hhigh ⊢
  have hle := Int.floor_le dtime
  have hlt := Int.lt_floor_add_one dtime
  have hfloor : (-2 ^ 63 : ℤ) ≤ ⌊dtime⌋ := Int.le_floor.mpr (by push_cast; exact hlow)
  have hntime : toTime ⌊dtime⌋ = ⌊dtime⌋ := by
    have hfloor' : (-2 ^ 63 : ℚ) ≤ (⌊dtime⌋ : ℚ) := by exact_mod_cast hfloor
    rw [toTime, cast_of_mem (by norm_num) (by push_cast; linarith) (by push_cast; linarith),
      truncate_intCast]
  have hrest : 0 ≤ dtime - ⌊dtime⌋ ∧ dtime - ⌊dtime⌋ < 1 := ⟨by linarith, by linarith⟩
  obtain ⟨hnonneg, hsecond⟩ := nearestMicros_mem hrest.1 hrest.2
  simp only [hntime, toInt_micros hrest.1 hrest.2]
  rw [nearestMicros_sub_intCast] at hnonneg hsecond ⊢
  split
  case isTrue hcarry =>
      -- the rest is rounded to a second, and the next second is in the range
      have hnext : (⌊dtime⌋ : ℚ) + 1 < 2 ^ 63 := by
        have hround := (abs_le.mp (abs_nearestMicros_sub_le dtime)).2
        have hcarry' : ((⌊dtime⌋ : ℚ) + 1) * 1000000 ≤ nearestMicros dtime := by
          exact_mod_cast (by omega : (⌊dtime⌋ + 1) * 1000000 ≤ nearestMicros dtime)
        linarith
      have hnext' : ⌊dtime⌋ + 1 < 2 ^ 63 := by exact_mod_cast hnext
      rw [Int.bmod_eq_of_le (by norm_num; omega) (by norm_num; omega)]
      congr 1 <;> omega
  case isFalse => congr 1 <;> omega

/-- The sum in seconds. -/
theorem epochSec_timeAdd (h : EpochInRange (time.epochSec + sec)) :
  (timeAdd lib time sec).epochSec = nearestMicros (time.epochSec + sec) / 1000000
  := by
  rw [timeAdd_eq h, GTime.epochSec]
  simp only [CLibrary.at]
  generalize nearestMicros (time.epochSec + sec) = m
  have hsplit : ((m / 1000000 : ℤ) : ℚ) * 1000000 + ((m % 1000000 : ℤ) : ℚ) = m := by
    exact_mod_cast Int.ediv_mul_add_emod m 1000000
  linarith

/-- The sum is proper. -/
theorem proper_timeAdd (h : EpochInRange (time.epochSec + sec)) :
  (timeAdd lib time sec).Proper
  := by
  rw [timeAdd_eq h]
  obtain ⟨hlow, hhigh⟩ := h
  generalize time.epochSec + sec = dtime at hlow hhigh ⊢
  have hleast : -2 ^ 63 * 1000000 ≤ nearestMicros dtime := by
    rw [← nearestMicros_div (-2 ^ 63 * 1000000)]
    apply nearestMicros_mono
    push_cast
    linarith
  have hgreatest : nearestMicros dtime < 2 ^ 63 * 1000000 := by
    have hround := (abs_le.mp (abs_nearestMicros_sub_le dtime)).2
    have hlt : (nearestMicros dtime : ℚ) < 2 ^ 63 * 1000000 := by linarith
    exact_mod_cast hlt
  constructor
  all_goals
    simp only [CLibrary.at]
    omega

theorem epochSec_eq (t : GTime) :
  t.epochSec = ((t.epoch * 1000000 + t.usec : ℤ) : ℚ) / 1000000
  := by
  rw [GTime.epochSec]
  push_cast
  ring

/-- The instant of a proper timestamp is in the range. -/
theorem GTime.Proper.epochInRange {t : GTime} (h : t.Proper) :
  EpochInRange t.epochSec
  := by
  obtain ⟨⟨hlow, hhigh⟩, ⟨hnonneg, hlt⟩⟩ := h
  have hlow' : -2 ^ 63 * 1000000 ≤ t.epoch * 1000000 + t.usec := by omega
  have hhigh' : t.epoch * 1000000 + t.usec ≤ 2 ^ 63 * 1000000 - 1 := by omega
  have hlow'' : (-2 ^ 63 * 1000000 : ℚ) ≤ ((t.epoch * 1000000 + t.usec : ℤ) : ℚ) := by
    exact_mod_cast hlow'
  have hhigh'' : ((t.epoch * 1000000 + t.usec : ℤ) : ℚ) ≤ 2 ^ 63 * 1000000 - 1 := by
    exact_mod_cast hhigh'
  rw [epochSec_eq]
  constructor <;> linarith

/-- A difference that is added again. -/
theorem timeAdd_timeDiff (t : GTime) {u : GTime} (hu : u.Proper) :
  timeAdd lib t (timeDiff u t) = lib.at u.epoch u.usec
  := by
  have hsum : t.epochSec + timeDiff u t = u.epochSec := by
    rw [timeDiff]
    ring
  obtain ⟨hnonneg, hlt⟩ := hu.usec
  rw [timeAdd_eq (by rw [hsum]; exact hu.epochInRange), hsum, epochSec_eq, nearestMicros_div]
  congr 1 <;> omega

theorem abs_timeDiff_timeAdd_sub_le {t : GTime} {s : ℚ} (h : EpochInRange (t.epochSec + s)) :
  |timeDiff (timeAdd lib t s) t - s| ≤ 1 / 2000000
  := by
  have hround := abs_nearestMicros_sub_le (t.epochSec + s)
  rw [timeDiff, epochSec_timeAdd h, sub_sub]
  apply hround

/-- Whole microseconds are added one after the other, or at once. -/
theorem timeAdd_timeAdd {t : GTime} {a b : ℤ} (ha : EpochInRange (t.epochSec + a / 1000000))
    (hab : EpochInRange (t.epochSec + (a + b) / 1000000)) :
  timeAdd lib (timeAdd lib t (a / 1000000)) (b / 1000000) = timeAdd lib t ((a + b) / 1000000)
  := by
  have hexact : (timeAdd lib t (a / 1000000)).epochSec = t.epochSec + a / 1000000 := by
    have hwhole : t.epochSec + a / 1000000
        = ((t.epoch * 1000000 + t.usec + a : ℤ) : ℚ) / 1000000 := by
      rw [epochSec_eq]
      push_cast
      ring
    rw [epochSec_timeAdd ha, hwhole, nearestMicros_div]
  have hsum : (timeAdd lib t (a / 1000000)).epochSec + b / 1000000
      = t.epochSec + (a + b) / 1000000 := by
    rw [hexact]
    ring
  rw [timeAdd_eq (by rw [hsum]; exact hab), timeAdd_eq hab, hsum]

end Sums

/-- **Arithmetic of timestamps.**  A difference that is added again gives the timestamp; the
difference of a sum is what was added, rounded to microseconds; and whole microseconds can be added
in two steps.  Every sum is proper. -/
theorem time_laws (lib : CLibrary) (t : GTime) {u : GTime} (hu : u.Proper) :
  ((timeAdd lib t (timeDiff u t)).epoch = u.epoch ∧ (timeAdd lib t (timeDiff u t)).usec = u.usec)
    ∧ (∀ s, EpochInRange (t.epochSec + s) →
        |timeDiff (timeAdd lib t s) t - s| ≤ 1 / 2000000 ∧ (timeAdd lib t s).Proper)
    ∧ ∀ a b : ℤ, EpochInRange (t.epochSec + a / 1000000) →
        EpochInRange (t.epochSec + (a + b) / 1000000) →
        timeAdd lib (timeAdd lib t (a / 1000000)) (b / 1000000)
            = timeAdd lib t ((a + b) / 1000000)
          ∧ (timeAdd lib (timeAdd lib t (a / 1000000)) (b / 1000000)).Proper
  := by
  refine ⟨?_, ?_, ?_⟩
  · rw [timeAdd_timeDiff t hu]
    exact ⟨rfl, rfl⟩
  · intro s h
    exact ⟨abs_timeDiff_timeAdd_sub_le h, proper_timeAdd h⟩
  · intro a b ha hab
    rw [timeAdd_timeAdd ha hab]
    exact ⟨rfl, proper_timeAdd hab⟩

/-- From half a second after the epoch back to three microseconds before it, and forth. -/
theorem time_laws_back :
  (timeAdd firstMinute.toCLibrary (firstMinute.at 0 500000)
      (timeDiff (firstMinute.at (-1) 999997) (firstMinute.at 0 500000))).epoch = -1
    ∧ |timeDiff (timeAdd firstMinute.toCLibrary (firstMinute.at 0 500000) (-1 / 3))
        (firstMinute.at 0 500000) - -1 / 3| ≤ 1 / 2000000
    ∧ timeAdd firstMinute.toCLibrary (timeAdd firstMinute.toCLibrary (firstMinute.at 0 500000)
          ((-500003 : ℤ) / 1000000)) ((1000000 : ℤ) / 1000000)
        = timeAdd firstMinute.toCLibrary (firstMinute.at 0 500000)
            (((-500003 : ℤ) + (1000000 : ℤ)) / 1000000)
  := by
  have hproper : (firstMinute.at (-1) 999997).Proper := ⟨by decide, by decide⟩
  have hhalf : (firstMinute.at 0 500000).epochSec = 1 / 2 := by
    norm_num [GTime.epochSec, CLibrary.at]
  obtain ⟨⟨hepoch, -⟩, hdiff, hsum⟩ :=
    time_laws firstMinute.toCLibrary (firstMinute.at 0 500000) hproper
  rw [hhalf] at hdiff hsum
  refine ⟨hepoch, ?_, ?_⟩
  · exact (hdiff (-1 / 3) ⟨by norm_num, by norm_num⟩).1
  · exact (hsum (-500003) 1000000 ⟨by norm_num, by norm_num⟩ ⟨by norm_num, by norm_num⟩).1

end Gusher
