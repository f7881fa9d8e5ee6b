import Mathlib.Algebra.Order.Field.Rat
import Mathlib.Algebra.Order.Floor.Ring
import Mathlib.Data.Rat.Floor
import Mathlib.Tactic.Linarith
import Mathlib.Tactic.NormNum

/-!
# Conversion of numbers to machine integers

A cast from a floating-point number to a signed integer type truncates toward zero.  Of a number
that is then out of the range of the type the cast makes the least number of the type, as the
processor does.  Numbers are rational here.
-/

namespace Conversion

/-- The number rounded toward zero. -/
def truncate (q : ℚ) : ℤ :=
  if q < 0 then ⌈q⌉ else ⌊q⌋

/-- The cast to a signed type whose numbers are those from `-bound` up to `bound`. -/
def cast (bound : ℤ) (q : ℚ) : ℤ :=
  if -bound ≤ truncate q ∧ truncate q < bound then truncate q else -bound

theorem truncate_of_nonneg {q : ℚ} (h : 0 ≤ q) :
  truncate q = ⌊q⌋
  := if_neg (not_lt.mpr h)

theorem truncate_of_neg {q : ℚ} (h : q < 0) :
  truncate q = ⌈q⌉
  := if_pos h

@[simp]
theorem truncate_intCast (z : ℤ) :
  truncate (z : ℚ) = z
  := by simp [truncate]

/-- When a truncated number is at least a number that is not positive. -/
theorem le_truncate_iff {n : ℤ} (hn : n ≤ 0) {q : ℚ} :
  n ≤ truncate q ↔ (n : ℚ) - 1 < q
  := by
  rcases lt_or_ge q 0 with hq | hq
  · rw [truncate_of_neg hq]
    exact Int.le_ceil_iff
  · rw [truncate_of_nonneg hq]
    have hn' : (n : ℚ) ≤ 0 := by exact_mod_cast hn
    constructor
    · intro _
      linarith
    · intro _
      exact hn.trans (Int.floor_nonneg.mpr hq)

/-- When a truncated number is less than a positive number. -/
theorem truncate_lt_iff {n : ℤ} (hn : 0 < n) {q : ℚ} :
  truncate q < n ↔ q < n
  := by
  rcases lt_or_ge q 0 with hq | hq
  · rw [truncate_of_neg hq]
    have hn' : (0 : ℚ) < n := by exact_mod_cast hn
    constructor
    · intro _
      linarith
    · intro _
      have hceil : ⌈q⌉ ≤ 0 := Int.ceil_le.mpr (by exact_mod_cast hq.le)
      exact hceil.trans_lt hn
  · rw [truncate_of_nonneg hq]
    exact Int.floor_lt

/-- A number differs from the truncated number by less than one. -/
theorem abs_sub_truncate_lt (q : ℚ) :
  |q - truncate q| < 1
  := by
  rw [abs_lt]
  rcases lt_or_ge q 0 with hq | hq
  · rw [truncate_of_neg hq]
    constructor
    · linarith [Int.ceil_lt_add_one q]
    · linarith [Int.le_ceil q]
  · rw [truncate_of_nonneg hq]
    constructor
    · linarith [Int.floor_le q]
    · linarith [Int.lt_floor_add_one q]

variable {bound : ℤ} {q : ℚ}

/-- The cast of a number in the range of the type. -/
theorem cast_of_mem (hbound : 0 < bound) (hlow : -(bound : ℚ) - 1 < q) (hhigh : q < bound) :
  cast bound q = truncate q
  := by
  apply if_pos
  constructor
  · apply (le_truncate_iff (by omega)).mpr
    push_cast
    exact hlow
  · exact (truncate_lt_iff hbound).mpr hhigh

theorem cast_of_le (hbound : 0 < bound) (h : q ≤ -(bound : ℚ) - 1) :
  cast bound q = -bound
  := by
  apply if_neg
  rintro ⟨hlow, -⟩
  have hlow := (le_truncate_iff (by omega)).mp hlow
  push_cast at hlow
  linarith

theorem cast_of_ge (hbound : 0 < bound) (h : (bound : ℚ) ≤ q) :
  cast bound q = -bound
  := by
  apply if_neg
  rintro ⟨-, hhigh⟩
  exact absurd ((truncate_lt_iff hbound).mp hhigh) (not_lt.mpr h)

/-- When the cast of a number lies between zero and a number of the type. -/
theorem cast_mem_iff (hbound : 0 < bound) {n : ℤ} (hn : 0 < n) (hle : n ≤ bound) :
  0 ≤ cast bound q ∧ cast bound q < n ↔ -1 < q ∧ q < n
  := by
  have hle' : (n : ℚ) ≤ bound := by exact_mod_cast hle
  have hbound' : (0 : ℚ) < bound := by exact_mod_cast hbound
  constructor
  · rintro ⟨hlow, hhigh⟩
    rw [cast] at hlow hhigh
    split at hlow
    case isFalse => omega
    case isTrue hrange =>
        rw [if_pos hrange] at hhigh
        have hq := (le_truncate_iff le_rfl).mp hlow
        push_cast at hq
        exact ⟨by linarith, (truncate_lt_iff hn).mp hhigh⟩
  · rintro ⟨hlow, hhigh⟩
    rw [cast_of_mem hbound (by linarith) (by linarith)]
    constructor
    · apply (le_truncate_iff le_rfl).mpr
      push_cast
      linarith
    · exact (truncate_lt_iff hn).mpr hhigh

/-- The cast of a number that is rounded down: it is less than one away, unless the number is too
small or too large for the type. -/
theorem cast_floor (hbound : 0 < bound) (q : ℚ) :
  (-(bound : ℚ) ≤ q ∧ q < bound ∧ 0 ≤ q - cast bound ⌊q⌋ ∧ q - cast bound ⌊q⌋ < 1)
    ∨ (q < -(bound : ℚ) ∧ (cast bound ⌊q⌋ : ℚ) = -bound)
    ∨ ((bound : ℚ) ≤ q ∧ (cast bound ⌊q⌋ : ℚ) = -bound)
  := by
  have hle := Int.floor_le q
  have hlt := Int.lt_floor_add_one q
  rcases lt_or_ge q (-(bound : ℚ)) with hlow | hlow
  · right; left
    use hlow
    have hfloor : ⌊q⌋ < -bound := Int.floor_lt.mpr (by push_cast; exact hlow)
    have hfloor' : (⌊q⌋ : ℚ) ≤ -(bound : ℚ) - 1 := by
      exact_mod_cast Int.le_sub_one_of_lt hfloor
    rw [cast_of_le hbound hfloor']
    exact Int.cast_neg bound
  · rcases lt_or_ge q (bound : ℚ) with hhigh | hhigh
    · left
      have hfloor : -bound ≤ ⌊q⌋ := Int.le_floor.mpr (by push_cast; exact hlow)
      have hfloor' : -(bound : ℚ) ≤ (⌊q⌋ : ℚ) := by exact_mod_cast hfloor
      rw [cast_of_mem hbound (by linarith) (by linarith), truncate_intCast]
      exact ⟨hlow, hhigh, by linarith, by linarith⟩
    · right; right
      use hhigh
      have hfloor : (bound : ℚ) ≤ (⌊q⌋ : ℚ) := by exact_mod_cast Int.le_floor.mpr hhigh
      rw [cast_of_ge hbound hfloor]
      exact Int.cast_neg bound

end Conversion
